import ClassLet.Proofs.Generation.DeclarationCode
import ClassLet.Proofs.Generation.SourceLines

/-!
# Lines of the instructions of a program

The listing of a program is put together of pieces: the code of each expression that the program
holds, laid out part by part, and the items that declarations and bodies add. So every expression of
the program, also one inside another, has the lines of `Laid`.

Main statement: `Program.generate_lines`.
-/

namespace ClassLet

/-!
# Expressions of a program
-/

mutual

/-- The expressions that a declaration holds, without those inside others. -/
def Decl.roots : Decl → List Expr
  | .var _ _ _ init _ => [init]
  | .function _ body _ => body.roots
  | .classDef _ methods => Method.rootsAll methods
termination_by structural d => d

def Body.roots : Body → List Expr
  | ⟨locals, result⟩ => Decl.rootsAll locals ++ [result]
termination_by structural b => b

def Method.roots : Method → List Expr
  | ⟨_, body, _⟩ => body.roots
termination_by structural m => m

def Decl.rootsAll : List Decl → List Expr
  | [] => []
  | d :: ds => d.roots ++ Decl.rootsAll ds
termination_by structural ds => ds

def Method.rootsAll : List Method → List Expr
  | [] => []
  | m :: ms => m.roots ++ Method.rootsAll ms
termination_by structural ms => ms

end

def Program.roots (p : Program) : List Expr :=
  Decl.rootsAll p.decls ++ [p.body]

namespace Expr

def operands : Expr → List Expr
  | .call _ _ args _ => args
  | .methodCall _ _ _ args _ _ => args
  | .construct _ _ args _ => args
  | .ifElse _ condition whenTrue whenFalse => [condition, whenTrue, whenFalse]
  | .not _ operand => [operand]
  | .binary _ _ left right => [left, right]
  | .print _ operand => [operand]
  | _ => []

/-- The expression is the root, or an operand of an expression within it. -/
inductive Within (root : Expr) : Expr → Prop where
  | root : Within root root
  | operand {e o : Expr} :
      Within root e →
      o ∈ e.operands →
      Within root o

theorem mem_operandsAll {o : Expr} {es : List Expr} (n : Nat) (h : o ∈ es) :
    ∃ k, .operand k o ∈ operandsAll n es := by
  induction es generalizing n with
  | nil => cases h
  | cons e es ih =>
      rcases List.mem_cons.mp h with rfl | h
      · exact ⟨n, List.mem_cons_self⟩
      · rcases ih (n + e.labels) h with ⟨k, hk⟩
        exact ⟨k, List.mem_cons_of_mem _ hk⟩

theorem mem_operandsReversed {o : Expr} {es : List Expr} (n : Nat) (h : o ∈ es) :
    ∃ k, .operand k o ∈ operandsReversed n es := by
  induction es generalizing n with
  | nil => cases h
  | cons e es ih =>
      rcases List.mem_cons.mp h with rfl | h
      · exact ⟨_, List.mem_append_right _ List.mem_cons_self⟩
      · rcases ih n h with ⟨k, hk⟩
        exact ⟨k, List.mem_append_left _ hk⟩

/-- The code of every operand is a part of the code. -/
theorem operand_mem_parts (ctx : CodeContext) (n : Nat) {e o : Expr} (h : o ∈ e.operands) :
    ∃ k, .operand k o ∈ e.parts ctx n := by
  cases e with
  | call pos callee args target =>
      rcases mem_operandsReversed n h with ⟨k, hk⟩
      exact ⟨k, List.mem_append_left _ (List.mem_cons_of_mem _ hk)⟩
  | methodCall pos object method args receiver entry =>
      rcases mem_operandsReversed n h with ⟨k, hk⟩
      exact ⟨k, List.mem_append_left _ (List.mem_cons_of_mem _ hk)⟩
  | construct pos className args target =>
      rcases mem_operandsAll n h with ⟨k, hk⟩
      exact ⟨k, List.mem_append_left _ hk⟩
  | ifElse pos condition whenTrue whenFalse =>
      simp only [operands, List.mem_cons, List.not_mem_nil, or_false] at h
      rcases h with rfl | rfl | rfl
      · exact ⟨n + 2, List.mem_cons_self⟩
      · exact ⟨n + 2 + condition.labels + whenFalse.labels, by simp [parts]⟩
      · exact ⟨n + 2 + condition.labels, by simp [parts]⟩
  | not pos operand =>
      cases List.mem_singleton.mp h
      exact ⟨_, List.mem_cons_self⟩
  | binary pos op left right =>
      simp only [operands, List.mem_cons, List.not_mem_nil, or_false] at h
      cases hop : op.isLogical with
      | true =>
          rcases h with rfl | rfl
          · exact ⟨n + 2, by simp [parts, hop]⟩
          · exact ⟨n + 2 + left.labels, by simp [parts, hop]⟩
      | false =>
          rcases h with rfl | rfl
          · exact ⟨n, by simp [parts, hop]⟩
          · exact ⟨n + left.labels, by simp [parts, hop]⟩
  | print pos operand =>
      cases List.mem_singleton.mp h
      exact ⟨_, List.mem_cons_self⟩
  | _ => cases h

/-- The items are the code of the expression, with the lines of `Laid`. -/
def LaidFor (memorySize : Int32) (e : Expr) (items : List Item) : Prop :=
  ∃ insideClass n, Laid { memorySize, insideClass } e.pos.line
    (e.parts { memorySize, insideClass } n) items

/-- What is within a laid expression is laid too. -/
theorem LaidFor.within {memorySize : Int32} {root e : Expr} {items : List Item}
    (h : root.LaidFor memorySize items) (he : Within root e) :
    ∃ inner, e.LaidFor memorySize inner ∧ inner <:+: items := by
  induction he with
  | root => exact ⟨items, h, List.infix_refl items⟩
  | operand _ hmem ih =>
      rcases ih with ⟨outer, ⟨insideClass, n, hlaid⟩, hinfix⟩
      rcases operand_mem_parts { memorySize, insideClass } n hmem with ⟨k, hk⟩
      rcases hlaid.operand_infix hk with ⟨inner, hinner, hinfix'⟩
      exact ⟨inner, ⟨insideClass, k, hinner⟩, hinfix'.trans hinfix⟩

end Expr

/-!
# Pieces
-/

/-- Items in a row: the code of an expression of the program, or what a declaration adds. -/
structure Piece where
  root? : Option Expr
  items : List Item

/-- The pieces of the expressions are laid. -/
def PiecesLaid (memorySize : Int32) (pieces : List Piece) : Prop :=
  ∀ piece ∈ pieces, ∀ root, piece.root? = some root → root.LaidFor memorySize piece.items

/-- All streams consist of pieces, one for each of the expressions. -/
def Emitter.Cut (memorySize : Int32) (e : Emitter) (roots : List Expr) : Prop :=
  ∃ (done : List Piece) (streams : List (List Piece)),
    e.finished.toList = done.flatMap Piece.items ∧
    e.openStreams = streams.map (fun pieces => pieces.flatMap Piece.items) ∧
    ((done ++ streams.flatten).filterMap Piece.root?).Perm roots ∧
    PiecesLaid memorySize (done ++ streams.flatten)

namespace Emitter.Cut

variable {memorySize : Int32} {e e' : Emitter} {roots : List Expr}

theorem start (memorySize : Int32) : Emitter.empty.Cut memorySize [] :=
  ⟨[], [[]], rfl, rfl, List.Perm.refl _, fun _ hpiece => by cases hpiece⟩

/-- A new piece behind the innermost stream. -/
theorem extended (h : e.Cut memorySize roots) (piece : Piece)
    (hextended : e.Extended piece.items e')
    (hlaid : ∀ root, piece.root? = some root → root.LaidFor memorySize piece.items) :
    e'.Cut memorySize (roots ++ piece.root?.toList) := by
  rcases h with ⟨done, streams, hdone, hstreams, hperm, hall⟩
  cases streams with
  | nil =>
      rw [openStreams, List.map_nil] at hstreams
      simp at hstreams
  | cons first rest =>
      have hlast : ([piece] ++ rest.flatten).Perm (rest.flatten ++ [piece]) :=
        List.perm_append_comm
      have hmoved : (done ++ ((first ++ [piece]) :: rest).flatten).Perm
          ((done ++ (first :: rest).flatten) ++ [piece]) := by
        simp only [List.flatten_cons, List.append_assoc]
        exact (hlast.append_left first).append_left done
      refine ⟨done, (first ++ [piece]) :: rest, ?_, ?_, ?_, ?_⟩
      · rw [hextended.finished, hdone]
      · rw [hextended.streams _ _ hstreams]
        simp
      · have hone : [piece].filterMap Piece.root? = piece.root?.toList := by
          cases hroot : piece.root? with
          | none => simp [hroot]
          | some root => simp [hroot]
        refine (hmoved.filterMap Piece.root?).trans ?_
        rw [List.filterMap_append, hone]
        exact hperm.append_right _
      · intro p hp
        rcases List.mem_append.mp (hmoved.mem_iff.mp hp) with hp | hp
        · exact hall p hp
        · cases List.mem_singleton.mp hp
          exact hlaid

theorem openBody (h : e.Cut memorySize roots) (label : String) :
    (e.openBody label).Cut memorySize roots := by
  rcases h with ⟨done, streams, hdone, hstreams, hperm, hall⟩
  have hmoved : (done ++ ([{ root? := none, items := [.label label] }] :: streams).flatten).Perm
      ({ root? := none, items := [.label label] } :: (done ++ streams.flatten)) :=
    List.perm_middle
  refine ⟨done, [{ root? := none, items := [.label label] }] :: streams, hdone, ?_, ?_, ?_⟩
  · exact congrArg ([Item.label label] :: ·) hstreams
  · exact (hmoved.filterMap Piece.root?).trans hperm
  · intro p hp root hroot
    rcases List.mem_cons.mp (hmoved.mem_iff.mp hp) with rfl | hp
    · cases hroot
    · exact hall p hp root hroot

theorem closeBody (h : e.Cut memorySize roots) : e.closeBody.Cut memorySize roots := by
  rcases h with ⟨done, streams, hdone, hstreams, hperm, hall⟩
  unfold Emitter.closeBody
  cases hpending : e.pending with
  | nil => exact ⟨done, streams, hdone, hstreams, hperm, hall⟩
  | cons body outer =>
      rw [openStreams, hpending] at hstreams
      cases streams with
      | nil => simp at hstreams
      | cons first rest =>
          simp only [List.map_cons, List.cons_append, List.cons.injEq] at hstreams
          rw [List.flatten_cons, ← List.append_assoc] at hperm hall
          refine ⟨done ++ first, rest, ?_, hstreams.2, hperm, hall⟩
          simp [hdone, hstreams.1]

/-- Closed bodies and the main stream make up the listing. -/
theorem listing (h : e.Cut memorySize roots) :
    ∃ pieces : List Piece, e.listing.items = pieces.flatMap Piece.items ∧
      (pieces.filterMap Piece.root?).Perm roots ∧ PiecesLaid memorySize pieces := by
  rcases h with ⟨done, streams, hdone, hstreams, hperm, hall⟩
  rcases List.eq_nil_or_concat streams with rfl | ⟨bodies, main, rfl⟩
  · rw [openStreams, List.map_nil] at hstreams
    simp at hstreams
  · rw [List.concat_eq_append] at hstreams hperm hall
    rw [openStreams, List.map_append, List.map_singleton] at hstreams
    rcases List.append_inj' hstreams rfl with ⟨hbodies, hmain⟩
    have hmoved : (main ++ (done ++ bodies.flatten)).Perm (done ++ (bodies ++ [main]).flatten) := by
      rw [List.flatten_append, List.flatten_singleton, ← List.append_assoc done]
      exact List.perm_append_comm
    refine ⟨main ++ (done ++ bodies.flatten), ?_, (hmoved.filterMap Piece.root?).trans hperm, ?_⟩
    · rw [items_listing, hdone, hbodies, List.singleton_inj.mp hmain]
      simp [List.flatMap_def, List.flatten_flatten]
      rfl
    · intro piece hpiece
      exact hall piece (hmoved.mem_iff.mp hpiece)

end Emitter.Cut

/-!
# Generators
-/

/-- Whenever the generator succeeds on streams that are cut, they stay cut, for the given
expressions too. -/
def Gen.Cuts {α : Type} (memorySize : Int32) (g : Gen α) (roots : List Expr) : Prop :=
  ∀ e e' a before, e.Cut memorySize before → g.run e = .ok (a, e') →
    e'.Cut memorySize (before ++ roots)

namespace Gen.Cuts

variable {α β : Type} {memorySize : Int32} {g : Gen α} {f : α → Gen β} {xs ys : List Expr}

theorem bind (hg : Cuts memorySize g xs) (hf : ∀ a, Cuts memorySize (f a) ys) :
    Cuts memorySize (g >>= f) (xs ++ ys) := by
  intro e e' b before hcut hrun
  rcases Gen.bind_ok hrun with ⟨a, e₁, hfirst, hsecond⟩
  rw [← List.append_assoc]
  exact hf a e₁ e' b _ (hg e e₁ a before hcut hfirst) hsecond

/-- Items that are no code of an expression. -/
theorem of_extended
    (h : ∀ e e' a, g.run e = .ok (a, e') → ∃ items, e.Extended items e') :
    Cuts memorySize g [] := by
  intro e e' a before hcut hrun
  rcases h e e' a hrun with ⟨items, hextended⟩
  exact hcut.extended { root? := none, items } hextended fun _ hroot => by cases hroot

theorem pure (a : α) : Cuts memorySize (Pure.pure a : Gen α) [] := by
  apply of_extended
  intro e e' r hrun
  cases hrun
  exact ⟨[], (Emitter.Puts.none rfl rfl rfl).extended⟩

theorem fail (pos : Position) (cause : CodeFault) :
    Cuts memorySize (Gen.fail pos cause : Gen α) xs := by
  intro e e' a before _ hrun
  cases hrun

theorem noted (note : Option α) (pos : Position) (cause : CodeFault) :
    Cuts memorySize (Gen.noted note pos cause) [] := by
  cases note with
  | none => exact fail pos cause
  | some a => exact pure a

theorem of_lays (h : ∀ n, ∃ ctx result parts labels, Lays ctx g n result parts labels) :
    Cuts memorySize g [] := by
  apply of_extended
  intro e e' a hrun
  rcases h e.labelCount with ⟨ctx, result, parts, labels, hlays⟩
  rcases (hlays e e' a rfl hrun).2.items with ⟨items, _, _, hextended⟩
  exact ⟨items, hextended⟩

theorem emit (op : Opcode) : Cuts memorySize (Gen.emit op) [] :=
  of_lays fun _ => ⟨default, _, _, _, Lays.emit op⟩

theorem emitTimes (op : Opcode) (count : Nat) : Cuts memorySize (Gen.emitTimes op count) [] :=
  of_lays fun _ => ⟨default, _, _, _, Lays.emitTimes op count⟩

theorem push (v : Int32) : Cuts memorySize (Gen.push v) [] :=
  of_lays fun _ => ⟨default, _, _, _, Lays.push v⟩

theorem atLine (line : Nat) : Cuts memorySize (Gen.atLine line) [] := by
  apply of_extended
  intro e e' a hrun
  cases hrun
  exact ⟨[], rfl, fun first rest hfirst => by rwa [List.append_nil]⟩

theorem newFunction : Cuts memorySize Gen.newFunction [] := by
  apply of_extended
  intro e e' a hrun
  cases hrun
  exact ⟨[], rfl, fun first rest hfirst => by rwa [List.append_nil]⟩

theorem pushLabel (label : String) : Cuts memorySize (Gen.pushLabel label) [] :=
  of_lays fun _ => ⟨default, _, _, _, Lays.pushLabel label⟩

theorem storeLabels (labels : List String) : Cuts memorySize (Gen.storeLabels labels) [] := by
  induction labels with
  | nil => exact pure ()
  | cons label labels ih =>
      unfold Gen.storeLabels
      apply bind (pushLabel label)
      intro _
      apply bind (of_lays fun _ => ⟨default, _, _, _, Lays.storeOnHeap⟩)
      exact fun _ => ih

theorem prologue (label : String) : Cuts memorySize (Gen.prologue label) [] := by
  unfold Gen.prologue
  have hopen : Cuts memorySize (modify fun e => e.openBody label : Gen Unit) [] := by
    intro e e' a before hcut hrun
    cases hrun
    rw [List.append_nil]
    exact hcut.openBody label
  exact bind hopen fun _ => bind (emit .setFp) fun _ => emit .pushRa

theorem epilogue (locals params : Nat) : Cuts memorySize (Gen.epilogue locals params) [] := by
  unfold Gen.epilogue
  have hclose : Cuts memorySize (modify fun e => e.closeBody : Gen Unit) [] := by
    intro e e' a before hcut hrun
    cases hrun
    rw [List.append_nil]
    exact hcut.closeBody
  exact bind (emit .popTm) fun _ => bind (emitTimes .pop locals) fun _ =>
    bind (emit .popRa) fun _ => bind (emit .pop) fun _ => bind (emitTimes .pop params) fun _ =>
    bind (emit .popFp) fun _ => bind (emit .pushTm) fun _ => bind (emit .pushRa) fun _ =>
    bind (emit .call) fun _ => hclose

theorem expr (ctx : CodeContext) (root : Expr) :
    Cuts ctx.memorySize (root.generate ctx) [root] := by
  intro e e' a before hcut hrun
  rcases (root.generate_lays ctx e.labelCount e e' a rfl hrun).2.items with
    ⟨items, hlaid, _, hextended⟩
  cases hlaid with
  | operand hinner hrest =>
      cases hrest
      apply hcut.extended { root? := some root, items := _ } hextended
      intro r hr
      cases hr
      rw [List.append_nil]
      exact ⟨ctx.insideClass, _, hinner⟩

end Gen.Cuts

/-- What a generator of declarations keeps and adds. -/
def DeclGen.Cuts {α : Type} (memorySize : Int32) (g : DeclGen α) (roots : List Expr) : Prop :=
  ∀ known, Gen.Cuts memorySize (g.run known) roots

namespace DeclGen.Cuts

variable {α β : Type} {memorySize : Int32} {g : DeclGen α} {f : α → DeclGen β}
  {xs ys : List Expr}

theorem bind (hg : Cuts memorySize g xs) (hf : ∀ a, Cuts memorySize (f a) ys) :
    Cuts memorySize (g >>= f) (xs ++ ys) := by
  intro known
  rw [StateT.run_bind]
  exact Gen.Cuts.bind (hg known) fun r => hf r.1 r.2

theorem rewritten (hg : Cuts memorySize g xs) (h : xs = ys) : Cuts memorySize g ys := by
  subst h
  exact hg

theorem lift {g : Gen α} (h : g.Cuts memorySize xs) :
    Cuts memorySize (liftM g : DeclGen α) xs := by
  intro known
  have hlift : (liftM g : DeclGen α).run known = g >>= fun a => Pure.pure (a, known) := rfl
  rw [hlift, ← List.append_nil xs]
  exact h.bind fun a => Gen.Cuts.pure _

theorem pure (a : α) : Cuts memorySize (Pure.pure a : DeclGen α) [] :=
  fun known => Gen.Cuts.pure (a, known)

theorem get : Cuts memorySize (MonadState.get : DeclGen DispatchLabels) [] :=
  fun known => Gen.Cuts.pure (known, known)

theorem change (change : DispatchLabels → DispatchLabels) :
    Cuts memorySize (modify change : DeclGen Unit) [] :=
  fun known => Gen.Cuts.pure ((), change known)

end DeclGen.Cuts

/-!
# Declarations
-/

section

open DeclGen.Cuts

mutual

theorem Decl.generate_cuts (ctx : CodeContext) :
    ∀ d : Decl, (d.generate ctx).Cuts ctx.memorySize d.roots
  | .var pos id ty init binding => by
      unfold Decl.generate Decl.roots
      apply bind (lift (Gen.Cuts.atLine _))
      exact fun _ => lift (Gen.Cuts.expr ctx init)
  | .function header body binding => by
      unfold Decl.generate Decl.roots
      rw [← List.append_nil body.roots]
      apply bind (lift (Gen.Cuts.atLine _))
      intro _
      apply bind (lift Gen.Cuts.newFunction)
      intro label
      apply bind (Body.generate_cuts ctx label header.params.length body)
      exact fun _ => lift (Gen.Cuts.pushLabel label)
  | .classDef header methods => by
      unfold Decl.generate Decl.roots
      rw [← List.append_nil (Method.rootsAll methods)]
      apply bind (lift (Gen.Cuts.atLine _))
      intro _
      apply bind (lift (Gen.Cuts.noted _ _ _))
      intro layout
      apply bind get
      intro known
      apply bind (Method.generateAll_cuts { ctx with insideClass := true } _ _ methods)
      intro labels
      have hend : DeclGen.Cuts ctx.memorySize (do
          Gen.atLine header.pos.line
          Gen.emit .pushHp
          Gen.storeLabels labels
          modify fun known => known.insert header.id.name labels : DeclGen Unit) [] := by
        apply bind (lift (Gen.Cuts.atLine _))
        intro _
        apply bind (lift (Gen.Cuts.emit .pushHp))
        intro _
        apply bind (lift (Gen.Cuts.storeLabels labels))
        exact fun _ => change _
      have hfail : DeclGen.Cuts ctx.memorySize
          (liftM (Gen.fail header.pos (.noLayout header.id.name) : Gen PUnit)) [] :=
        lift (Gen.Cuts.fail _ _)
      split
      · exact DeclGen.Cuts.bind hfail fun _ => hend
      · exact hend
termination_by structural d => d

theorem Body.generate_cuts (ctx : CodeContext) (label : String) (params : Nat) :
    ∀ b : Body, (b.generate ctx label params).Cuts ctx.memorySize b.roots
  | ⟨locals, result⟩ => by
      unfold Body.generate Body.roots
      apply bind (lift (Gen.Cuts.prologue label))
      intro _
      apply bind (Decl.generateAll_cuts ctx locals)
      intro _
      apply bind (lift (Gen.Cuts.expr ctx result))
      exact fun _ => lift (Gen.Cuts.epilogue locals.length params)
termination_by structural b => b

theorem Method.generate_cuts (ctx : CodeContext) (className : String) (labels : List String) :
    ∀ m : Method, (m.generate ctx className labels).Cuts ctx.memorySize m.roots
  | ⟨header, body, slot⟩ => by
      unfold Method.generate Method.roots
      rw [← List.append_nil body.roots]
      apply bind (lift (Gen.Cuts.noted _ _ _))
      intro slot
      apply bind (lift Gen.Cuts.newFunction)
      intro label
      apply bind (Body.generate_cuts ctx label header.params.length body)
      exact fun _ => lift (Gen.Cuts.noted _ _ _)
termination_by structural m => m

theorem Decl.generateAll_cuts (ctx : CodeContext) :
    ∀ ds : List Decl, (Decl.generateAll ctx ds).Cuts ctx.memorySize (Decl.rootsAll ds)
  | [] => by
      unfold Decl.generateAll Decl.rootsAll
      exact DeclGen.Cuts.pure ()
  | d :: ds => by
      unfold Decl.generateAll Decl.rootsAll
      apply bind (Decl.generate_cuts ctx d)
      exact fun _ => Decl.generateAll_cuts ctx ds
termination_by structural ds => ds

theorem Method.generateAll_cuts (ctx : CodeContext) (className : String) (labels : List String) :
    ∀ ms : List Method,
      (Method.generateAll ctx className labels ms).Cuts ctx.memorySize (Method.rootsAll ms)
  | [] => by
      unfold Method.generateAll Method.rootsAll
      exact DeclGen.Cuts.pure labels
  | m :: ms => by
      unfold Method.generateAll Method.rootsAll
      apply bind (Method.generate_cuts ctx className labels m)
      exact fun labels => Method.generateAll_cuts ctx className labels ms
termination_by structural ms => ms

end

namespace Program

theorem generateAll_cuts (p : Program) (ctx : CodeContext) :
    (p.generateAll ctx).Cuts ctx.memorySize p.roots := by
  unfold generateAll roots
  have hend : DeclGen.Cuts ctx.memorySize (do
      p.body.generate ctx
      Gen.emit .halt : DeclGen Unit) [p.body] :=
    DeclGen.Cuts.bind (lift (Gen.Cuts.expr ctx p.body)) fun _ => lift (Gen.Cuts.emit .halt)
  split
  · apply rewritten
    · apply DeclGen.Cuts.bind (lift (Gen.Cuts.push 0))
      intro _
      apply DeclGen.Cuts.bind (Decl.generateAll_cuts ctx p.decls)
      exact fun _ => hend
    · rfl
  · rename_i hempty
    have hnone : p.decls = [] := by
      simpa [hasDeclarations] using hempty
    rw [hnone]
    exact hend

theorem generate_cut {p : Program} {memorySize : Int32} {l : Listing}
    (h : p.generate memorySize = .ok l) :
    ∃ pieces : List Piece, l.items = pieces.flatMap Piece.items ∧
      (pieces.filterMap Piece.root?).Perm p.roots ∧ PiecesLaid memorySize pieces := by
  unfold generate at h
  cases hrun : ((p.generateAll { memorySize, insideClass := false }).run NameMap.empty).run
      Emitter.empty with
  | error failure =>
      simp only [hrun] at h
      cases h
  | ok r =>
      rcases r with ⟨⟨a, known⟩, e⟩
      simp only [hrun] at h
      cases h
      have hcut := p.generateAll_cuts { memorySize, insideClass := false } NameMap.empty
        Emitter.empty e (a, known) [] (Emitter.Cut.start memorySize) hrun
      exact hcut.listing

/-- The lines of the instructions of a program: the code of every expression stands in the listing,
and every item that an expression adds itself has the line that is current behind the parts of its
code in front of the item, which is the line of the expression only up to the first operand. -/
theorem generate_lines {p : Program} {memorySize : Int32} {l : Listing}
    (h : p.generate memorySize = .ok l) :
    (∃ pieces : List Piece, l.items = pieces.flatMap Piece.items ∧
      (pieces.filterMap Piece.root?).Perm p.roots ∧ PiecesLaid memorySize pieces) ∧
    ∀ root ∈ p.roots, ∀ e, Expr.Within root e →
      ∃ insideClass n items, items <:+: l.items ∧
        ∀ before item after,
          e.parts { memorySize, insideClass } n = before ++ .own item :: after →
            ∃ front back, items = front ++ item.atLine (lineBehind e.pos.line before) :: back ∧
              Laid { memorySize, insideClass } e.pos.line before front := by
  rcases generate_cut h with ⟨pieces, hitems, hroots, hlaid⟩
  refine ⟨⟨pieces, hitems, hroots, hlaid⟩, ?_⟩
  intro root hroot e he
  rcases List.mem_filterMap.mp (hroots.mem_iff.mpr hroot) with ⟨piece, hpiece, heq⟩
  rcases (hlaid piece hpiece root heq).within he with ⟨items, ⟨insideClass, n, hitem⟩, hinfix⟩
  refine ⟨insideClass, n, items, ?_, ?_⟩
  · rcases List.append_of_mem hpiece with ⟨before, after, rfl⟩
    have hwhole : piece.items <:+: l.items :=
      ⟨before.flatMap Piece.items, after.flatMap Piece.items, by simp [hitems]⟩
    exact hinfix.trans hwhole
  · intro before item after hparts
    rw [hparts] at hitem
    exact hitem.own_at

/-- A choice on one line, with its condition on the next one. -/
def spread : Program where
  decls := []
  body := .ifElse (.startOf 1) (.bool (.startOf 2) true) (.int (.startOf 1) 3)
    (.int (.startOf 1) 4)
  pos := .startOf 1

theorem generate_lines_spread :
    ∃ l, spread.generate 64 = .ok l ∧
      (∃ pieces : List Piece, l.items = pieces.flatMap Piece.items ∧
        (pieces.filterMap Piece.root?).Perm [spread.body] ∧ PiecesLaid 64 pieces) ∧
      ∃ insideClass n items, items <:+: l.items ∧
        ∀ before item after,
          spread.body.parts { memorySize := 64, insideClass } n = before ++ .own item :: after →
            ∃ front back, items = front ++ item.atLine (lineBehind 1 before) :: back ∧
              Laid { memorySize := 64, insideClass } 1 before front := by
  have hrun : ∃ l, spread.generate 64 = .ok l := ⟨_, rfl⟩
  rcases hrun with ⟨l, hl⟩
  rcases generate_lines hl with ⟨hpieces, hnodes⟩
  exact ⟨l, hl, hpieces, hnodes spread.body List.mem_cons_self _ Expr.Within.root⟩

/-- The jump of the choice, which is on line 1, gets the line of the condition. -/
theorem jump_on_condition_line :
    ∃ l, spread.generate 64 = .ok l ∧
      .own (.jump .jumpEq (labelText 0)) ∈
        spread.body.parts { memorySize := 64, insideClass := false } 0 ∧
      spread.body.pos.line = 1 ∧
      l.instructions.map (fun i => (i.op, i.line)) =
        [(.push, 2), (.push, 2), (.jumpEq, 2), (.push, 1), (.jump, 1), (.push, 1), (.halt, 1)] :=
  ⟨_, rfl, by simp [spread, Expr.parts], rfl, by decide⟩

end Program

end

end ClassLet
