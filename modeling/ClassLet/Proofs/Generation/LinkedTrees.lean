import ClassLet.Proofs.Generation.ProgramCode
import ClassLet.Proofs.Linkage.Places
import ClassLet.Proofs.Missing
import ClassLet.Proofs.Typing.TypedExpressions

/-!
# Code for linked trees

Generation asks for the notes of uses, for the layouts of classes and for the slots of methods. A
tree that was linked without errors has all of them, and the known tables have as many labels as
their classes have slots, so that generation stops at a missing part only.

Main statement: `Program.generate_link`.
-/

namespace ClassLet

namespace Gen

/-!
# Generators that stop at missing parts only
-/

/-- The generator gives a result with the property if no part is missing, and stops at a missing
part otherwise. -/
def Reaches {α : Type} (g : Gen α) (missing : Bool) (holds : α → Prop) : Prop :=
  ∀ e, (missing = false ∧ ∃ a e', g.run e = .ok (a, e') ∧ holds a) ∨
    (missing = true ∧ ∃ pos, g.run e = .error { pos, cause := .incompleteTree })

/-- The generator gives a result whatever has been emitted before. -/
def Steady {α : Type} (g : Gen α) : Prop :=
  g.Reaches false fun _ => True

namespace Reaches

variable {α β : Type} {g : Gen α} {f : α → Gen β} {a b : Bool} {P : α → Prop} {Q : β → Prop}

theorem bind (h : Reaches g a P) (h' : ∀ x, P x → Reaches (f x) b Q) :
    Reaches (g >>= f) (a || b) Q := by
  intro e
  rw [StateT.run_bind]
  rcases h e with ⟨rfl, x, e₁, hrun, hx⟩ | ⟨rfl, pos, hrun⟩
  · rw [hrun]
    exact h' x hx e₁
  · rw [hrun]
    exact Or.inr ⟨rfl, pos, rfl⟩

/-- Behind a generator that looks at no parts. -/
theorem after (h : Reaches g false P) (h' : ∀ x, P x → Reaches (f x) b Q) :
    Reaches (g >>= f) b Q :=
  bind h h'

/-- In front of a generator that looks at no parts. -/
theorem before (h : Reaches g a P) (h' : ∀ x, P x → Reaches (f x) false Q) :
    Reaches (g >>= f) a Q := by
  have hbind := bind h h'
  rwa [Bool.or_false] at hbind

theorem imp {P' : α → Prop} (h : Reaches g a P) (himp : ∀ x, P x → P' x) : Reaches g a P' := by
  intro e
  rcases h e with ⟨hfalse, x, e', hrun, hx⟩ | hstop
  · exact Or.inl ⟨hfalse, x, e', hrun, himp x hx⟩
  · exact Or.inr hstop

theorem pure {x : α} (hx : P x) : Reaches (Pure.pure x : Gen α) false P :=
  fun e => Or.inl ⟨rfl, x, e, rfl, hx⟩

theorem missing (pos : Position) : Reaches (Gen.fail pos .incompleteTree : Gen α) true P :=
  fun _ => Or.inr ⟨rfl, pos, rfl⟩

theorem noted {note : Option α} {x : α} (hnote : note = some x) (pos : Position)
    (cause : CodeFault) : Reaches (Gen.noted note pos cause) false fun y => y = x := by
  subst hnote
  exact pure rfl

end Reaches

/-!
# Sequences that look at no parts
-/

namespace Steady

variable {α β : Type} {g : Gen α} {f : α → Gen β}

theorem bind (h : Steady g) (h' : ∀ x, Steady (f x)) : Steady (g >>= f) :=
  Reaches.after h fun x _ => h' x

theorem pure (x : α) : Steady (Pure.pure x : Gen α) :=
  Reaches.pure True.intro

theorem modify (f : Emitter → Emitter) : Steady (modify f : Gen Unit) :=
  fun e => Or.inl ⟨rfl, (), f e, rfl, True.intro⟩

theorem modifyGet (f : Emitter → α × Emitter) : Steady (modifyGet f : Gen α) :=
  fun e => Or.inl ⟨rfl, (f e).1, (f e).2, rfl, True.intro⟩

theorem atLine (line : Nat) : Steady (Gen.atLine line) :=
  modify _

theorem emit (op : Opcode) : Steady (Gen.emit op) :=
  modify _

theorem emitTimes (op : Opcode) (count : Nat) : Steady (Gen.emitTimes op count) :=
  modify _

theorem push (value : Int32) : Steady (Gen.push value) :=
  modify _

theorem pushLabel (label : String) : Steady (Gen.pushLabel label) :=
  modify _

theorem jumpTo (op : Opcode) (label : String) : Steady (Gen.jumpTo op label) :=
  modify _

theorem define (label : String) : Steady (Gen.define label) :=
  modify _

theorem newLabel : Steady Gen.newLabel :=
  modifyGet _

theorem newFunction : Steady Gen.newFunction :=
  modifyGet _

theorem advanceHeap : Steady Gen.advanceHeap :=
  (emit _).bind fun _ => (push _).bind fun _ => (emit _).bind fun _ => emit _

theorem storeOnHeap : Steady Gen.storeOnHeap :=
  (emit _).bind fun _ => (emit _).bind fun _ => advanceHeap

theorem storeOnHeapRepeat : ∀ count : Nat, Steady (Gen.storeOnHeapRepeat count)
  | 0 => pure ()
  | count + 1 => storeOnHeap.bind fun _ => storeOnHeapRepeat count

theorem pushBase (ctx : CodeContext) (r : Resolution) : Steady (Gen.pushBase ctx r) := by
  unfold Gen.pushBase
  split
  · exact push _
  · exact (emit _).bind fun _ => emitTimes _ _

theorem loadAt (offset : Int) : Steady (Gen.loadAt offset) :=
  (push _).bind fun _ => (emit _).bind fun _ => emit _

theorem duplicate : Steady Gen.duplicate :=
  (emit _).bind fun _ => (emit _).bind fun _ => emit _

theorem choose (op : Opcode) (taken otherwise : Int32) : Steady (Gen.choose op taken otherwise) :=
  newLabel.bind fun _ => newLabel.bind fun _ => (jumpTo _ _).bind fun _ => (push _).bind fun _ =>
    (jumpTo _ _).bind fun _ => (define _).bind fun _ => (push _).bind fun _ => define _

theorem finish (op : BinaryOp) : Steady op.finish := by
  cases op with
  | add => exact emit _
  | sub => exact emit _
  | mul => exact emit _
  | div => exact emit _
  | eq => exact choose _ _ _
  | le => exact choose _ _ _
  | ge => exact (push _).bind fun _ => (emit _).bind fun _ => choose _ _ _
  | and => exact pure ()
  | or => exact pure ()

theorem prologue (label : String) : Steady (Gen.prologue label) :=
  (modify _).bind fun _ => (emit _).bind fun _ => emit _

theorem epilogue (locals params : Nat) : Steady (Gen.epilogue locals params) :=
  (emit _).bind fun _ => (emitTimes _ _).bind fun _ => (emit _).bind fun _ =>
    (emit _).bind fun _ => (emitTimes _ _).bind fun _ => (emit _).bind fun _ =>
      (emit _).bind fun _ => (emit _).bind fun _ => (emit _).bind fun _ => modify _

theorem storeLabels : ∀ labels : List String, Steady (Gen.storeLabels labels)
  | [] => pure ()
  | label :: labels =>
      (pushLabel label).bind fun _ => storeOnHeap.bind fun _ => storeLabels labels

/-- The code behind the arguments of a call. -/
theorem callTarget (ctx : CodeContext) (target : Resolution) : Steady (do
    Gen.pushBase ctx target
    Gen.duplicate
    if target.binding.ty.isMethod then
      Gen.emit .load
    Gen.loadAt target.binding.offset
    Gen.emit .call) := by
  refine (pushBase _ _).bind fun _ => duplicate.bind fun _ => ?_
  split
  · exact (emit _).bind fun _ => (loadAt _).bind fun _ => emit _
  · exact (loadAt _).bind fun _ => emit _

end Steady

end Gen

/-!
# Expressions
-/

namespace Expr

open Gen

mutual

theorem generate_link (ctx : CodeContext) {env : Environment} (henv : env.Regular) :
    ∀ e : Expr, e.linkErrors env = [] →
      ((e.link env).generate ctx).Reaches e.hasMissing fun _ => True
  | .int pos value, _ => (Steady.atLine _).bind fun _ => Steady.push _
  | .bool pos value, _ => (Steady.atLine _).bind fun _ => Steady.push _
  | .null pos, _ => (Steady.atLine _).bind fun _ => Steady.push _
  | .missing pos, _ => Reaches.after (Steady.atLine _) fun _ _ => Reaches.missing pos
  | .name id target, hok => by
      rcases Environment.resolve_ok hok with ⟨b, _, hresolve⟩
      unfold link generate hasMissing
      rw [hresolve]
      refine Reaches.after (Steady.atLine _) fun _ _ => ?_
      refine Reaches.after (Reaches.noted rfl _ _) fun _ _ => ?_
      exact (Steady.pushBase _ _).bind fun _ => Steady.loadAt _
  | .call pos callee args target, hok => by
      simp only [linkErrors, List.append_eq_nil_iff] at hok
      rcases Environment.resolve_ok hok.1 with ⟨b, _, hresolve⟩
      unfold link generate hasMissing
      rw [hresolve]
      refine Reaches.after (Steady.atLine _) fun _ _ => ?_
      refine Reaches.after (Reaches.noted rfl _ _) fun target _ => ?_
      refine Reaches.after (Steady.emit _) fun _ _ => ?_
      exact (generateReversed_link ctx henv args hok.2).before fun _ _ =>
        Steady.callTarget ctx target
  | .methodCall pos object method args receiver entry, hok => by
      simp only [linkErrors, List.append_eq_nil_iff] at hok
      unfold link
      cases hresolve : env.resolve object with
      | error e =>
          rw [hresolve] at hok
          cases hok.1
      | ok r =>
          rw [hresolve] at hok
          rcases Environment.methodEntry_ok hok.1 with ⟨_, _, member, _, _, _, _, hentry⟩
          unfold generate hasMissing
          rw [hentry]
          refine Reaches.after (Steady.atLine _) fun _ _ => ?_
          refine Reaches.after (Reaches.noted rfl _ _) fun _ _ => ?_
          refine Reaches.after (Reaches.noted rfl _ _) fun _ _ => ?_
          refine Reaches.after (Steady.emit _) fun _ _ => ?_
          refine (generateReversed_link ctx henv args hok.2).before fun _ _ => ?_
          exact (Steady.pushBase _ _).bind fun _ => (Steady.loadAt _).bind fun _ =>
            Steady.duplicate.bind fun _ => (Steady.emit _).bind fun _ =>
              (Steady.loadAt _).bind fun _ => Steady.emit _
  | .construct pos className args target, hok => by
      simp only [linkErrors, List.append_eq_nil_iff] at hok
      rcases Environment.constructed_ok hok.1 with ⟨table, htable, hconstructed⟩
      rcases henv.bound _ _ htable with ⟨b, hb⟩
      unfold link generate hasMissing
      rw [hconstructed, hb]
      refine Reaches.after (Steady.atLine _) fun _ _ => ?_
      refine Reaches.after (Reaches.noted rfl _ _) fun _ _ => ?_
      refine (generateAll_link ctx henv args hok.2).before fun _ _ => ?_
      exact (Steady.storeOnHeapRepeat _).bind fun _ => (Steady.push _).bind fun _ =>
        (Steady.emit _).bind fun _ => (Steady.emit _).bind fun _ => (Steady.emit _).bind fun _ =>
          (Steady.emit _).bind fun _ => Steady.advanceHeap
  | .ifElse pos condition whenTrue whenFalse, hok => by
      simp only [linkErrors, List.append_eq_nil_iff] at hok
      unfold link generate hasMissing
      rw [Bool.or_assoc, Bool.or_comm whenTrue.hasMissing]
      refine Reaches.after (Steady.atLine _) fun _ _ => ?_
      refine Reaches.after Steady.newLabel fun _ _ => ?_
      refine Reaches.after Steady.newLabel fun _ _ => ?_
      refine Reaches.bind (generate_link ctx henv condition hok.1.1) fun _ _ => ?_
      refine Reaches.after (Steady.push _) fun _ _ => ?_
      refine Reaches.after (Steady.jumpTo _ _) fun _ _ => ?_
      refine Reaches.bind (generate_link ctx henv whenFalse hok.2) fun _ _ => ?_
      refine Reaches.after (Steady.jumpTo _ _) fun _ _ => ?_
      refine Reaches.after (Steady.define _) fun _ _ => ?_
      exact Reaches.before (generate_link ctx henv whenTrue hok.1.2) fun _ _ => Steady.define _
  | .not pos operand, hok => by
      simp only [linkErrors] at hok
      unfold link generate hasMissing
      refine Reaches.after (Steady.atLine _) fun _ _ => ?_
      refine Reaches.before (generate_link ctx henv operand hok) fun _ _ => ?_
      exact (Steady.push _).bind fun _ => Steady.choose _ _ _
  | .binary pos op left right, hok => by
      simp only [linkErrors, List.append_eq_nil_iff] at hok
      unfold link generate hasMissing
      split
      · refine Reaches.after (Steady.atLine _) fun _ _ => ?_
        refine Reaches.after Steady.newLabel fun _ _ => ?_
        refine Reaches.after Steady.newLabel fun _ _ => ?_
        refine Reaches.bind (generate_link ctx henv left hok.1) fun _ _ => ?_
        refine Reaches.after (Steady.push _) fun _ _ => ?_
        refine Reaches.after (Steady.jumpTo _ _) fun _ _ => ?_
        refine Reaches.before (generate_link ctx henv right hok.2) fun _ _ => ?_
        exact (Steady.push _).bind fun _ => (Steady.jumpTo _ _).bind fun _ =>
          (Steady.push _).bind fun _ => (Steady.jumpTo _ _).bind fun _ =>
            (Steady.define _).bind fun _ => (Steady.push _).bind fun _ => Steady.define _
      · refine Reaches.after (Steady.atLine _) fun _ _ => ?_
        refine Reaches.bind (generate_link ctx henv left hok.1) fun _ _ => ?_
        exact Reaches.before (generate_link ctx henv right hok.2) fun _ _ => Steady.finish op
  | .print pos operand, hok => by
      simp only [linkErrors] at hok
      unfold link generate hasMissing
      refine Reaches.after (Steady.atLine _) fun _ _ => ?_
      exact Reaches.before (generate_link ctx henv operand hok) fun _ _ => Steady.emit _
termination_by structural e => e

theorem generateAll_link (ctx : CodeContext) {env : Environment} (henv : env.Regular) :
    ∀ es : List Expr, linkErrorsAll env es = [] →
      (generateAll ctx (linkAll env es)).Reaches (hasMissingAll es) fun _ => True
  | [], _ => Steady.pure ()
  | e :: es, hok => by
      simp only [linkErrorsAll, List.append_eq_nil_iff] at hok
      unfold linkAll generateAll hasMissingAll
      exact Reaches.bind (generate_link ctx henv e hok.1) fun _ _ =>
        generateAll_link ctx henv es hok.2
termination_by structural es => es

theorem generateReversed_link (ctx : CodeContext) {env : Environment} (henv : env.Regular) :
    ∀ es : List Expr, linkErrorsAll env es = [] →
      (generateReversed ctx (linkAll env es)).Reaches (hasMissingAll es) fun _ => True
  | [], _ => Steady.pure ()
  | e :: es, hok => by
      simp only [linkErrorsAll, List.append_eq_nil_iff] at hok
      unfold linkAll generateReversed hasMissingAll
      rw [Bool.or_comm]
      exact Reaches.bind (generateReversed_link ctx henv es hok.2) fun _ _ =>
        generate_link ctx henv e hok.1
termination_by structural es => es

end

end Expr

/-!
# Known tables
-/

namespace DeclGen

/-- What `Gen.Reaches` says, with the dispatch tables known before and after. -/
def Reaches {α : Type} (g : DeclGen α) (known : DispatchLabels) (missing : Bool)
    (holds : α → DispatchLabels → Prop) : Prop :=
  (g.run known).Reaches missing fun r => holds r.1 r.2

namespace Reaches

variable {α β : Type} {g : DeclGen α} {f : α → DeclGen β} {known : DispatchLabels} {a b : Bool}
  {P : α → DispatchLabels → Prop} {Q : β → DispatchLabels → Prop}

theorem bind (h : Reaches g known a P)
    (h' : ∀ x known', P x known' → Reaches (f x) known' b Q) :
    Reaches (g >>= f) known (a || b) Q := by
  unfold Reaches
  rw [StateT.run_bind]
  exact Gen.Reaches.bind h fun r hr => h' r.1 r.2 hr

theorem before (h : Reaches g known a P)
    (h' : ∀ x known', P x known' → Reaches (f x) known' false Q) :
    Reaches (g >>= f) known a Q := by
  have hbind := bind h h'
  rwa [Bool.or_false] at hbind

theorem pure {x : α} (hx : P x known) : Reaches (Pure.pure x : DeclGen α) known false P :=
  Gen.Reaches.pure hx

theorem lift {g : Gen α} {P : α → Prop} (h : g.Reaches a P) :
    Reaches (liftM g : DeclGen α) known a fun x known' => P x ∧ known' = known :=
  Gen.Reaches.before (f := fun x => Pure.pure (x, known)) h fun _ hx => Gen.Reaches.pure ⟨hx, rfl⟩

theorem get : Reaches get known false fun x known' => x = known ∧ known' = known :=
  Gen.Reaches.pure ⟨rfl, rfl⟩

theorem modify {f : DispatchLabels → DispatchLabels} {P : DispatchLabels → Prop}
    (h : P (f known)) : Reaches (modify f) known false fun _ known' => P known' :=
  Gen.Reaches.pure h

/-- Behind a generator that looks at no parts and does not know of tables. -/
theorem after {g : Gen α} {f : α → DeclGen β} {P : α → Prop} (h : g.Reaches false P)
    (h' : ∀ x, P x → Reaches (f x) known b Q) : Reaches ((liftM g : DeclGen α) >>= f) known b Q :=
  bind (lift h) fun x _ hx => hx.2 ▸ h' x hx.1

end Reaches

end DeclGen

/-- The known tables have a label for each slot of each class. -/
def FitTables (known : DispatchLabels) (classes : ClassTables) : Prop :=
  ∀ name table, classes.find? name = some table →
    ∃ labels, known.find? name = some labels ∧ labels.length = table.dispatch.length

theorem FitTables.start : FitTables NameMap.empty Environment.start.classes :=
  fun _ _ hfind => nomatch hfind

theorem FitTables.insert {known : DispatchLabels} {classes : ClassTables}
    (h : FitTables known classes) (name : String) {labels : List String} {table : MemberTable}
    (hlength : labels.length = table.dispatch.length) :
    FitTables (known.insert name labels) (classes.insert name table) := by
  intro other table' hfind
  rw [NameMap.find?_insert] at hfind ⊢
  split at hfind
  · rename_i hname
    cases hfind
    exact ⟨labels, by rw [if_pos hname], hlength⟩
  · rename_i hname
    rw [if_neg hname]
    exact h other table' hfind

/-- A table starts with a label for each inherited slot. -/
theorem FitTables.inherited {known : DispatchLabels} {env : Environment}
    (h : FitTables known env.classes) {header linked : ClassHeader} {table : MemberTable}
    (hsuper : linked.super = header.super) (hinherits : env.inherited header = .ok table) :
    (linked.inheritedLabels known).length = table.dispatch.length := by
  unfold Environment.inherited at hinherits
  unfold ClassHeader.inheritedLabels
  rw [hsuper]
  split at hinherits
  · rename_i hnone
    cases hinherits
    rw [hnone]
    rfl
  · rename_i super hsome
    rw [hsome]
    split at hinherits
    · rename_i above hfind
      cases hinherits
      rcases h super.name _ hfind with ⟨labels, hlabels, hlength⟩
      rw [Option.bind_some, hlabels]
      exact hlength
    · cases hinherits

/-- A slot of a table, or the one behind its end, can be filled. -/
theorem fillSlot?_putAt {labels : List String} {slot : Nat} (h : slot ≤ labels.length)
    (label : String) : fillSlot? labels slot label = some (putAt labels slot label) := by
  unfold fillSlot? putAt
  by_cases hlt : slot < labels.length
  · simp only [hlt, if_true]
  · have heq : slot = labels.length := by omega
    rw [if_neg hlt, if_neg hlt, if_pos heq]

namespace Environment

/-- The members of a class are entered into the inherited table, first the fields. -/
theorem plan_methods {env : Environment} {header : ClassHeader} {methods : List Method}
    (hok : header.linkErrors env methods = []) {inherited : MemberTable}
    (hinherits : env.inherited header = .ok inherited) {names : List String}
    (hnamed : inherited.Named names) :
    ∃ scan : MemberScan, (∃ names, scan.table.Named names) ∧
      scan.table.dispatch = inherited.dispatch ∧
      (env.plan header methods).methodPlaces =
        (MemberScan.enterMethods header.id.name scan methods).2 ∧
      (env.plan header methods).table =
        (MemberScan.enterMethods header.id.name scan methods).1.table := by
  simp only [ClassHeader.linkErrors, List.append_eq_nil_iff] at hok
  have hplan : (env.plan header methods).fieldPlaces =
      (MemberScan.enterFields header.id.name (MemberScan.startingFrom inherited)
        header.fields).2 := by
    simp only [plan, hinherits]
  have hplaced : AllPlaced (MemberScan.enterFields header.id.name
      (MemberScan.startingFrom inherited) header.fields).2 := by
    rw [← hplan]
    refine allPlaced_of_fieldErrors hok.1.1.2 ?_
    rw [hplan]
    exact MemberScan.length_enterFields _ _ _
  have hfields := MemberScan.enterFields_placed _ _ (MemberScan.startingFrom inherited) hnamed
    hplaced
  refine ⟨_, ⟨_, hfields.named⟩, hfields.dispatch, ?_, ?_⟩ <;> simp only [plan, hinherits]

end Environment

/-!
# Declarations inside bodies
-/

section

open Gen

/-- A function gets a label whatever its body is. -/
theorem Decl.generate_function {ctx : CodeContext} {known : DispatchLabels} {header : Header}
    {body : Body} (binding : Option Binding) {missing : Bool}
    (h : ∀ label, DeclGen.Reaches (body.generate ctx label header.params.length) known missing
      fun _ known' => known' = known) :
    DeclGen.Reaches ((Decl.function header body binding).generate ctx) known missing
      fun _ known' => known' = known := by
  unfold Decl.generate
  refine DeclGen.Reaches.after (Steady.atLine _) fun _ _ => ?_
  refine DeclGen.Reaches.after Steady.newFunction fun label _ => ?_
  refine DeclGen.Reaches.before (h label) fun _ known' hsame => ?_
  exact (DeclGen.Reaches.lift (Steady.pushLabel label)).imp fun _ hlift => hlift.2.trans hsame

theorem Decl.generate_var {ctx : CodeContext} {known : DispatchLabels} (pos : Position) (id : Ident)
    (ty : TypeRef) {init : Expr} (binding : Option Binding) {missing : Bool}
    (h : (init.generate ctx).Reaches missing fun _ => True) :
    DeclGen.Reaches ((Decl.var pos id ty init binding).generate ctx) known missing
      fun _ known' => known' = known := by
  unfold Decl.generate
  refine DeclGen.Reaches.after (Steady.atLine _) fun _ _ => ?_
  exact (DeclGen.Reaches.lift h).imp fun _ hlift => hlift.2

mutual

/-- Inside a body no class is declared, so the known tables stay as they are. -/
theorem Decl.generate_nested (ctx : CodeContext) (known : DispatchLabels) {env : Environment}
    (henv : env.Regular) (hnested : env.Nested) :
    ∀ d : Decl, d.linkErrors env = [] →
      DeclGen.Reaches ((d.link env).generate ctx) known d.hasMissing fun _ known' => known' = known
  | .var pos id ty init binding, hok => by
      simp only [Decl.linkErrors, List.append_eq_nil_iff] at hok
      unfold Decl.link Decl.hasMissing
      exact Decl.generate_var pos id ty _ (init.generate_link ctx henv hok.1.1)
  | .function header body binding, hok => by
      simp only [Decl.linkErrors, List.append_eq_nil_iff] at hok
      unfold Decl.link Decl.hasMissing
      have hinner := henv.add hok.1.1.2
      exact Decl.generate_function _ fun label => Body.generate_link ctx label _ known
        (hinner.enter hok.1.2) (Environment.nested_enter hinner.scopes_ne_nil _) body hok.2
  | .classDef header methods, hok => by
      simp [Decl.linkErrors, hnested.level] at hok
termination_by structural d => d

theorem Body.generate_link (ctx : CodeContext) (label : String) (params : Nat)
    (known : DispatchLabels) {env : Environment} (henv : env.Regular) (hnested : env.Nested) :
    ∀ b : Body, b.linkErrors env = [] →
      DeclGen.Reaches ((b.link env).generate ctx label params) known b.hasMissing fun _ known' =>
        known' = known
  | ⟨locals, result⟩, hok => by
      simp only [Body.linkErrors, List.append_eq_nil_iff] at hok
      unfold Body.link Body.generate Body.hasMissing
      refine DeclGen.Reaches.after (Steady.prologue label) fun _ _ => ?_
      refine DeclGen.Reaches.bind (Decl.generateAll_nested ctx known henv hnested locals hok.1) ?_
      rintro _ _ rfl
      refine DeclGen.Reaches.before (DeclGen.Reaches.lift
        (result.generate_link ctx (henv.afterAll locals hok.1) hok.2)) fun _ _ h => ?_
      rw [h.2]
      exact (DeclGen.Reaches.lift (Steady.epilogue _ _)).imp fun _ h' => h'.2
termination_by structural b => b

theorem Decl.generateAll_nested (ctx : CodeContext) (known : DispatchLabels) {env : Environment}
    (henv : env.Regular) (hnested : env.Nested) :
    ∀ ds : List Decl, Decl.linkErrorsAll env ds = [] →
      DeclGen.Reaches (Decl.generateAll ctx (Decl.linkAll env ds)) known (Decl.hasMissingAll ds)
        fun _ known' => known' = known
  | [], _ => DeclGen.Reaches.pure rfl
  | d :: ds, hok => by
      simp only [Decl.linkErrorsAll, List.append_eq_nil_iff] at hok
      unfold Decl.linkAll Decl.generateAll Decl.hasMissingAll
      refine DeclGen.Reaches.bind (Decl.generate_nested ctx known henv hnested d hok.1) ?_
      rintro _ _ rfl
      exact Decl.generateAll_nested ctx _ (henv.after hok.1) (hnested.after d) ds hok.2
termination_by structural ds => ds

end

/-!
# Classes
-/

/-- A method that is given a slot puts its label there. -/
theorem Method.generate_link (ctx : CodeContext) (className : String) (known : DispatchLabels)
    {env : Environment} (henv : env.Regular) {labels : List String} {s : Nat}
    (hs : s ≤ labels.length) (m : Method) (hok : m.linkErrors env = []) :
    DeclGen.Reaches ((m.link env (some s)).generate ctx className labels) known m.hasMissing
      fun labels' known' => (∃ label, labels' = putAt labels s label) ∧ known' = known := by
  rcases m with ⟨header, body, slot⟩
  simp only [Method.linkErrors, List.append_eq_nil_iff] at hok
  unfold Method.link Method.generate Method.hasMissing
  refine DeclGen.Reaches.after (Reaches.noted rfl _ _) fun slot hslot => ?_
  subst hslot
  refine DeclGen.Reaches.after Steady.newFunction fun label _ => ?_
  refine DeclGen.Reaches.before (Body.generate_link ctx label _ known (henv.enter hok.1)
    (Environment.nested_enter henv.scopes_ne_nil _) body hok.2) fun _ _ hsame => ?_
  exact (DeclGen.Reaches.lift (Reaches.noted (fillSlot?_putAt hs label) _ _)).imp fun _ h =>
    ⟨⟨label, h.1⟩, h.2.trans hsame⟩

/-- The methods fill the slots that they are given, one after the other. -/
theorem Method.generateAll_link (ctx : CodeContext) (className : String) (known : DispatchLabels)
    {env : Environment} (henv : env.Regular) (ms : List Method) {scan : MemberScan}
    {names : List String} (hnamed : scan.table.Named names) {labels : List String}
    (hlabels : labels.length = scan.table.dispatch.length)
    (hplaced : AllPlaced (MemberScan.enterMethods className scan ms).2)
    (hok : Method.linkErrorsAll env ms = []) :
    DeclGen.Reaches (Method.generateAll ctx className labels
        (Method.linkAll env (MemberScan.enterMethods className scan ms).2 ms))
      known (Method.hasMissingAll ms) fun labels' known' =>
        labels'.length = (MemberScan.enterMethods className scan ms).1.table.dispatch.length ∧
          known' = known := by
  induction ms generalizing scan labels with
  | nil => exact DeclGen.Reaches.pure ⟨hlabels, rfl⟩
  | cons m ms ih =>
      simp only [Method.linkErrorsAll, List.append_eq_nil_iff] at hok
      simp only [MemberScan.enterMethods] at hplaced ⊢
      generalize hfirst : scan.enter className m.header.id
        (fun table => table.addMethod m.header.id.name m.header.signature) = first at hplaced ⊢
      rcases first with ⟨scan', place⟩
      rcases hplaced place List.mem_cons_self with ⟨s, rfl⟩
      rcases MemberScan.enter_ok hfirst with ⟨_, _, hadd⟩
      rcases hnamed.addMethod hadd with ⟨hs, _, _, hdispatch, _, hnamed'⟩
      unfold Method.linkAll Method.generateAll Method.hasMissingAll
      refine DeclGen.Reaches.bind
        (Method.generate_link ctx className known henv (hlabels ▸ hs) m hok.1) ?_
      rintro _ _ ⟨⟨label, rfl⟩, rfl⟩
      have hlabels' : (putAt labels s label).length = scan'.table.dispatch.length := by
        rw [hdispatch, length_putAt, length_putAt, hlabels]
      exact ih hnamed' hlabels' (fun p hp => hplaced p (List.mem_cons_of_mem _ hp)) hok.2

/-!
# Declarations at top level
-/

theorem Decl.generate_link (ctx : CodeContext) {known : DispatchLabels} {env : Environment}
    (htop : env.AtTop) (hknown : FitTables known env.classes) (d : Decl)
    (hok : d.linkErrors env = []) :
    DeclGen.Reaches ((d.link env).generate ctx) known d.hasMissing fun _ known' =>
      FitTables known' (env.after d).classes := by
  have henv := Environment.Regular.of_atTop htop
  cases d with
  | var pos id ty init binding =>
      simp only [Decl.linkErrors, List.append_eq_nil_iff] at hok
      unfold Decl.link Decl.hasMissing
      exact (Decl.generate_var pos id ty _ (init.generate_link ctx henv hok.1.1)).imp fun _ hsame =>
        hsame ▸ hknown
  | function header body binding =>
      simp only [Decl.linkErrors, List.append_eq_nil_iff] at hok
      unfold Decl.link Decl.hasMissing
      have hinner := henv.add hok.1.1.2
      exact (Decl.generate_function _ fun label => Body.generate_link ctx label _ known
        (hinner.enter hok.1.2) (Environment.nested_enter hinner.scopes_ne_nil _) body hok.2).imp
          fun _ hsame => hsame ▸ hknown
  | classDef header methods =>
      simp only [Decl.linkErrors, htop.level, if_true, List.append_eq_nil_iff] at hok
      rcases declared_of_linkErrors hok.1 with ⟨inherited, entered, hclass⟩
      rcases htop.named_inherited hclass.inherits with ⟨names, hnamed⟩
      rcases Environment.plan_methods hok.1 hclass.inherits hnamed with
        ⟨scan, ⟨_, hscan⟩, hdispatch, hplaces, htable⟩
      rcases htop.scopes with ⟨scope, hs⟩
      rcases Environment.addClass_scopes hs hclass.name with ⟨_, _, hclasses, _⟩
      have hlabels : ((header.link env (env.plan header methods)).inheritedLabels known).length =
          scan.table.dispatch.length := by
        rw [hdispatch]
        exact hknown.inherited rfl hclass.inherits
      have hmethods := Method.generateAll_link { ctx with insideClass := true } header.id.name known
        (Environment.Regular.insideClass htop hok.1) methods hscan hlabels
        (hplaces ▸ hclass.methodsAllPlaced) hok.2
      rw [← hplaces, ← htable] at hmethods
      simp only [Decl.link, htop.level, if_true, Environment.after, hclasses]
      unfold Decl.generate Decl.hasMissing
      refine DeclGen.Reaches.after (Steady.atLine _) fun _ _ => ?_
      refine DeclGen.Reaches.after (Reaches.noted rfl _ _) fun layout hlayout => ?_
      refine DeclGen.Reaches.bind (a := false) DeclGen.Reaches.get ?_
      rintro _ _ ⟨rfl, rfl⟩
      refine DeclGen.Reaches.before hmethods ?_
      rintro labels _ ⟨hlength, rfl⟩
      have hcount : labels.length = layout.methods.length := by
        rw [hlength, hlayout, MemberTable.layout, List.length_map]
      split
      · rename_i hne
        exact absurd hcount hne
      · refine DeclGen.Reaches.after (Steady.atLine _) fun _ _ => ?_
        refine DeclGen.Reaches.after (Steady.emit _) fun _ _ => ?_
        refine DeclGen.Reaches.after (Steady.storeLabels labels) fun _ _ => ?_
        exact DeclGen.Reaches.modify (hknown.insert _ hlength)

theorem Decl.generateAll_link (ctx : CodeContext) (ds : List Decl) {known : DispatchLabels}
    {env : Environment} (htop : env.AtTop) (hknown : FitTables known env.classes)
    (hok : Decl.linkErrorsAll env ds = []) :
    DeclGen.Reaches (Decl.generateAll ctx (Decl.linkAll env ds)) known (Decl.hasMissingAll ds)
      fun _ known' => FitTables known' (env.afterAll ds).classes := by
  induction ds generalizing known env with
  | nil => exact DeclGen.Reaches.pure hknown
  | cons d ds ih =>
      simp only [Decl.linkErrorsAll, List.append_eq_nil_iff] at hok
      unfold Decl.linkAll Decl.generateAll Decl.hasMissingAll
      exact DeclGen.Reaches.bind (Decl.generate_link ctx htop hknown d hok.1) fun _ _ hfit =>
        ih (htop.after hok.1) hfit hok.2

end

/-!
# Programs
-/

namespace Program

open Gen

theorem generateAll_link {p : Program} (hlinks : p.link.errors = []) (ctx : CodeContext) :
    DeclGen.Reaches (p.link.program.generateAll ctx) NameMap.empty p.hasMissing
      fun _ _ => True := by
  simp only [link, List.append_eq_nil_iff] at hlinks
  have htop := Environment.atTop_start
  have hbody := p.body.generate_link ctx
    ((Environment.Regular.of_atTop htop).afterAll p.decls hlinks.1) hlinks.2
  have hend : ∀ known, DeclGen.Reaches (do
      (p.link.program.body.generate ctx : Gen Unit)
      Gen.emit .halt) known p.body.hasMissing fun _ _ => True :=
    fun known => (DeclGen.Reaches.lift hbody).before fun _ _ _ =>
      (DeclGen.Reaches.lift (Steady.emit _)).imp fun _ _ => True.intro
  unfold generateAll hasMissing
  cases hdecls : p.decls with
  | nil =>
      have hnone : p.link.program.hasDeclarations = false := by
        simp [hasDeclarations, link, hdecls, Decl.linkAll]
      simp only [hnone, Bool.false_eq_true, if_false]
      exact hend _
  | cons d ds =>
      have hsome : p.link.program.hasDeclarations = true := by
        simp [hasDeclarations, link, hdecls, Decl.linkAll]
      have hfirst := Decl.generateAll_link ctx p.decls htop FitTables.start hlinks.1
      rw [hsome, if_pos rfl, ← hdecls]
      exact DeclGen.Reaches.after (Steady.push 0) fun _ _ =>
        DeclGen.Reaches.bind hfirst fun _ known _ => hend known

/-- The code of a program that was linked without errors is generated unless a part is missing. -/
theorem generate_link {p : Program} (hlinks : p.link.errors = []) (memorySize : Int32) :
    (p.hasMissing = false ∧ ∃ listing, p.link.program.generate memorySize = .ok listing) ∨
      (p.hasMissing = true ∧ ∃ pos,
        p.link.program.generate memorySize = .error { pos, cause := .incompleteTree }) := by
  unfold generate
  rcases generateAll_link hlinks (context memorySize) Emitter.empty with
    ⟨hmissing, r, e, hrun, _⟩ | ⟨hmissing, pos, hrun⟩
  · rw [context] at hrun
    exact Or.inl ⟨hmissing, e.listing, by simp only [hrun]; rfl⟩
  · rw [context] at hrun
    exact Or.inr ⟨hmissing, pos, by simp only [hrun]; rfl⟩

end Program

end ClassLet
