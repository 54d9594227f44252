import ClassLet.Generation
import ClassLet.Proofs.Generation.CompleteTrees
import ClassLet.Proofs.Generation.EmittedBodies
import ClassLet.Proofs.Generation.SourceLines

/-!
# The code of declarations

What generation makes of declarations is told by relations between the tree and its code: the code
of a declaration stands in the stream of the place, and the bodies that it refers to are somewhere
else, as routines that a predicate accounts for. A class also extends the known dispatch tables.

Main statements: `Decl.generate_compiled`, `Body.generate_compiled` and their companions for lists.
-/

namespace ClassLet

/-!
# Known dispatch tables
-/

/-- All labels in the dispatch tables. -/
def allLabels (known : DispatchLabels) : List String :=
  known.entries.flatMap Prod.snd

theorem mem_of_lookup {α : Type} {entries : List (String × α)} {name : String} {a : α}
    (h : entries.lookup name = some a) : (name, a) ∈ entries := by
  induction entries with
  | nil => cases h
  | cons e entries ih =>
      rcases e with ⟨k, v⟩
      rw [List.lookup_cons] at h
      by_cases hk : name = k
      · subst hk
        simp only [BEq.rfl, Option.some.injEq] at h
        exact h ▸ List.mem_cons_self
      · have hne : (name == k) = false := by simpa using hk
        rw [hne] at h
        exact List.mem_cons_of_mem _ (ih h)

theorem inheritedLabels_subset (header : ClassHeader) (known : DispatchLabels) :
    header.inheritedLabels known ⊆ allLabels known := by
  intro label hlabel
  unfold ClassHeader.inheritedLabels at hlabel
  cases hfind : header.super.bind fun super => known.find? super.name with
  | none =>
      rw [hfind] at hlabel
      cases hlabel
  | some labels =>
      rw [hfind] at hlabel
      rcases Option.bind_eq_some_iff.mp hfind with ⟨super, _, hlookup⟩
      exact List.mem_flatMap.mpr ⟨_, mem_of_lookup hlookup, hlabel⟩

theorem allLabels_insert (known : DispatchLabels) (name : String) (labels : List String) :
    allLabels (known.insert name labels) ⊆ allLabels known ++ labels := by
  have hoverwrite : ∀ entries : List (String × List String),
      (NameMap.overwrite name labels entries).flatMap Prod.snd ⊆
        entries.flatMap Prod.snd ++ labels := by
    intro entries
    induction entries with
    | nil => simp [NameMap.overwrite]
    | cons e entries ih =>
        rcases e with ⟨k, v⟩
        intro label hlabel
        have hrest := @ih label
        unfold NameMap.overwrite at hlabel
        split at hlabel
        · simp only [List.flatMap_cons, List.mem_append] at hlabel ⊢
          grind
        · simp only [List.flatMap_cons, List.mem_append] at hlabel hrest ⊢
          grind
  exact hoverwrite known.entries

theorem fillSlot?_subset {labels labels' : List String} {slot : Nat} {label : String}
    (h : fillSlot? labels slot label = some labels') : labels' ⊆ labels ++ [label] := by
  unfold fillSlot? at h
  split at h
  · cases h
    intro x hx
    rcases List.mem_or_eq_of_mem_set hx with hx | rfl
    · exact List.mem_append_left _ hx
    · exact List.mem_append_right _ List.mem_cons_self
  · split at h
    · cases h
      exact List.Subset.refl _
    · cases h

/-!
# Numbers of bodies

Bodies are numbered in the order in which their generation begins, which is the order of the
headers in the program.
-/

mutual

/-- How many functions and methods there are in a declaration. -/
def Decl.bodyCount : Decl → Nat
  | .var .. => 0
  | .function _ body _ => body.bodyCount + 1
  | .classDef _ methods => Method.bodyCountAll methods

def Body.bodyCount : Body → Nat
  | ⟨locals, _⟩ => Decl.bodyCountAll locals

def Method.bodyCount : Method → Nat
  | ⟨_, body, _⟩ => body.bodyCount + 1

def Decl.bodyCountAll : List Decl → Nat
  | [] => 0
  | d :: ds => d.bodyCount + Decl.bodyCountAll ds

def Method.bodyCountAll : List Method → Nat
  | [] => 0
  | m :: ms => m.bodyCount + Method.bodyCountAll ms

end

/-!
# Trees and their code
-/

section

variable (has : List Item → Prop)

mutual

/-- The items are code of the declaration, and its bodies are among the routines there are. The
number is that of the first body. -/
def Decl.Compiled (ctx : CodeContext) (k : Nat) (known known' : DispatchLabels) :
    Decl → List Item → Prop
  | .var _ _ _ init _, items => known' = known ∧ init.Complete ∧ ∃ n, items = init.code ctx n
  | .function header body _, items =>
      items = [.pushLabel (functionText k)] ∧
        body.Compiled ctx (k + 1) known known' (functionText k) header.params.length
  | .classDef header methods, items =>
      ∃ layout known₁ labels, header.layout = some layout ∧
        labels.length = layout.methods.length ∧
        Method.CompiledAll { ctx with insideClass := true } k known known₁
          (header.inheritedLabels known) labels methods ∧
        known' = known₁.insert header.id.name labels ∧
        items = .bare .pushHp :: Code.storeLabels labels
termination_by structural d => d

/-- There is a routine under the label for the body. -/
def Body.Compiled (ctx : CodeContext) (k : Nat) (known known' : DispatchLabels) (label : String)
    (params : Nat) : Body → Prop
  | ⟨locals, result⟩ =>
      ∃ items n, Decl.CompiledAll ctx k known known' locals items ∧ result.Complete ∧
        has (Code.routine label locals.length params (items ++ result.code ctx n))
termination_by structural b => b

/-- There is a routine for the method, and the second table has its label in the slot. -/
def Method.Compiled (ctx : CodeContext) (k : Nat) (known known' : DispatchLabels)
    (labels labels' : List String) : Method → Prop
  | ⟨header, body, slot⟩ =>
      ∃ s, slot = some s ∧ fillSlot? labels s (functionText k) = some labels' ∧
        body.Compiled ctx (k + 1) known known' (functionText k) header.params.length
termination_by structural m => m

def Decl.CompiledAll (ctx : CodeContext) (k : Nat) (known known' : DispatchLabels) :
    List Decl → List Item → Prop
  | [], items => known' = known ∧ items = []
  | d :: ds, items =>
      ∃ known₁ xs ys, items = xs ++ ys ∧ d.Compiled ctx k known known₁ xs ∧
        Decl.CompiledAll ctx (k + d.bodyCount) known₁ known' ds ys
termination_by structural ds => ds

def Method.CompiledAll (ctx : CodeContext) (k : Nat) (known known' : DispatchLabels)
    (labels labels' : List String) : List Method → Prop
  | [] => known' = known ∧ labels' = labels
  | m :: ms =>
      ∃ known₁ labels₁, m.Compiled ctx k known known₁ labels labels₁ ∧
        Method.CompiledAll ctx (k + m.bodyCount) known₁ known' labels₁ labels' ms
termination_by structural ms => ms

end

end

/-!
# Runs of generators
-/

namespace DeclGen

theorem bind_ok {α β : Type} {g : DeclGen α} {f : α → DeclGen β} {known known' : DispatchLabels}
    {e e' : Emitter} {b : β} (h : ((g >>= f).run known).run e = .ok ((b, known'), e')) :
    ∃ a known₁ e₁, (g.run known).run e = .ok ((a, known₁), e₁) ∧
      ((f a).run known₁).run e₁ = .ok ((b, known'), e') := by
  rw [StateT.run_bind] at h
  rcases Gen.bind_ok h with ⟨⟨a, known₁⟩, e₁, hg, hf⟩
  exact ⟨a, known₁, e₁, hg, hf⟩

theorem lift_ok {α : Type} {g : Gen α} {known known' : DispatchLabels} {e e' : Emitter} {a : α}
    (h : ((liftM g : DeclGen α).run known).run e = .ok ((a, known'), e')) :
    known' = known ∧ g.run e = .ok (a, e') := by
  have hlift : (liftM g : DeclGen α).run known = g >>= fun a => pure (a, known) := rfl
  rw [hlift] at h
  rcases Gen.bind_ok h with ⟨a', e₁, hg, hpure⟩
  cases hpure
  exact ⟨rfl, hg⟩

theorem lift_bind_ok {α β : Type} {g : Gen α} {f : α → DeclGen β} {known known' : DispatchLabels}
    {e e' : Emitter} {b : β}
    (h : (((liftM g : DeclGen α) >>= f).run known).run e = .ok ((b, known'), e')) :
    ∃ a e₁, g.run e = .ok (a, e₁) ∧ ((f a).run known).run e₁ = .ok ((b, known'), e') := by
  rcases bind_ok h with ⟨a, known₁, e₁, hlift, hf⟩
  rcases lift_ok hlift with ⟨rfl, hg⟩
  exact ⟨a, e₁, hg, hf⟩

end DeclGen

namespace Gen

theorem noted_ok {α : Type} {note : Option α} {pos : Position} {cause : CodeFault}
    {e e' : Emitter} {a : α} (h : (Gen.noted note pos cause).run e = .ok (a, e')) :
    note = some a ∧ e' = e := by
  cases note with
  | none => cases h
  | some a' =>
      cases h
      exact ⟨rfl, rfl⟩

theorem prologue_ok {label : String} {e e' : Emitter} {a : Unit}
    (h : (Gen.prologue label).run e = .ok (a, e')) :
    (e.openBody label).Added e' [.bare .setFp, .bare .pushRa] 0 := by
  rcases Gen.bind_ok h with ⟨_, e₁, hopen, hrest⟩
  cases hopen
  have hwrites : Writes (do emit .setFp; emit .pushRa) e.labelCount ()
      [.bare .setFp, .bare .pushRa] 0 :=
    Writes.rewritten (Writes.bind (Writes.emit .setFp) (Writes.emit .pushRa)) rfl rfl
  exact (hwrites (e.openBody label) e' a rfl hrest).2

theorem epilogue_ok {locals params : Nat} {e e' : Emitter} {a : Unit}
    (h : (Gen.epilogue locals params).run e = .ok (a, e')) :
    ∃ e₁, e.Added e₁ (Code.epilogue locals params) 0 ∧ e' = e₁.closeBody := by
  unfold epilogue at h
  rcases Gen.bind_ok h with ⟨_, e₁, h₁, h⟩
  rcases Gen.bind_ok h with ⟨_, e₂, h₂, h⟩
  rcases Gen.bind_ok h with ⟨_, e₃, h₃, h⟩
  rcases Gen.bind_ok h with ⟨_, e₄, h₄, h⟩
  rcases Gen.bind_ok h with ⟨_, e₅, h₅, h⟩
  rcases Gen.bind_ok h with ⟨_, e₆, h₆, h⟩
  rcases Gen.bind_ok h with ⟨_, e₇, h₇, h⟩
  rcases Gen.bind_ok h with ⟨_, e₈, h₈, h⟩
  rcases Gen.bind_ok h with ⟨_, e₉, h₉, h⟩
  cases h
  have h₁ := (Writes.emit .popTm _ _ _ rfl h₁).2
  have h₂ := (Writes.emitTimes .pop locals _ _ _ rfl h₂).2
  have h₃ := (Writes.emit .popRa _ _ _ rfl h₃).2
  have h₄ := (Writes.emit .pop _ _ _ rfl h₄).2
  have h₅ := (Writes.emitTimes .pop params _ _ _ rfl h₅).2
  have h₆ := (Writes.emit .popFp _ _ _ rfl h₆).2
  have h₇ := (Writes.emit .pushTm _ _ _ rfl h₇).2
  have h₈ := (Writes.emit .pushRa _ _ _ rfl h₈).2
  have h₉ := (Writes.emit .call _ _ _ rfl h₉).2
  refine ⟨e₉, ?_, rfl⟩
  have hall := h₁.trans (h₂.trans (h₃.trans (h₄.trans (h₅.trans (h₆.trans (h₇.trans
    (h₈.trans h₉)))))))
  simpa [Code.epilogue, Code.dropFrame] using hall

theorem storeLabels_writes (labels : List String) (n : Nat) :
    (Gen.storeLabels labels).Writes n () (Code.storeLabels labels) 0 := by
  induction labels with
  | nil => exact Writes.pure ()
  | cons label labels ih =>
      unfold Gen.storeLabels
      exact Writes.rewritten (Writes.bind (Writes.pushLabel label)
        (Writes.bind Writes.storeOnHeap ih)) rfl rfl

end Gen

/-!
# Generated code
-/

/-- What a run of a generator writes, with the dispatch tables known before and after it. -/
structure Generated (known known' : DispatchLabels) (e e' : Emitter) (items : List Item)
    (bodies : List (List Item)) (count : Nat) : Prop where
  written : Emitter.Written (allLabels known) e e' items bodies
  labels : allLabels known' ⊆ labelNames (items ++ bodies.flatten) ++ allLabels known
  count : e'.functionCount = e.functionCount + count

namespace Generated

variable {known known' known'' : DispatchLabels} {e e' e'' : Emitter} {xs ys : List Item}
  {bodies bodies' : List (List Item)} {m n : Nat}

theorem of_written (h : Emitter.Written (allLabels known) e e' xs bodies)
    (hcount : e'.functionCount = e.functionCount) : Generated known known e e' xs bodies 0 where
  written := h
  labels := List.subset_append_right _ _
  count := hcount

theorem refl (known : DispatchLabels) (e : Emitter) : Generated known known e e [] [] 0 :=
  of_written (Emitter.Written.refl _ e) rfl

theorem trans (h : Generated known known' e e' xs bodies m)
    (h' : Generated known' known'' e' e'' ys bodies' n) :
    Generated known known'' e e'' (xs ++ ys) (bodies ++ bodies') (m + n) where
  written := h.written.trans h'.written h.labels
  labels := by
    intro label hlabel
    have hsecond := h'.labels hlabel
    have hfirst : label ∈ allLabels known' → _ := fun hmem => h.labels hmem
    simp only [labelNames_append, List.flatten_append, List.mem_append] at hsecond hfirst ⊢
    grind
  count := by
    rw [h'.count, h.count, Nat.add_assoc]

theorem unlabelled (h : e.Added e' xs 0) (hnames : labelNames xs = [])
    (huses : Uses (allLabels known) xs) (hforward : JumpsForward xs) :
    Generated known known e e' xs [] 0 :=
  of_written (h.written_unlabelled hnames huses hforward) h.functionCount

theorem atLine (known : DispatchLabels) {line : Nat} {a : Unit}
    (h : (Gen.atLine line).run e = .ok (a, e')) :
    Generated known known e e' [] [] 0 :=
  unlabelled (Gen.Writes.atLine line _ _ _ rfl h).2 rfl Uses.nil JumpsForward.nil

theorem expr (known : DispatchLabels) {expr : Expr} {ctx : CodeContext} {a : Unit}
    (h : (expr.generate ctx).run e = .ok (a, e')) :
    expr.Complete ∧ Generated known known e e' (expr.code ctx e.labelCount) [] 0 := by
  have hadded := (expr.generate_writes ctx e.labelCount e e' a rfl h).2
  exact ⟨expr.generate_complete ctx e _ h, of_written hadded.written_expr hadded.functionCount⟩

end Generated

/-- The items and bodies are there for the code of something. -/
def Generated.Yields (known known' : DispatchLabels) (e e' : Emitter) (count : Nat)
    (compiled : (List Item → Prop) → List Item → Prop) : Prop :=
  ∃ items bodies, Generated known known' e e' items bodies count ∧
    ∀ has : List Item → Prop, (∀ segment ∈ bodies, has segment) → compiled has items

/-- The bodies are there for the routines of something that adds no items. -/
def Generated.YieldsBodies (known known' : DispatchLabels) (e e' : Emitter) (count : Nat)
    (compiled : (List Item → Prop) → Prop) : Prop :=
  ∃ bodies, Generated known known' e e' [] bodies count ∧
    ∀ has : List Item → Prop, (∀ segment ∈ bodies, has segment) → compiled has

/-- The routine of a body defines the label of the body. -/
theorem Body.Compiled.label_mem {bodies : List (List Item)} {ctx : CodeContext} {k : Nat}
    {known known' : DispatchLabels} {label : String} {params : Nat} {b : Body}
    (h : b.Compiled (fun segment => segment ∈ bodies) ctx k known known' label params) :
    label ∈ labelNames bodies.flatten := by
  rcases b with ⟨locals, result⟩
  unfold Body.Compiled at h
  rcases h with ⟨items, n, _, _, hmem⟩
  have hlabel : label ∈ labelNames (Code.routine label locals.length params
      (items ++ result.code ctx n)) := List.mem_cons_self
  unfold labelNames at hlabel ⊢
  rcases List.mem_filterMap.mp hlabel with ⟨item, hitem, hname⟩
  exact List.mem_filterMap.mpr ⟨item, List.mem_flatten.mpr ⟨_, hmem, hitem⟩, hname⟩

theorem Method.CompiledAll.labels_subset {bodies : List (List Item)} {ctx : CodeContext} {k : Nat}
    {known known' : DispatchLabels} {labels labels' : List String} {ms : List Method}
    (h : Method.CompiledAll (fun segment => segment ∈ bodies) ctx k known known' labels labels'
      ms) :
    labels' ⊆ labels ++ labelNames bodies.flatten := by
  induction ms generalizing k known labels with
  | nil =>
      unfold Method.CompiledAll at h
      rw [h.2]
      exact List.subset_append_left _ _
  | cons m ms ih =>
      unfold Method.CompiledAll at h
      rcases h with ⟨known₁, labels₁, hfirst, hrest⟩
      rcases m with ⟨header, body, slot⟩
      unfold Method.Compiled at hfirst
      rcases hfirst with ⟨s, _, hfill, hbody⟩
      intro label hlabel
      rcases List.mem_append.mp (ih hrest hlabel) with hmem | hmem
      · rcases List.mem_append.mp (fillSlot?_subset hfill hmem) with hmem | hmem
        · exact List.mem_append_left _ hmem
        · rw [List.mem_singleton] at hmem
          exact List.mem_append_right _ (hmem ▸ hbody.label_mem)
      · exact List.mem_append_right _ hmem

/-- Code of one address uses its label. -/
theorem Emitter.Added.written_pushLabel {e e' : Emitter} {label : String}
    (h : e.Added e' [.pushLabel label] 0) : Emitter.Written [label] e e' [.pushLabel label] [] :=
  h.written_unlabelled rfl (Uses.cons_iff.mpr ⟨Uses.pushLabel_iff.mpr List.mem_cons_self, Uses.nil⟩)
    (by simp)

/-- The code of a table uses the labels that stand in it. -/
theorem Emitter.Added.written_table {e e' : Emitter} {labels : List String}
    (h : e.Added e' (.bare .pushHp :: Code.storeLabels labels) 0) :
    Emitter.Written labels e e' (.bare .pushHp :: Code.storeLabels labels) [] :=
  h.written_unlabelled (Code.labelNames_storeLabels labels)
    (Uses.cons_iff.mpr ⟨Uses.bare_iff.mpr rfl, Uses.storeLabels (List.Subset.refl _)⟩)
    (JumpsForward.cons_iff.mpr ⟨Item.JumpsInto.bare_iff.mpr rfl, JumpsForward.storeLabels labels⟩)

section

open Generated

mutual

theorem Decl.generate_compiled (ctx : CodeContext) {known known' : DispatchLabels}
    {e e' : Emitter} {a : Unit} :
    ∀ d : Decl, ((d.generate ctx).run known).run e = .ok ((a, known'), e') →
      Yields known known' e e' d.bodyCount fun has items =>
        d.Compiled has ctx e.functionCount known known' items
  | .var pos id ty init binding, hrun => by
      unfold Decl.generate at hrun
      rcases DeclGen.lift_bind_ok hrun with ⟨_, e₁, hline, hrun₁⟩
      rcases DeclGen.lift_ok hrun₁ with ⟨rfl, hinit⟩
      rcases Generated.expr known' hinit with ⟨hcomplete, hgenerated⟩
      refine ⟨_, _, (Generated.atLine _ hline).trans hgenerated, ?_⟩
      intro has _
      unfold Decl.Compiled
      exact ⟨rfl, hcomplete, _, rfl⟩
  | .function header body binding, hrun => by
      unfold Decl.generate at hrun
      rcases DeclGen.lift_bind_ok hrun with ⟨_, e₁, hline, hrun₁⟩
      rcases DeclGen.lift_bind_ok hrun₁ with ⟨label, e₂, hlabel, hrun₂⟩
      cases hlabel
      rcases DeclGen.bind_ok hrun₂ with ⟨_, known₁, e₃, hbody, hrun₃⟩
      rcases DeclGen.lift_ok hrun₃ with ⟨rfl, hpush⟩
      rcases Body.generate_compiled ctx header.params.length body hbody with
        ⟨bodies, hgenerated, hcompiled⟩
      have hlabel := (hcompiled _ fun _ hsegment => hsegment).label_mem
      have hadded := (Gen.Writes.pushLabel _ _ _ _ rfl hpush).2
      have hall := hgenerated.written.trans hadded.written_pushLabel (by
        rw [List.cons_subset]
        exact ⟨List.mem_append_left _ hlabel, List.nil_subset _⟩)
      have hstart := Generated.atLine known hline
      have hfirst : e₁.functionCount = e.functionCount := hstart.count
      refine ⟨_, _, ⟨hstart.written.trans hall hstart.labels, ?_, ?_⟩, ?_⟩
      · simpa using hgenerated.labels
      · rw [hadded.functionCount, hgenerated.count, hfirst]
        rfl
      · intro has hhas
        unfold Decl.Compiled
        rw [← hfirst]
        exact ⟨rfl, hcompiled has (by simpa using hhas)⟩
  | .classDef header methods, hrun => by
      unfold Decl.generate at hrun
      rcases DeclGen.lift_bind_ok hrun with ⟨_, e₁, hline, hrun₁⟩
      rcases DeclGen.lift_bind_ok hrun₁ with ⟨layout, e₂, hnoted, hrun₂⟩
      rcases Gen.noted_ok hnoted with ⟨hlayout, rfl⟩
      rcases DeclGen.bind_ok hrun₂ with ⟨_, _, e₃, hget, hrun₃⟩
      cases hget
      rcases DeclGen.bind_ok hrun₃ with ⟨labels, known₁, e₄, hmethods, hrun₄⟩
      rcases Method.generateAll_compiled { ctx with insideClass := true } header.id.name methods
        hmethods with ⟨bodies, hgenerated, hcompiled⟩
      split at hrun₄
      · rcases DeclGen.bind_ok hrun₄ with ⟨_, _, _, hfail, _⟩
        rcases DeclGen.lift_ok hfail with ⟨_, hfail⟩
        cases hfail
      · rename_i hlength
        rcases DeclGen.lift_bind_ok hrun₄ with ⟨_, e₅, hline', hrun₅⟩
        rcases DeclGen.lift_bind_ok hrun₅ with ⟨_, e₆, hpush, hrun₆⟩
        rcases DeclGen.lift_bind_ok hrun₆ with ⟨_, e₇, hstore, hrun₇⟩
        cases hrun₇
        have hlabels := (hcompiled _ fun _ hsegment => hsegment).labels_subset
        have hpushed := (Gen.Writes.emit .pushHp _ _ _ rfl hpush).2
        have hstored := (Gen.storeLabels_writes labels _ _ _ _ rfl hstore).2
        have htable := (hpushed.trans hstored).written_table
        have hbefore := (Generated.atLine known hline).trans
          (hgenerated.trans (Generated.atLine _ hline'))
        have hsubset : labels ⊆ labelNames bodies.flatten ++ allLabels known := by
          intro label hlabel
          rcases List.mem_append.mp (hlabels hlabel) with hmem | hmem
          · exact List.mem_append_right _ (inheritedLabels_subset header known hmem)
          · exact List.mem_append_left _ hmem
        simp only [List.nil_append, List.append_nil] at hbefore
        have hall := hbefore.written.trans htable hsubset
        have hfirst : e₂.functionCount = e.functionCount := (Generated.atLine known hline).count
        refine ⟨_, _, ⟨hall, ?_, ?_⟩, ?_⟩
        · intro label hlabel
          have hinsert := allLabels_insert known₁ header.id.name labels hlabel
          rcases List.mem_append.mp hinsert with hmem | hmem
          · have hknown := hgenerated.labels hmem
            simp only [List.nil_append, List.append_nil, labelNames_append, List.mem_append]
              at hknown ⊢
            grind
          · have hknown := hsubset hmem
            simp only [List.nil_append, List.append_nil, labelNames_append, List.mem_append]
              at hknown ⊢
            grind
        · rw [(hpushed.trans hstored).functionCount, hbefore.count, Nat.zero_add]
          rfl
        · intro has hhas
          unfold Decl.Compiled
          rw [← hfirst]
          exact ⟨layout, known₁, labels, hlayout, Decidable.not_not.mp hlength,
            hcompiled has (by simpa using hhas), rfl, rfl⟩
termination_by structural d => d

theorem Body.generate_compiled (ctx : CodeContext) {known known' : DispatchLabels}
    {e e' : Emitter} {a : Unit} (params : Nat) :
    ∀ b : Body,
      ((b.generate ctx e.newFunction.1 params).run known).run e.newFunction.2 =
        .ok ((a, known'), e') →
      YieldsBodies known known' e e' (b.bodyCount + 1) fun has =>
        b.Compiled has ctx (e.functionCount + 1) known known' e.newFunction.1 params
  | ⟨locals, result⟩, hrun => by
      unfold Body.generate at hrun
      rcases DeclGen.lift_bind_ok hrun with ⟨_, e₁, hprologue, hrun₁⟩
      rcases DeclGen.bind_ok hrun₁ with ⟨_, known₁, e₂, hlocals, hrun₂⟩
      rcases DeclGen.lift_bind_ok hrun₂ with ⟨_, e₃, hresult, hrun₃⟩
      rcases DeclGen.lift_ok hrun₃ with ⟨rfl, hepilogue⟩
      rcases Gen.epilogue_ok hepilogue with ⟨e₄, hadded, rfl⟩
      rcases Decl.generateAll_compiled ctx locals hlocals with
        ⟨items, bodies, hgenerated, hcompiled⟩
      rcases Generated.expr known' hresult with ⟨hcomplete, hexpr⟩
      have hstart : Generated known known (e.newFunction.2.openBody e.newFunction.1) e₁ _ [] 0 :=
        Generated.unlabelled (Gen.prologue_ok hprologue) rfl (by simp [Opcode.hasOperand])
          (by simp [Opcode.isJump])
      have hend : Generated known' known' e₃ e₄ _ [] 0 :=
        Generated.unlabelled hadded (Code.labelNames_epilogue _ _) (Uses.epilogue _ _)
          (JumpsForward.epilogue _ _)
      have hall := hstart.trans (hgenerated.trans (hexpr.trans hend))
      have hinner : ([.bare .setFp, .bare .pushRa] : List Item) ++ (items ++
          (result.code ctx e₂.labelCount ++ Code.epilogue locals.length params)) =
          (.bare .setFp :: .bare .pushRa :: (items ++ result.code ctx e₂.labelCount ++
            Code.dropFrame locals.length params)) ++ [.bare .call] := by
        simp [Code.epilogue]
      simp only [List.nil_append, List.append_nil, hinner] at hall
      have hclosed := hall.written.close
      refine ⟨_, ⟨hclosed, ?_, ?_⟩, ?_⟩
      · intro label hlabel
        have hmem := hall.labels hlabel
        simp only [List.nil_append, List.flatten_append, labelNames_append, List.mem_append,
          List.flatten_cons, List.flatten_nil, List.append_nil, labelNames_label,
          List.mem_cons] at hmem ⊢
        grind
      · have hcount := hall.count
        rw [e₄.closeBody_counts.2, hcount]
        simp only [Emitter.newFunction, Emitter.openBody, Body.bodyCount]
        omega
      · intro has hhas
        rw [List.forall_mem_append] at hhas
        have hlocalsCompiled := hcompiled has hhas.1
        rw [hstart.count] at hlocalsCompiled
        unfold Body.Compiled
        refine ⟨items, e₂.labelCount, hlocalsCompiled, hcomplete, ?_⟩
        have hlast := hhas.2 _ List.mem_cons_self
        simpa [Code.routine, Code.epilogue] using hlast
termination_by structural b => b

theorem Method.generate_compiled (ctx : CodeContext) (className : String)
    {labels labels' : List String} {known known' : DispatchLabels} {e e' : Emitter} :
    ∀ m : Method,
      ((m.generate ctx className labels).run known).run e = .ok ((labels', known'), e') →
      YieldsBodies known known' e e' m.bodyCount fun has =>
        m.Compiled has ctx e.functionCount known known' labels labels'
  | ⟨header, body, slot⟩, hrun => by
      unfold Method.generate at hrun
      rcases DeclGen.lift_bind_ok hrun with ⟨s, e₁, hnoted, hrun₁⟩
      rcases Gen.noted_ok hnoted with ⟨hslot, rfl⟩
      rcases DeclGen.lift_bind_ok hrun₁ with ⟨label, e₂, hlabel, hrun₂⟩
      cases hlabel
      rcases DeclGen.bind_ok hrun₂ with ⟨_, known₁, e₃, hbody, hrun₃⟩
      rcases DeclGen.lift_ok hrun₃ with ⟨rfl, hfilled⟩
      rcases Gen.noted_ok hfilled with ⟨hfill, rfl⟩
      rcases Body.generate_compiled ctx header.params.length body hbody with
        ⟨bodies, hgenerated, hcompiled⟩
      refine ⟨bodies, hgenerated, ?_⟩
      intro has hhas
      unfold Method.Compiled
      exact ⟨s, hslot, hfill, hcompiled has hhas⟩
termination_by structural m => m

theorem Decl.generateAll_compiled (ctx : CodeContext) {known known' : DispatchLabels}
    {e e' : Emitter} {a : Unit} :
    ∀ ds : List Decl, ((Decl.generateAll ctx ds).run known).run e = .ok ((a, known'), e') →
      Yields known known' e e' (Decl.bodyCountAll ds) fun has items =>
        Decl.CompiledAll has ctx e.functionCount known known' ds items
  | [], hrun => by
      unfold Decl.generateAll at hrun
      cases hrun
      refine ⟨[], [], Generated.refl _ _, ?_⟩
      intro has _
      unfold Decl.CompiledAll
      exact ⟨rfl, rfl⟩
  | d :: ds, hrun => by
      unfold Decl.generateAll at hrun
      rcases DeclGen.bind_ok hrun with ⟨_, known₁, e₁, hfirst, hrun₁⟩
      rcases Decl.generate_compiled ctx d hfirst with ⟨xs, bodies, hgenerated, hcompiled⟩
      rcases Decl.generateAll_compiled ctx ds hrun₁ with ⟨ys, bodies', hgenerated', hcompiled'⟩
      refine ⟨_, _, hgenerated.trans hgenerated', ?_⟩
      intro has hhas
      rw [List.forall_mem_append] at hhas
      unfold Decl.CompiledAll
      rw [← hgenerated.count]
      exact ⟨known₁, xs, ys, rfl, hcompiled has hhas.1, hcompiled' has hhas.2⟩
termination_by structural ds => ds

theorem Method.generateAll_compiled (ctx : CodeContext) (className : String)
    {labels labels' : List String} {known known' : DispatchLabels} {e e' : Emitter} :
    ∀ ms : List Method,
      ((Method.generateAll ctx className labels ms).run known).run e = .ok ((labels', known'), e') →
      YieldsBodies known known' e e' (Method.bodyCountAll ms) fun has =>
        Method.CompiledAll has ctx e.functionCount known known' labels labels' ms
  | [], hrun => by
      unfold Method.generateAll at hrun
      cases hrun
      refine ⟨[], Generated.refl _ _, ?_⟩
      intro has _
      unfold Method.CompiledAll
      exact ⟨rfl, rfl⟩
  | m :: ms, hrun => by
      unfold Method.generateAll at hrun
      rcases DeclGen.bind_ok hrun with ⟨labels₁, known₁, e₁, hfirst, hrun₁⟩
      rcases Method.generate_compiled ctx className m hfirst with ⟨bodies, hgenerated, hcompiled⟩
      rcases Method.generateAll_compiled ctx className ms hrun₁ with
        ⟨bodies', hgenerated', hcompiled'⟩
      refine ⟨_, hgenerated.trans hgenerated', ?_⟩
      intro has hhas
      rw [List.forall_mem_append] at hhas
      unfold Method.CompiledAll
      rw [← hgenerated.count]
      exact ⟨known₁, labels₁, hcompiled has hhas.1, hcompiled' has hhas.2⟩
termination_by structural ms => ms

end

end

end ClassLet
