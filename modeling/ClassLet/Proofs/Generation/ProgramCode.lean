import ClassLet.Compilation
import ClassLet.Proofs.Assembly.Reading
import ClassLet.Proofs.Generation.DeclarationCode
import ClassLet.Proofs.Machine.Configuration

/-!
# The code of a program

The listing of a program is the code of its declarations and its body, up to `halt`, and behind it
the bodies of all functions and methods.

Main statements: `Program.generate_listing`, and `Image.holds_of_mem`: every one of the bodies is a
routine of the code.
-/

namespace ClassLet

/-!
# Listings with bodies
-/

/-- A listing that consists of a main part and of bodies behind it. -/
structure Listing.Divided (l : Listing) (main : List Item) (bodies : List (List Item)) : Prop where
  items : l.items.map Item.plain = main ++ bodies.flatten
  main : ∀ name ∈ labelNames main, ¬IsFunctionLabel name
  routines : ∀ segment ∈ bodies, IsRoutine segment

theorem labelNames_plain (items : List Item) :
    labelNames (items.map Item.plain) = labelNames items := by
  induction items with
  | nil => rfl
  | cons item items ih => cases item <;> simp [Item.plain, ih]

/-- A body is placed as a routine. -/
def Image.Holds (im : Image) (segment : List Item) : Prop :=
  ∃ entry exit, CodeAt im.listing entry segment ∧ im.Routine entry exit ∧
    exit + 1 = entry + cellCount segment

theorem Listing.Divided.head_label {l : Listing} {main : List Item} {bodies : List (List Item)}
    (h : l.Divided main bodies) {after : List (List Item)} (hafter : after ⊆ bodies) :
    after.flatten = [] ∨
      ∃ name rest, after.flatten = .label name :: rest ∧ IsFunctionLabel name := by
  cases after with
  | nil => exact Or.inl rfl
  | cons segment after =>
      rcases h.routines segment (hafter List.mem_cons_self) with ⟨name, inner, rfl, hname, _⟩
      exact Or.inr ⟨name, _, rfl, hname⟩

theorem Item.eq_label_of_plain {item : Item} {name : String} (h : item.plain = .label name) :
    item = .label name := by
  cases item with
  | label n => exact h
  | instruction i => cases h

theorem Image.holds_of_mem {im : Image} {main : List Item} {bodies : List (List Item)}
    (h : im.listing.Divided main bodies) {segment : List Item} (hsegment : segment ∈ bodies) :
    im.Holds segment := by
  rcases List.append_of_mem hsegment with ⟨before, after, hbodies⟩
  rcases h.routines segment hsegment with ⟨name, inner, hshape, hname, hinner⟩
  have hitems := h.items
  rw [hbodies, List.flatten_append, List.flatten_cons, ← List.append_assoc] at hitems
  rcases List.map_eq_append_iff.mp hitems with ⟨pre, rest, hsplit, hpre, hrest⟩
  rcases List.map_eq_append_iff.mp hrest with ⟨placed, post, rfl, hplaced, hpost⟩
  have hcode : CodeAt im.listing (cellCount pre) segment :=
    ⟨pre, placed, post, by rw [hsplit, List.append_assoc], hplaced, rfl⟩
  rw [hshape] at hplaced
  rcases List.map_eq_cons_iff.mp hplaced with ⟨first, others, rfl, hfirst, hothers⟩
  rcases List.map_eq_append_iff.mp hothers with ⟨body, last, rfl, hbody, hlast⟩
  rcases List.map_eq_cons_iff.mp hlast with ⟨jump, none, rfl, hjump, hnone⟩
  rw [List.map_eq_nil_iff] at hnone
  subst hnone
  cases jump with
  | label n => cases hjump
  | instruction i =>
      rcases i with ⟨op, operand, line⟩
      cases hjump
      have hfirst := Item.eq_label_of_plain hfirst
      subst hfirst
      refine ⟨cellCount pre, cellCount (pre ++ .label name :: body), hcode, ?_, ?_⟩
      · refine ⟨pre, name, body, line, post, by rw [hsplit]; simp, hname, ?_, ?_, rfl, rfl⟩
        · intro n hn
          rw [← labelNames_plain, hbody] at hn
          exact hinner n hn
        · have hafter : after ⊆ bodies := by
            rw [hbodies]
            exact fun x hx => List.mem_append_right _ (List.mem_cons_of_mem _ hx)
          rcases h.head_label hafter with hnil | ⟨n, rest, hcons, hn⟩
          · rw [hnil, List.map_eq_nil_iff] at hpost
            exact Or.inl hpost
          · rw [hcons] at hpost
            rcases List.map_eq_cons_iff.mp hpost with ⟨first, others, rfl, hlabel, _⟩
            exact Or.inr ⟨n, others, by rw [Item.eq_label_of_plain hlabel], hn⟩
      · have hwidth : cellCount inner = cellCount body := by rw [← hbody, cellCount_plain]
        simp [hshape, hwidth, Item.width, Item.bare, Opcode.width, Opcode.hasOperand, Nat.add_assoc]

/-!
# Programs
-/

namespace Program

/-- The main part of a program, given the code of its declarations. -/
def mainCode (p : Program) (ctx : CodeContext) (items : List Item) (n : Nat) : List Item :=
  (if p.hasDeclarations then [.push 0] else []) ++ (items ++ (p.body.code ctx n ++ [.bare .halt]))

/-- The context of code outside of classes. -/
def context (memorySize : Int32) : CodeContext :=
  { memorySize, insideClass := false }

theorem generateAll_compiled {p : Program} {ctx : CodeContext} {known : DispatchLabels}
    {e : Emitter} {a : Unit}
    (h : ((p.generateAll ctx).run NameMap.empty).run Emitter.empty = .ok ((a, known), e)) :
    p.body.Complete ∧ ∃ items n bodies,
      Generated NameMap.empty known Emitter.empty e (p.mainCode ctx items n) bodies
        (Decl.bodyCountAll p.decls) ∧
      ∀ has : List Item → Prop, (∀ segment ∈ bodies, has segment) →
        Decl.CompiledAll has ctx 0 NameMap.empty known p.decls items := by
  have hfinish : ∀ {e₁ : Emitter} {known₁ : DispatchLabels},
      ((do p.body.generate ctx; Gen.emit .halt : DeclGen Unit).run known₁).run e₁ =
        .ok ((a, known), e) →
      known₁ = known ∧ p.body.Complete ∧
        Generated known known e₁ e (p.body.code ctx e₁.labelCount ++ [.bare .halt]) [] 0 := by
    intro e₁ known₁ hrun
    rcases DeclGen.lift_bind_ok hrun with ⟨_, e₂, hbody, hrun₁⟩
    rcases DeclGen.lift_ok hrun₁ with ⟨rfl, hhalt⟩
    rcases Generated.expr known hbody with ⟨hcomplete, hgenerated⟩
    have hadded := (Gen.Writes.emit .halt _ _ _ rfl hhalt).2
    have hend : Generated known known e₂ e [.bare .halt] [] 0 :=
      Generated.unlabelled hadded rfl (by simp [Opcode.hasOperand]) (by simp [Opcode.isJump])
    exact ⟨rfl, hcomplete, hgenerated.trans hend⟩
  unfold generateAll at h
  cases hdecls : p.hasDeclarations with
  | false =>
      have hnil : p.decls = [] := by simpa [hasDeclarations] using hdecls
      simp only [hdecls, Bool.false_eq_true, if_false] at h
      rcases hfinish h with ⟨rfl, hcomplete, hgenerated⟩
      refine ⟨hcomplete, [], Emitter.empty.labelCount, [], ?_, ?_⟩
      · simpa [mainCode, hdecls, hnil, Decl.bodyCountAll] using hgenerated
      · intro has _
        rw [hnil]
        unfold Decl.CompiledAll
        exact ⟨rfl, rfl⟩
  | true =>
      simp only [hdecls, if_true] at h
      rcases DeclGen.lift_bind_ok h with ⟨_, e₁, hpush, h₁⟩
      rcases DeclGen.bind_ok h₁ with ⟨_, known₁, e₂, hgenerate, h₂⟩
      rcases hfinish h₂ with ⟨rfl, hcomplete, hgenerated⟩
      rcases Decl.generateAll_compiled ctx p.decls hgenerate with
        ⟨items, bodies, hdeclared, hcompiled⟩
      have hadded := (Gen.Writes.push 0 _ _ _ rfl hpush).2
      have hstart : Generated NameMap.empty NameMap.empty Emitter.empty e₁ [.push 0] [] 0 :=
        Generated.unlabelled hadded rfl (by simp) (by simp)
      rw [show e₁.functionCount = 0 from hstart.count] at hcompiled
      refine ⟨hcomplete, items, e₂.labelCount, bodies, ?_, hcompiled⟩
      simpa [mainCode, hdecls] using hstart.trans (hdeclared.trans hgenerated)

theorem taken_labelText {e e' : Emitter} {name : String} (h : name ∈ e.taken e') :
    LabelText name := by
  rcases List.mem_append.mp h with h | h
  · rcases List.mem_map.mp h with ⟨k, _, rfl⟩
    exact labelText_isLabelText k
  · rcases List.mem_map.mp h with ⟨k, _, rfl⟩
    exact functionText_isLabelText k

theorem taken_nodup (e e' : Emitter) : (e.taken e').Nodup := by
  rw [Emitter.taken, List.nodup_append]
  have hdistinct : ∀ n count : Nat, (List.range' n count).Nodup := fun n count =>
    List.nodup_range'
  refine ⟨?_, ?_, ?_⟩
  · exact List.pairwise_map.mpr ((hdistinct _ _).imp fun hne h => hne (labelText_inj h))
  · exact List.pairwise_map.mpr ((hdistinct _ _).imp fun hne h => hne (functionText_inj h))
  · rintro a ha b hb rfl
    rcases List.mem_map.mp hb with ⟨k, _, rfl⟩
    exact not_isFunctionLabel_labelRange ha ⟨k, rfl⟩

/-- A listing can be read back if its items, without their lines, are what was written. -/
theorem readable_of_written {l : Listing} {e e' : Emitter} {main : List Item}
    {bodies : List (List Item)} (hitems : l.items.map Item.plain = main ++ bodies.flatten)
    (h : Emitter.Written [] e e' main bodies) : l.Readable := by
  have hnames : (labelNames l.items).Perm (e.taken e') := by
    rw [← labelNames_plain, hitems]
    exact h.names
  have huses := h.uses
  rw [← hitems, labelNames_plain, List.append_nil] at huses
  have hinstruction : ∀ i, Item.instruction i ∈ l.items →
      (Item.instruction { i with line := 0 }).Uses (labelNames l.items) := fun i hi =>
    huses _ (List.mem_map.mpr ⟨_, hi, rfl⟩)
  constructor
  · constructor
    · exact fun i hi => (hinstruction i hi).1
    · exact hnames.nodup_iff.mpr (taken_nodup e e')
  · exact fun name hname => taken_labelText (hnames.mem_iff.mp hname)
  · exact fun i name hi hname => (hinstruction i hi).2 name hname

/-- The items of a listing are, without their lines, what generation has written. -/
theorem generate_written {p : Program} {memorySize : Int32} {l : Listing}
    (h : p.generate memorySize = .ok l) :
    p.body.Complete ∧ ∃ known e items n bodies,
      Emitter.Written [] Emitter.empty e (p.mainCode (context memorySize) items n) bodies ∧
      l.items.map Item.plain = p.mainCode (context memorySize) items n ++ bodies.flatten ∧
      e.functionCount = Decl.bodyCountAll p.decls ∧
      ∀ has : List Item → Prop, (∀ segment ∈ bodies, has segment) →
        Decl.CompiledAll has (context memorySize) 0 NameMap.empty known p.decls items := by
  unfold generate at h
  cases hrun : ((p.generateAll (context memorySize)).run NameMap.empty).run Emitter.empty with
  | error failure =>
      rw [context] at hrun
      simp only [hrun] at h
      cases h
  | ok r =>
      rcases r with ⟨⟨a, known⟩, e⟩
      have hlisting : l = e.listing := by
        rw [context] at hrun
        simp only [hrun] at h
        cases h
        rfl
      rcases generateAll_compiled hrun with
        ⟨hcomplete, items, n, bodies, hgenerated, hcompiled⟩
      have hstreams := hgenerated.written.streams [] [] rfl
      have hfinished := hgenerated.written.finished
      have hpending : e.pending = [] := by
        have hlength := congrArg List.length hstreams
        simpa [Emitter.streams] using hlength
      simp only [Emitter.streams, hpending, List.map_nil, List.nil_append, List.map_cons,
        List.cons.injEq, and_true] at hstreams
      have hcount : e.functionCount = Decl.bodyCountAll p.decls :=
        hgenerated.count.trans (Nat.zero_add _)
      refine ⟨hcomplete, known, e, items, n, bodies, hgenerated.written, ?_, hcount, hcompiled⟩
      rw [hlisting, ← hstreams]
      simpa [Emitter.listing, hpending, Emitter.finishedItems, Emitter.empty] using hfinished

theorem generate_listing {p : Program} {memorySize : Int32} {l : Listing}
    (h : p.generate memorySize = .ok l) :
    p.body.Complete ∧ l.Readable ∧ ∃ known items n bodies,
      l.Divided (p.mainCode (context memorySize) items n) bodies ∧
      ∀ has : List Item → Prop, (∀ segment ∈ bodies, has segment) →
        Decl.CompiledAll has (context memorySize) 0 NameMap.empty known p.decls items := by
  rcases generate_written h with
    ⟨hcomplete, known, e, items, n, bodies, hwritten, hitems, _, hcompiled⟩
  refine ⟨hcomplete, readable_of_written hitems hwritten, known, items, n, bodies, ?_, hcompiled⟩
  exact {
    items := hitems
    main := hwritten.inner
    routines := hwritten.routines }

/-- A program is compiled to what is generated for it after linking and checking without errors. -/
theorem listing_of_compile {p : Program} {memorySize : Int32} {l : Listing}
    (h : (p.compile memorySize).listing = some l) :
    p.link.errors = [] ∧ p.link.program.typing.errors = [] ∧
      p.link.program.generate memorySize = .ok l := by
  simp only [compile] at h
  split at h
  · rename_i hchecked
    simp only [Bool.and_eq_true, List.isEmpty_iff, List.append_eq_nil_iff, List.map_eq_nil_iff]
      at hchecked
    refine ⟨hchecked.1.1, hchecked.1.2, ?_⟩
    split at h
    · rename_i listing hgenerate
      cases h
      exact hgenerate
    · cases h
  · cases h

end Program

end ClassLet
