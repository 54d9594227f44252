import ClassLet.Proofs.Machine.Refinement
import ClassLet.Proofs.Simulation.Names
import ClassLet.Proofs.Simulation.Outcome

/-!
# States

How a configuration of the machine and the store of an evaluation belong together: the heap is as
large as the store says, the objects of the store lie on it, and the same has been printed.

Main statements: `At.arrived`, a place stays in order while code leaves values on the stack, and
`At.readName`, the cell of a variable, parameter or field holds its value.
-/

namespace ClassLet

/-!
# Objects on the heap
-/

/-- The fields of an object lie below its dispatch pointer, the first one next to it. -/
inductive ObjectPlaced (w : World) (k : Snapshot) : Int32 → Object → Prop where
  | mk {i j : Nat} {className : String} {table : MemberTable} {scope : Visible}
      {stack values : List Int32} :
      k.heap[i]? = some (heapAddress j) →
      ClassAt w k className table scope j stack →
      FitsAll w k table.fields values →
      (∀ (n : Nat) (v : Int32), values[n]? = some v →
        ∃ a, a + (n + 1) = i ∧ k.heap[a]? = some v) →
      ObjectPlaced w k (heapAddress i)
        { className, scope, fields := (scope.fieldNames className).zip values }

theorem ObjectPlaced.mono {w : World} {k k' : Snapshot} {address : Int32} {o : Object}
    (h : ObjectPlaced w k address o) (hk : k.Grows k') : ObjectPlaced w k' address o := by
  cases h with
  | mk hpointer hclass hfits hcells =>
      refine mk (hk.cell hpointer) (hclass.mono hk) (hfits.mono hk) ?_
      intro n v hv
      rcases hcells n v hv with ⟨a, ha, hcell⟩
      exact ⟨a, ha, hk.cell hcell⟩

/-!
# Matching states
-/

def Config.snapshot (c : Config) (st : Store) (floor : List Int32) : Snapshot :=
  { heap := c.heap, objects := st.objects, floor }

structure Matches (w : World) (bound : Bound) (floor : List Int32) (c : Config) (st : Store) :
    Prop where
  heap : c.heap.length = c.hp
  next : st.next = c.hp
  room : c.hp ≤ w.memorySize
  output : c.output = st.printed
  objects : ∀ a o, st.objects.lookup a = some o → ObjectPlaced w (c.snapshot st floor) a o
  bounded : bound ≠ none → c.heap = []

namespace Matches

variable {w : World} {bound : Bound} {floor : List Int32} {c c' : Config} {st : Store}

theorem same (h : Matches w bound floor c st) (hheap : c'.heap = c.heap) (hhp : c'.hp = c.hp)
    (houtput : c'.output = c.output) : Matches w bound floor c' st where
  heap := by rw [hheap, hhp, h.heap]
  next := by rw [hhp, h.next]
  room := by
    rw [hhp]
    exact h.room
  output := houtput.trans h.output
  objects := by
    unfold Config.snapshot
    rw [hheap]
    exact h.objects
  bounded := by
    rw [hheap]
    exact h.bounded

theorem printed (h : Matches w bound floor c st) (v : Int32) :
    Matches w bound floor { c with output := c.output ++ [v] }
      { st with printed := st.printed ++ [v] } where
  heap := h.heap
  next := h.next
  room := h.room
  output := by rw [h.output]
  objects := h.objects
  bounded := h.bounded

/-- The address of an object is not that of `null`. -/
theorem address_ne_null (h : Matches w bound floor c st) {a : Int32} {o : Object}
    (ho : st.objects.lookup a = some o) : a ≠ -1 := by
  cases h.objects a o ho with
  | @mk i j _ _ _ _ _ hpointer _ _ _ =>
      have hlt : i < c.heap.length := (List.getElem?_eq_some_iff.mp hpointer).1
      rintro hnull
      have hindex := toInt_heapAddress w.addressable (i := i) (by
        have := h.heap
        have := h.room
        omega)
      rw [hnull] at hindex
      have hneg : (-1 : Int32).toInt = -1 := by decide
      omega

end Matches

/-!
# Places
-/

/-- A place of the program while it is evaluated, with the cells of the top-level frame that the
evaluation leaves alone. -/
structure Place where
  inside : Bool
  env : Environment
  visible : Visible
  floor : List Int32

/-- The machine has reached the place. -/
structure At (w : World) (bound : Bound) (p : Place) (c : Config) (st : Store) : Prop where
  frames : ∃ stack, Frames w (c.snapshot st p.floor) p.inside p.env p.visible c.fp stack ∧
    stack <:+ c.stack
  floor : p.floor <:+ c.stack
  state : Matches w bound p.floor c st

/-- Code has been executed up to an address and has left cells on the stack. -/
structure Arrives (w : World) (bound : Bound) (floor : List Int32) (c : Config) (st : Store)
    (ip : Nat) (pushed : List Int32) (st' : Store) (c' : Config) : Prop where
  ip : c'.ip = ip
  stack : c'.stack = pushed ++ c.stack
  fp : c'.fp = c.fp
  calls : c'.calls = c.calls
  state : Matches w bound floor c' st'
  grows : (c.snapshot st floor).Grows (c'.snapshot st' floor)

namespace Arrives

variable {w : World} {bound : Bound} {floor : List Int32} {c c' c'' : Config}
  {st st' st'' : Store} {a b : Nat} {xs ys : List Int32}

theorem refl (h : Matches w bound floor c st) : Arrives w bound floor c st c.ip [] st c where
  ip := rfl
  stack := rfl
  fp := rfl
  calls := rfl
  state := h
  grows := Snapshot.Grows.refl _

theorem trans (h : Arrives w bound floor c st a xs st' c')
    (h' : Arrives w bound floor c' st' b ys st'' c'') :
    Arrives w bound floor c st b (ys ++ xs) st'' c'' where
  ip := h'.ip
  stack := by rw [h'.stack, h.stack, List.append_assoc]
  fp := h'.fp.trans h.fp
  calls := h'.calls.trans h.calls
  state := h'.state
  grows := h.grows.trans h'.grows

theorem moved (h : Arrives w bound floor c st a xs st' c') (hab : a = b) :
    Arrives w bound floor c st b xs st' c' :=
  hab ▸ h

/-- What lies on top may be exchanged. -/
theorem rearranged (h : Arrives w bound floor c st a xs st' c') (hip : c''.ip = b)
    (hstack : c''.stack = ys ++ c.stack) (hfp : c''.fp = c'.fp) (hcalls : c''.calls = c'.calls)
    (hheap : c''.heap = c'.heap) (hhp : c''.hp = c'.hp) (houtput : c''.output = c'.output) :
    Arrives w bound floor c st b ys st' c'' where
  ip := hip
  stack := hstack
  fp := hfp.trans h.fp
  calls := hcalls.trans h.calls
  state := h.state.same hheap hhp houtput
  grows := by
    have hsame : c''.snapshot st' floor = c'.snapshot st' floor := by
      unfold Config.snapshot
      rw [hheap]
    rw [hsame]
    exact h.grows

end Arrives

theorem At.arrived {w : World} {bound : Bound} {p : Place} {c c' : Config} {st st' : Store}
    {a : Nat} {xs : List Int32} (hat : At w bound p c st)
    (h : Arrives w bound p.floor c st a xs st' c') :
    At w bound p c' st' where
  frames := by
    rcases hat.frames with ⟨stack, hframes, hstack⟩
    refine ⟨stack, ?_, ?_⟩
    · rw [h.fp]
      exact hframes.mono h.grows
    · rw [h.stack]
      exact hstack.trans (List.suffix_append _ _)
  floor := by
    rw [h.stack]
    exact hat.floor.trans (List.suffix_append _ _)
  state := h.state

/-!
# Reading names
-/

theorem lookup_zip {names : List String} {values : List Int32} {i : Nat} {x : String} {v : Int32}
    (hnames : names.Nodup) (hx : names[i]? = some x) (hv : values[i]? = some v) :
    (names.zip values).lookup x = some v := by
  induction names generalizing values i with
  | nil => simp at hx
  | cons first names ih =>
      rw [List.nodup_cons] at hnames
      cases values with
      | nil => simp at hv
      | cons value values =>
          cases i with
          | zero =>
              simp only [List.getElem?_cons_zero, Option.some.injEq] at hx hv
              subst hx hv
              simp
          | succ i =>
              simp only [List.getElem?_cons_succ] at hx hv
              have hne : (x == first) = false := by
                simpa using fun heq : x = first => hnames.1 (heq ▸ List.mem_of_getElem? hx)
              rw [List.zip_cons_cons, List.lookup_cons, hne]
              exact ih hnames.2 hx hv

/-- The names that fields are stored under do not depend on how they are found. -/
theorem MemberTable.Named.name_at {t : MemberTable} {names names' : List String}
    (h : t.Named names) (h' : t.Named names') {i : Nat} {x : String} (hx : names'[i]? = some x) :
    names[i]? = some x := by
  have hlt : i < t.fields.length := by
    rw [← h'.length_fields]
    exact (List.getElem?_eq_some_iff.mp hx).1
  have hbound := h'.field i x _ hx (List.getElem?_eq_getElem hlt)
  rcases h.member_cases hbound with ⟨i', ty, hi', hty, hsame⟩ | ⟨s, e, he, hname, hsame⟩
  · have hi : i' = i := by
      have hoffset := congrArg Binding.offset hsame
      simp only [Binding.ofField] at hoffset
      omega
    exact hi ▸ hi'
  · have hmethod := congrArg Binding.offset hsame
    simp only [Binding.ofField, Binding.ofMethod] at hmethod
    omega

/-- A field that the class of an object or a class above it has. -/
theorem ObjectPlaced.field {w : World} {c : Config} {st : Store} {floor : List Int32}
    {address : Int32} {o : Object} {above : String} {table : MemberTable} {i : Nat} {ty : Ty}
    {name : String} (h : ObjectPlaced w (c.snapshot st floor) address o)
    (hdescends : w.hierarchy.Descends o.className above)
    (htable : w.tables.find? above = some table)
    (hmember : table.member? name = some (.ofField i ty)) :
    ∃ v, o.fields.lookup name = some v ∧
      c.Reads w.memorySize (address + Int32.ofInt (-((i : Int) + 1))) v ∧
      Fits w (c.snapshot st floor) ty v := by
  cases h with
  | @mk index j className own scope stack values hpointer hclass hfits hcells =>
      rcases hclass.frames with ⟨hown, env, hframes, hknown⟩
      rcases w.refines hdescends hown with ⟨table', htable', hrefines⟩
      rw [htable, Option.some.injEq] at htable'
      subst htable'
      rcases w.named htable with ⟨names, hnamed⟩
      rcases hrefines.named names hnamed with ⟨names', hnamed', new, rfl⟩
      rcases hnamed.member_cases hmember with ⟨i', ty', hx, hty, hsame⟩ | ⟨s, e, _, _, hsame⟩
      · simp only [Binding.ofField, Binding.mk.injEq, true_and] at hsame
        rcases hsame with ⟨rfl, hoffset⟩
        obtain rfl : i = i' := by omega
        have hx' : (names ++ new)[i]? = some name := by
          rw [List.getElem?_append_left (List.getElem?_eq_some_iff.mp hx).1]
          exact hx
        have hfieldNames := (hframes.named hknown).1
        have hat := hfieldNames.name_at hnamed' hx'
        rcases hrefines.field i ty hty with ⟨ownTy, hownTy, hsub⟩
        rcases hfits.getElem? hownTy with ⟨v, hv, hfits'⟩
        rcases hcells i v hv with ⟨a, ha, hcell⟩
        refine ⟨v, ?_, ?_, hfits'.subtype hsub⟩
        · exact lookup_zip (List.nodup_append.mp hfieldNames.nodup).1 hat hv
        · have haddress : heapAddress index + Int32.ofInt (-((i : Int) + 1)) = heapAddress a := by
            rw [heapAddress, heapAddress, ← Int32.ofInt_add]
            congr 1
            omega
          rw [haddress]
          exact Config.Reads.heap hcell
      · have hoffset := congrArg Binding.offset hsame
        simp only [Binding.ofField, Binding.ofMethod] at hoffset
        omega

theorem Eval.object_ok {st : Store} {address : Int32} {o : Object}
    (ho : st.objects.lookup address = some o) : (Eval.object address).run st = .ok o st := by
  simp only [Eval.object, EStateM.run_bind, EStateM.run_get, ho, EStateM.run_pure]

theorem At.readName {w : World} {bound : Bound} {p : Place} {c : Config} {st : Store}
    (hat : At w bound p c st) {name : String} {b : Binding}
    (hb : p.env.scopes.lookup? name = some b) (hsignature : b.ty.signature? = none)
    (hlayout : ∀ members, b.ty ≠ .layout members) :
    ∃ target v, Access w p.inside p.env.scopes.level c.stack c.fp b target ∧
      (Eval.readName p.visible name).run st = .ok v st ∧
      c.Reads w.memorySize (target + Int32.ofInt b.offset) v ∧
      Fits w (c.snapshot st p.floor) b.ty v := by
  rcases hat.frames with ⟨stack, hframes, hstack⟩
  rcases hframes.finds name b hb with ⟨_, target, haccess, hdenotes⟩
  cases hdenotes with
  | @value v hreferent hheld hfits =>
      refine ⟨target, v, haccess.mono hstack, ?_, hheld.reads hstack, hfits⟩
      simp only [Eval.readName, hreferent, EStateM.run_pure]
  | function hreferent hty =>
      rw [hty] at hsignature
      cases hsignature
  | @field o className table i ty hreferent ho hdescends htable hmember hfield =>
      subst hfield
      rcases (hat.state.objects _ _ ho).field hdescends htable hmember with
        ⟨v, hlookup, hreads, hfits⟩
      refine ⟨target, v, haccess.mono hstack, ?_, hreads, hfits⟩
      have hobject : (Eval.object target).run st = .ok o st := Eval.object_ok ho
      simp only [Eval.readName, hreferent, Eval.readField, EStateM.run_bind, hobject, hlookup,
        EStateM.run_pure]
  | method hreferent ho hdescends htable hmember hmethod =>
      rw [hmethod] at hsignature
      cases hsignature
  | classDef hty => exact absurd hty (hlayout _)

/-!
# Code of names
-/

namespace Executes

variable {w : World} {inside : Bool} {c : Config}

/-- Links are followed from the base on top of the stack. -/
theorem follow {stack rest : List Int32} {n : Nat} {base target : Int32}
    (hhops : Hops w stack n base target) (hstack : stack <:+ rest) (htop : c.stack = base :: rest) :
    Executes w.im w.memorySize none (List.replicate n (.bare .load)) c
      { c with stack := target :: rest } := by
  induction hhops generalizing c with
  | here base =>
      rw [← htop]
      exact nil c
  | next hheld _ ih =>
      rw [List.replicate_succ]
      have hload : Effect w.memorySize c .load _ :=
        Effect.load htop (Held.reads hheld hstack)
      apply bare_cons hload (Bound.allows_none _)
      intro a
      exact ih rfl

theorem base {b : Binding} {level : Nat} {target : Int32}
    (haccess : Access w inside level c.stack c.fp b target) :
    Executes w.im w.memorySize none
      (Code.base (w.context inside) { binding := b, useLevel := level }) c
      { c with stack := target :: c.stack } := by
  unfold Code.base
  rcases haccess with ⟨hinside, hlevel, rfl⟩ | ⟨hnot, hhops⟩
  · have hcondition : ((w.context inside).insideClass && b.level == 0) = true := by
      simp [World.context, hinside, hlevel]
    rw [if_pos hcondition]
    exact push w.topBase (Bound.allows_none _)
  · have hcondition : ¬((w.context inside).insideClass && b.level == 0) = true := by
      simpa [World.context] using hnot
    rw [if_neg hcondition]
    apply bare_cons Effect.pushFp (Bound.allows_none _)
    intro a
    exact follow hhops List.suffix_rfl rfl

end Executes

end ClassLet
