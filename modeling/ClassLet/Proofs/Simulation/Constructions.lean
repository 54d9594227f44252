import ClassLet.Proofs.Simulation.Operators

/-!
# Names and objects

Reading a name, evaluating several expressions one after the other and constructing objects. An
object that is constructed goes to the end of the heap, so it takes nothing away from the objects
there are; if there is no room for it the heap has met the stack.

Main statements: `Follows.name` and `Follows.construct`.
-/

namespace ClassLet

variable {w : World} {fuel : Nat} {p : Place}

theorem Follows.name {id : Ident} {b : Binding} (hb : p.env.scopes.lookup? id.name = some b)
    (hsignature : b.ty.signature? = none) (hlayout : ∀ members, b.ty ≠ .layout members) :
    Follows w none fuel p 1
      (Code.base (w.context p.inside) { binding := b, useLevel := p.env.scopes.level } ++
        Code.loadAt b.offset)
      (Eval.readName p.visible id.name) b.ty := by
  intro c st hcode hat _
  rcases hat.readName hb hsignature hlayout with ⟨target, v, haccess, heval, hreads, hfits⟩
  rw [heval]
  refine Outcome.executes hcode.left (Executes.base haccess) ?_
  refine Outcome.executes hcode.right
    (Executes.loadAt b.offset rfl (hreads.mono List.prefix_rfl List.suffix_rfl)) ?_
  refine Outcome.here ⟨?_, hfits⟩
  refine (Arrives.refl hat.state).rearranged ?_ rfl rfl rfl rfl rfl rfl
  rw [cellCount_append, Nat.add_assoc]

/-!
# Several values
-/

/-- Wherever the items are placed, the machine leaves the values on the stack, arranged in some
order. -/
def FollowsAll (w : World) (fuel : Nat) (p : Place) (arrange : List Int32 → List Int32)
    (items : List Item) (f : Eval (List Int32)) (tys : List Ty) : Prop :=
  ∀ c st, CodeAt w.im.listing c.ip items → At w none p c st →
    Outcome w.im w.memorySize none fuel c
      (fun vs st' c' =>
        Arrives w none p.floor c st (c.ip + cellCount items) (arrange vs) st' c' ∧
          FitsAll w (c'.snapshot st' p.floor) tys vs)
      (f.run st)

theorem Bound.room_none (c : Config) (cells : Nat) : Room none c cells := by
  intro depth h
  cases h

namespace FollowsAll

variable {f : Eval Int32} {g : Eval (List Int32)} {ty found : Ty} {tys : List Ty}
  {xs ys : List Item} {cells : Nat}

theorem nil (arrange : List Int32 → List Int32) (harrange : arrange [] = []) :
    FollowsAll w fuel p arrange [] (pure []) [] := by
  intro c st _ hat
  refine Outcome.here ⟨?_, List.Forall₂.nil⟩
  rw [harrange]
  exact Arrives.refl hat.state

theorem reversed (hfirst : Follows w none fuel p cells xs f found)
    (hbelow : w.hierarchy.isSubtype found ty = true) (hrest : FollowsAll w fuel p id ys g tys) :
    FollowsAll w fuel p id (ys ++ xs)
      (do
        let vs ← g
        let v ← f
        return v :: vs) (ty :: tys) := by
  intro c st hcode hat
  refine Outcome.bind (hrest c st hcode.left hat) ?_
  rintro vs st₁ c₁ ⟨harrives₁, hfits₁⟩
  have hcode₁ : CodeAt w.im.listing c₁.ip xs := harrives₁.ip ▸ hcode.right
  refine Outcome.bind (hfirst c₁ st₁ hcode₁ (hat.arrived harrives₁) (Bound.room_none _ _)) ?_
  rintro v st₂ c₂ ⟨harrives₂, hfits₂⟩
  refine Outcome.here ⟨(harrives₁.trans harrives₂).moved ?_, ?_⟩
  · rw [harrives₁.ip, cellCount_append, Nat.add_assoc]
  · exact List.Forall₂.cons (hfits₂.subtype hbelow) (hfits₁.mono harrives₂.grows)

theorem inOrder (hfirst : Follows w none fuel p cells xs f found)
    (hbelow : w.hierarchy.isSubtype found ty = true)
    (hrest : FollowsAll w fuel p List.reverse ys g tys) :
    FollowsAll w fuel p List.reverse (xs ++ ys)
      (do
        let v ← f
        let vs ← g
        return v :: vs) (ty :: tys) := by
  intro c st hcode hat
  refine Outcome.bind (hfirst c st hcode.left hat (Bound.room_none _ _)) ?_
  rintro v st₁ c₁ ⟨harrives₁, hfits₁⟩
  have hcode₁ : CodeAt w.im.listing c₁.ip ys := harrives₁.ip ▸ hcode.right
  refine Outcome.bind (hrest c₁ st₁ hcode₁ (hat.arrived harrives₁)) ?_
  rintro vs st₂ c₂ ⟨harrives₂, hfits₂⟩
  refine Outcome.here ⟨?_, ?_⟩
  · rw [List.reverse_cons]
    refine (harrives₁.trans harrives₂).moved ?_
    rw [harrives₁.ip, cellCount_append, Nat.add_assoc]
  · exact List.Forall₂.cons ((hfits₁.mono harrives₂.grows).subtype hbelow) hfits₂

end FollowsAll

/-!
# Objects
-/

theorem Eval.newObject_run (scope : Visible) (className : String) (values : List Int32)
    (st : Store) :
    (Eval.newObject scope className values).run st =
      .ok (heapAddress (st.next + values.length))
        { next := st.next + (values.length + 1)
          objects := (heapAddress (st.next + values.length),
            { className, scope, fields := (scope.fieldNames className).zip values }) :: st.objects
          printed := st.printed } := by
  have haddress : ∀ n : Nat, heapAddress n = Int32.ofNat n := fun n => Int32.ofInt_eq_ofNat
  simp only [Eval.newObject, Eval.takeCells, EStateM.run_bind, EStateM.run_get,
    EStateM.run_modify, EStateM.run_pure, haddress]

/-- A new object at the end of the heap. -/
theorem Matches.construct {floor : List Int32} {c c' : Config} {st : Store}
    (h : Matches w none floor c st) {className : String} {table : MemberTable} {scope : Visible}
    {j : Nat} {stack values : List Int32}
    (hclass : ClassAt w (c.snapshot st floor) className table scope j stack)
    (hfits : FitsAll w (c.snapshot st floor) table.fields values)
    (hroom : c.hp + (values.length + 1) ≤ w.memorySize)
    (hheap : c'.heap = c.heap ++ values.reverse ++ [heapAddress j])
    (hhp : c'.hp = c.hp + (values.length + 1)) (houtput : c'.output = c.output) :
    ∃ st', (Eval.newObject scope className values).run st =
        .ok (heapAddress (c.hp + values.length)) st' ∧
      Matches w none floor c' st' ∧
      (c.snapshot st floor).Grows (c'.snapshot st' floor) ∧
      ∃ o, st'.objects.lookup (heapAddress (c.hp + values.length)) = some o ∧
        o.className = className := by
  have hlength := h.heap
  rw [Eval.newObject_run, h.next]
  have hfresh : ∀ a o, st.objects.lookup a = some o → a ≠ heapAddress (c.hp + values.length) := by
    rintro a o ho rfl
    generalize haddress : heapAddress (c.hp + values.length) = address at ho
    cases h.objects _ _ ho with
    | mk hpointer =>
        have hlt := (List.getElem?_eq_some_iff.mp hpointer).1
        change _ < c.heap.length at hlt
        have := heapAddress_inj w.addressable (by omega) (by omega) haddress
        omega
  have hgrows : (c.snapshot st floor).Grows (c'.snapshot
      { next := c.hp + (values.length + 1)
        objects := (heapAddress (c.hp + values.length),
          { className, scope, fields := (scope.fieldNames className).zip values }) :: st.objects
        printed := st.printed } floor) := by
    constructor
    · show c.heap <+: c'.heap
      rw [hheap, List.append_assoc]
      exact List.prefix_append _ _
    · intro a o ho
      show List.lookup a (_ :: st.objects) = some o
      rw [List.lookup_cons, beq_eq_false_iff_ne.mpr (hfresh a o ho)]
      exact ho
    · exact List.suffix_rfl
  refine ⟨_, rfl, ?_, hgrows, _, List.lookup_cons_self, rfl⟩
  constructor
  · rw [hheap, hhp]
    simp only [List.length_append, List.length_reverse, List.length_singleton]
    omega
  · exact hhp.symm
  · rw [hhp]
    exact hroom
  · exact houtput.trans h.output
  · intro a o ho
    by_cases ha : a = heapAddress (c.hp + values.length)
    · subst ha
      rw [List.lookup_cons_self, Option.some.injEq] at ho
      subst ho
      refine ObjectPlaced.mk ?_ (hclass.mono hgrows) (hfits.mono hgrows) ?_
      · show c'.heap[c.hp + values.length]? = some (heapAddress j)
        rw [hheap, List.getElem?_append_right (by simp [hlength])]
        simp [hlength]
      · intro n v hv
        rw [← hlength]
        show ∃ a, _ ∧ c'.heap[a]? = some v
        rw [hheap]
        exact getElem?_reverse_append hv
    · rw [List.lookup_cons, beq_eq_false_iff_ne.mpr ha] at ho
      exact (h.objects a o ho).mono hgrows
  · exact fun hnone => absurd rfl hnone

theorem Follows.construct {name : String} {table : MemberTable} {b : Binding}
    {layout : ClassLayout} {items : List Item} {g : Eval (List Int32)} {count cells : Nat}
    (htable : p.env.classes.find? name = some table)
    (hb : p.env.scopes.lookupOutermost? name = some b) (hlayout : b.ty = .layout layout)
    (hargs : FollowsAll w fuel p List.reverse items g layout.fields)
    (hcount : count = layout.fields.length) :
    Follows w none fuel p cells
      (items ++ (Code.storeOnHeapRepeat count ++
        (.push (w.topBase + Int32.ofInt b.offset) :: .bare .load :: .bare .pushHp ::
          .bare .store :: .bare .pushHp :: Code.advanceHeap)))
      (do
        let values ← g
        match p.visible.class? name with
        | some scope => Eval.newObject scope name values
        | none => throw .stuck)
      (.ref layout.name) := by
  intro c st hcode hat _
  refine Outcome.bind (hargs c st hcode.left hat) ?_
  rintro values st₁ c₁ ⟨harrives, hfits⟩
  have hat₁ := hat.arrived harrives
  rcases hat₁.frames with ⟨stack, hframes, hstack⟩
  rcases hframes.class_of_find htable with
    ⟨scope, i, stack', b', hscope, hclass, hlookup, hty, haddress⟩
  rw [hb, Option.some.injEq] at hlookup
  subst hlookup
  rw [hlayout, Ty.layout.injEq] at hty
  subst hty
  rw [hscope]
  have hcode₁ : CodeAt w.im.listing c₁.ip _ := harrives.ip ▸ hcode.right
  rw [hcount.trans hfits.length_eq] at hcode₁ ⊢
  -- The dispatch pointer lies among the cells of the top-level frame that stay.
  rcases hclass.floor with ⟨hfloor, below, rfl⟩
  have hpointer : Held w c.stack (w.topBase + Int32.ofInt b.offset) (heapAddress i) := by
    rw [haddress]
    exact (Held.top w _ below).mono (hfloor.trans hat.floor)
  refine Outcome.executes hcode₁ (Straight.construct harrives.state.heap harrives.stack
    (hpointer.reads List.suffix_rfl) (Nat.le_refl _)).executes ?_
  by_cases hroom : c₁.hp + (values.length + 1) ≤ w.memorySize
  · rcases @Matches.construct w _ c₁ { c₁ with
        ip := _
        stack := heapAddress (c₁.hp + values.length) :: c.stack
        heap := c₁.heap ++ (values.reverse ++ [heapAddress i])
        hp := c₁.hp + (values.length + 1) } _ harrives.state _ _ _ _ _ _ hclass hfits hroom
      (List.append_assoc _ _ _).symm rfl rfl with ⟨st₂, hnew, hstate, hgrows, o, ho, hname⟩
    rw [hnew]
    refine Outcome.here ⟨?_, ?_⟩
    · exact {
        ip := by
          rw [cellCount_append items, harrives.ip, Nat.add_assoc]
        stack := rfl
        fp := harrives.fp
        calls := harrives.calls
        state := hstate
        grows := harrives.grows.trans hgrows }
    · exact Fits.object ho (hname ▸ Hierarchy.Descends.refl _)
  · refine Outcome.full _ rfl (Leads.here ?_)
    show w.memorySize ≤ c₁.hp + values.length + 1 + _
    omega

end ClassLet
