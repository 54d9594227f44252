import ClassLet.Linkage.ClassPlan
import ClassLet.Proofs.Members.Names

/-!
# Members of a class without clashes

If no member of a class is refused, the table of the class is the inherited table with the names
of the members entered in the order of the declaration. A position either keeps what it has in the
inherited table or belongs to a member of the class itself.

Main statements: `enterFields_placed` and `enterMethods_placed`.
-/

namespace ClassLet

/-- No attempt has failed. -/
def AllPlaced {ε α : Type} (places : List (Except ε α)) : Prop :=
  ∀ place ∈ places, ∃ a, place = .ok a

/-!
# What entering members does
-/

/-- What entering fields does to a table. -/
structure FieldsPlaced (table table' : MemberTable) (names : List String) (fields : List Field)
    (places : List (Except LinkError Int)) : Prop where
  named : table'.Named (enterNames names (fields.map fun f => f.id.name))
  dispatch : table'.dispatch = table.dispatch
  length_places : places.length = fields.length
  length_le : table.fields.length ≤ table'.fields.length
  origin : ∀ (i : Nat) (ty : Ty), table'.fields[i]? = some ty →
    table.fields[i]? = some ty ∨
      ∃ (k : Nat) (f : Field), fields[k]? = some f ∧
        places[k]? = some (.ok (-((i : Int) + 1))) ∧ f.ty.ty = ty

/-- The dispatch entry that a method declares. -/
def entryOf (m : Method) : DispatchEntry :=
  { name := m.header.id.name, signature := m.header.signature }

/-- What entering methods does to a table. -/
structure MethodsPlaced (table table' : MemberTable) (names : List String)
    (methods : List Method) (places : List (Except LinkError Nat)) : Prop where
  named : table'.Named names
  methodNames : table'.methodNames =
    enterNames table.methodNames (methods.map fun m => m.header.id.name)
  fields : table'.fields = table.fields
  length_places : places.length = methods.length
  placed : ∀ (k : Nat) (m : Method) (slot : Nat), methods[k]? = some m →
    places[k]? = some (.ok slot) → table'.dispatch[slot]? = some (entryOf m)
  origin : ∀ (s : Nat) (e : DispatchEntry), table'.dispatch[s]? = some e →
    table.dispatch[s]? = some e ∨
      ∃ (k : Nat) (m : Method), methods[k]? = some m ∧
        places[k]? = some (.ok s) ∧ entryOf m = e

namespace MemberScan

theorem enter_ok {α : Type} {scan scan' : MemberScan} {className : String} {id : Ident}
    {add : MemberTable → Except MemberFault (α × MemberTable)} {a : α}
    (h : scan.enter className id add = (scan', .ok a)) :
    id.name ∉ scan.seen ∧ scan'.seen = id.name :: scan.seen ∧
      add scan.table = .ok (a, scan'.table) := by
  unfold enter at h
  split at h
  · cases h
  · rename_i hseen
    cases hadd : add scan.table with
    | error fault =>
        rw [hadd] at h
        cases h
    | ok added =>
        rw [hadd] at h
        cases h
        exact ⟨by simpa using hseen, rfl, rfl⟩

/-!
# Fields
-/

theorem enterFields_placed (className : String) (fields : List Field) (scan : MemberScan)
    {names : List String} (hnamed : scan.table.Named names)
    (hplaced : AllPlaced (enterFields className scan fields).2) :
    FieldsPlaced scan.table (enterFields className scan fields).1.table names fields
      (enterFields className scan fields).2 := by
  induction fields generalizing scan names with
  | nil =>
      exact {
        named := hnamed
        dispatch := rfl
        length_places := rfl
        length_le := Nat.le_refl _
        origin := fun i ty hty => Or.inl hty }
  | cons f fs ih =>
      simp only [enterFields] at hplaced ⊢
      generalize hfirst : scan.enter className f.id
        (fun table => table.addField f.id.name f.ty.ty) = first at hplaced ⊢
      rcases first with ⟨scan', place⟩
      rcases hplaced place (by simp) with ⟨offset, rfl⟩
      rcases enter_ok hfirst with ⟨_, _, hadd⟩
      rcases hnamed.addField hadd with ⟨i, hi, _, rfl, hfields, hdispatch, hnamed'⟩
      have hrest := ih scan' hnamed' fun p hp => hplaced p (List.mem_cons_of_mem _ hp)
      have hlen : scan.table.fields.length ≤ scan'.table.fields.length := by
        rw [hfields, length_putAt]
        split <;> omega
      refine {
        named := hrest.named
        dispatch := hrest.dispatch.trans hdispatch
        length_places := by simp [hrest.length_places]
        length_le := Nat.le_trans hlen hrest.length_le
        origin := ?_ }
      intro j ty hty
      rcases hrest.origin j ty hty with hold | ⟨k, g, hg, hplace, hgty⟩
      · rw [hfields, getElem?_putAt _ hi] at hold
        by_cases hj : j = i
        · rw [if_pos hj, Option.some.injEq] at hold
          exact Or.inr ⟨0, f, rfl, by simp [hj], hold⟩
        · rw [if_neg hj] at hold
          exact Or.inl hold
      · exact Or.inr ⟨k + 1, g, by simpa using hg, by simpa using hplace, hgty⟩

/-!
# Methods
-/

/-- Methods that are all placed have different names, and none that was declared before. -/
theorem enterMethods_distinct (className : String) (methods : List Method) (scan : MemberScan)
    (hplaced : AllPlaced (enterMethods className scan methods).2) :
    (methods.map fun m => m.header.id.name).Nodup ∧
      ∀ m ∈ methods, m.header.id.name ∉ scan.seen := by
  induction methods generalizing scan with
  | nil => exact ⟨List.nodup_nil, by simp⟩
  | cons m ms ih =>
      simp only [enterMethods] at hplaced
      generalize hfirst : scan.enter className m.header.id
        (fun table => table.addMethod m.header.id.name m.header.signature) = first at hplaced
      rcases first with ⟨scan', place⟩
      rcases hplaced place (by simp) with ⟨slot, rfl⟩
      rcases enter_ok hfirst with ⟨hnew, hseen, _⟩
      rcases ih scan' fun p hp => hplaced p (List.mem_cons_of_mem _ hp) with ⟨hnodup, hfresh⟩
      rw [hseen] at hfresh
      constructor
      · rw [List.map_cons, List.nodup_cons]
        refine ⟨?_, hnodup⟩
        intro hmem
        rcases List.mem_map.mp hmem with ⟨m', hm', heq⟩
        exact hfresh m' hm' (heq ▸ List.mem_cons_self)
      · intro m' hm'
        rcases List.mem_cons.mp hm' with rfl | hm'
        · exact hnew
        · exact fun hmem => hfresh m' hm' (List.mem_cons_of_mem _ hmem)

/-- An entry under a name that has been declared stays as it is. -/
theorem enterMethods_keeps (className : String) (methods : List Method) (scan : MemberScan)
    {names : List String} (hnamed : scan.table.Named names)
    (hplaced : AllPlaced (enterMethods className scan methods).2) {s : Nat} {e : DispatchEntry}
    (he : scan.table.dispatch[s]? = some e) (hseen : e.name ∈ scan.seen) :
    (enterMethods className scan methods).1.table.dispatch[s]? = some e := by
  induction methods generalizing scan with
  | nil => exact he
  | cons m ms ih =>
      simp only [enterMethods] at hplaced ⊢
      generalize hfirst : scan.enter className m.header.id
        (fun table => table.addMethod m.header.id.name m.header.signature) = first at hplaced ⊢
      rcases first with ⟨scan', place⟩
      rcases hplaced place (by simp) with ⟨slot, rfl⟩
      rcases enter_ok hfirst with ⟨hnew, hseen', hadd⟩
      rcases hnamed.addMethod hadd with ⟨_, _, _, _, _, hnamed'⟩
      have hne : e.name ≠ m.header.id.name := by
        intro heq
        exact hnew (heq ▸ hseen)
      exact ih scan' hnamed' (fun p hp => hplaced p (List.mem_cons_of_mem _ hp))
        (hnamed.addMethod_keeps hadd he hne) (hseen' ▸ List.mem_cons_of_mem _ hseen)

theorem enterMethods_placed (className : String) (methods : List Method) (scan : MemberScan)
    {names : List String} (hnamed : scan.table.Named names)
    (hplaced : AllPlaced (enterMethods className scan methods).2) :
    MethodsPlaced scan.table (enterMethods className scan methods).1.table names methods
      (enterMethods className scan methods).2 := by
  induction methods generalizing scan with
  | nil =>
      exact {
        named := hnamed
        methodNames := rfl
        fields := rfl
        length_places := rfl
        placed := fun k m slot hm _ => by simp at hm
        origin := fun s e he => Or.inl he }
  | cons m ms ih =>
      simp only [enterMethods] at hplaced ⊢
      generalize hfirst : scan.enter className m.header.id
        (fun table => table.addMethod m.header.id.name m.header.signature) = first at hplaced ⊢
      rcases first with ⟨scan', place⟩
      rcases hplaced place (by simp) with ⟨slot, rfl⟩
      rcases enter_ok hfirst with ⟨_, hseen', hadd⟩
      rcases hnamed.addMethod hadd with ⟨hslot, hnames, _, hdispatch, hfields, hnamed'⟩
      have hplaced' : AllPlaced (enterMethods className scan' ms).2 := fun p hp =>
        hplaced p (List.mem_cons_of_mem _ hp)
      have hrest := ih scan' hnamed' hplaced'
      refine {
        named := hrest.named
        methodNames := by simpa [enterNames, hnames] using hrest.methodNames
        fields := hrest.fields.trans hfields
        length_places := by simp [hrest.length_places]
        placed := ?_
        origin := ?_ }
      · intro k m' slot' hm hplace
        cases k with
        | zero =>
            simp only [List.getElem?_cons_zero, Option.some.injEq, Except.ok.injEq] at hm hplace
            subst hm hplace
            have hentry : scan'.table.dispatch[slot]? = some (entryOf m) := by
              rw [hdispatch, getElem?_putAt _ hslot, if_pos rfl]
              rfl
            exact enterMethods_keeps className ms scan' hnamed' hplaced' hentry
              (hseen' ▸ List.mem_cons_self)
        | succ k => exact hrest.placed k m' slot' (by simpa using hm) (by simpa using hplace)
      · intro s e he
        rcases hrest.origin s e he with hold | ⟨k, m', hm, hplace, hentry⟩
        · rw [hdispatch, getElem?_putAt _ hslot] at hold
          by_cases hs : s = slot
          · rw [if_pos hs, Option.some.injEq] at hold
            exact Or.inr ⟨0, m, rfl, by simp [hs], hold⟩
          · rw [if_neg hs] at hold
            exact Or.inl hold
        · exact Or.inr ⟨k + 1, m', by simpa using hm, by simpa using hplace, hentry⟩

end MemberScan

end ClassLet
