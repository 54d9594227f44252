import ClassLet.Storage.Members

/-!
# Names and places of members

A member table numbers its fields and, apart from them, its methods. Here the table is described
by the two lists of names: the name at position `i` of the fields lives `i + 1` cells below the
object, and the name at position `s` of the methods is dispatched through slot `s`.

Main statements: `Named.addField` and `Named.addMethod`. Declaring a member puts its name behind
the names of its kind unless it is there already, and writes the declared type to the position of
the name and to no other.
-/

namespace ClassLet

/-!
# Writing to a position or behind the end
-/

/-- Declares a name: a known one keeps its position and a new one goes to the end. -/
def enterName (names : List String) (name : String) : List String :=
  if name ∈ names then names else names ++ [name]

/-- Declares names one after the other. -/
def enterNames (names : List String) (declared : List String) : List String :=
  declared.foldl enterName names

def putAt {α : Type} (items : List α) (i : Nat) (item : α) : List α :=
  if i < items.length then items.set i item else items ++ [item]

theorem getElem?_putAt {α : Type} {items : List α} {i : Nat} (item : α)
    (hi : i ≤ items.length) (j : Nat) :
    (putAt items i item)[j]? = if j = i then some item else items[j]? := by
  unfold putAt
  split
  · rename_i hlt
    rw [List.getElem?_set]
    by_cases hj : i = j
    · subst hj
      simp [hlt]
    · rw [if_neg hj, if_neg (Ne.symm hj)]
  · rename_i hge
    have hlen : i = items.length := by omega
    by_cases hj : j = i
    · subst hj
      simp [hlen]
    · rw [if_neg hj, List.getElem?_append]
      split
      · rfl
      · have hout : items.length ≤ j := by omega
        have hgt : j - items.length ≠ 0 := by omega
        simp [List.getElem?_eq_none hout, hgt]

theorem map_putAt {α β : Type} (f : α → β) (items : List α) (i : Nat) (item : α) :
    (putAt items i item).map f = putAt (items.map f) i (f item) := by
  unfold putAt
  rw [List.length_map]
  split
  · exact List.map_set
  · simp

theorem length_putAt {α : Type} (items : List α) (i : Nat) (item : α) :
    (putAt items i item).length = if i < items.length then items.length else items.length + 1 := by
  unfold putAt
  split <;> simp

theorem mem_enterName (names : List String) (name x : String) :
    x ∈ enterName names name ↔ x ∈ names ∨ x = name := by
  unfold enterName
  split
  · rename_i hmem
    constructor
    · exact Or.inl
    · rintro (hx | rfl)
      · exact hx
      · exact hmem
  · simp

theorem prefix_enterName (names : List String) (name : String) :
    names <+: enterName names name := by
  unfold enterName
  split
  · exact List.prefix_rfl
  · exact List.prefix_append _ _

theorem prefix_enterNames (names declared : List String) : names <+: enterNames names declared := by
  induction declared generalizing names with
  | nil => exact List.prefix_rfl
  | cons name declared ih => exact (prefix_enterName names name).trans (ih _)

/-- The position of a declared name, among the known ones or right behind them. -/
theorem exists_position (names : List String) (name : String) :
    ∃ i, i ≤ names.length ∧ (enterName names name)[i]? = some name ∧
      enterName names name = putAt names i name := by
  by_cases hmem : name ∈ names
  · rcases List.getElem?_of_mem hmem with ⟨i, hi⟩
    have hlt : i < names.length := (List.getElem?_eq_some_iff.mp hi).1
    have hset : names.set i name = names := by
      rw [List.getElem?_eq_some_iff] at hi
      rcases hi with ⟨_, rfl⟩
      simp
    exact ⟨i, Nat.le_of_lt hlt, by simpa [enterName, hmem] using hi, by
      simp [enterName, hmem, putAt, hlt, hset]⟩
  · exact ⟨names.length, Nat.le_refl _, by simp [enterName, hmem], by
      simp [enterName, hmem, putAt]⟩

theorem nodup_enterName {names : List String} (hnames : names.Nodup) (name : String) :
    (enterName names name).Nodup := by
  unfold enterName
  split
  · exact hnames
  · rename_i hmem
    rw [List.nodup_append]
    refine ⟨hnames, by simp, ?_⟩
    intro a ha b hb
    rw [List.mem_singleton] at hb
    rintro rfl
    exact hmem (hb ▸ ha)

/-!
# Places that a list has
-/

theorem replaceAt_eq_ok_iff {α : Type} {items items' : List α} {position? : Int → Option Nat}
    {offset : Int} {a : α} : replaceAt items position? offset a = .ok items' ↔
      ∃ i, position? offset = some i ∧ i < items.length ∧ items' = items.set i a := by
  unfold replaceAt
  cases position? offset with
  | none => simp
  | some i =>
      by_cases hi : i < items.length
      · simp [Option.filter, hi, eq_comm]
      · simp [Option.filter, hi]

theorem replaceAt_missing {α : Type} {items : List α} {position? : Int → Option Nat} {offset : Int}
    (h : position? offset = none) (item : α) :
    replaceAt items position? offset item = .error (.missing { offset, size := items.length }) := by
  rw [replaceAt, h, Option.filter_none]

theorem fieldPosition?_field (i : Nat) : fieldPosition? (-((i : Int) + 1)) = some i := by
  unfold fieldPosition?
  rw [if_pos (by omega)]
  congr 1
  omega

theorem slotPosition?_slot (slot : Nat) : slotPosition? slot = some slot :=
  if_pos (Int.natCast_nonneg slot)

theorem slotPosition?_field {offset : Int} (h : offset < 0) : slotPosition? offset = none :=
  if_neg (Int.not_le.mpr h)

/-!
# Tables with named positions
-/

/-- The binding of the field at a position. -/
def Binding.ofField (i : Nat) (ty : Ty) : Binding :=
  { level := objectLevel, ty, offset := -((i : Int) + 1) }

/-- The binding of the method in a slot. -/
def Binding.ofMethod (slot : Nat) (signature : Signature) : Binding :=
  { level := objectLevel, ty := .method signature, offset := slot }

namespace MemberTable

def methodNames (t : MemberTable) : List String :=
  t.dispatch.map DispatchEntry.name

/-- The fields of the table bear the given names, in the order of their positions. -/
structure Named (t : MemberTable) (fields : List String) : Prop where
  length_fields : fields.length = t.fields.length
  nodup : (fields ++ t.methodNames).Nodup
  field : ∀ (i : Nat) (x : String) (ty : Ty), fields[i]? = some x → t.fields[i]? = some ty →
    t.member? x = some (.ofField i ty)
  method : ∀ (s : Nat) (e : DispatchEntry), t.dispatch[s]? = some e →
    t.member? e.name = some (.ofMethod s e.signature)
  named : ∀ x b, t.member? x = some b → x ∈ fields ∨ x ∈ t.methodNames

theorem named_empty : empty.Named [] where
  length_fields := rfl
  nodup := List.nodup_nil
  field := by
    intro i x ty hx
    simp at hx
  method := by
    intro s e he
    simp [empty] at he
  named := by
    intro x b hb
    simp [member?, empty] at hb

namespace Named

variable {t t' : MemberTable} {fields : List String}

theorem not_mem_both (ht : t.Named fields) {x : String} (hfield : x ∈ fields)
    (hmethod : x ∈ t.methodNames) : False :=
  (List.nodup_append.mp ht.nodup).2.2 x hfield x hmethod rfl

/-- What a name of a member is bound to. -/
theorem member_cases (ht : t.Named fields) {x : String} {b : Binding}
    (hb : t.member? x = some b) :
    (∃ (i : Nat) (ty : Ty), fields[i]? = some x ∧ t.fields[i]? = some ty ∧ b = .ofField i ty) ∨
    (∃ (s : Nat) (e : DispatchEntry), t.dispatch[s]? = some e ∧ e.name = x ∧
      b = .ofMethod s e.signature) := by
  rcases ht.named x b hb with hx | hx
  · rcases List.getElem?_of_mem hx with ⟨i, hi⟩
    have hlt : i < t.fields.length := by
      rw [← ht.length_fields]
      exact (List.getElem?_eq_some_iff.mp hi).1
    have hty : t.fields[i]? = some t.fields[i] := List.getElem?_eq_getElem hlt
    have hbound := ht.field i x _ hi hty
    rw [hb, Option.some.injEq] at hbound
    exact Or.inl ⟨i, _, hi, hty, hbound⟩
  · rcases List.mem_map.mp hx with ⟨e, he, rfl⟩
    rcases List.getElem?_of_mem he with ⟨s, hs⟩
    have hbound := ht.method s e hs
    rw [hb, Option.some.injEq] at hbound
    exact Or.inr ⟨s, e, hs, rfl, hbound⟩

theorem member?_eq_none (ht : t.Named fields) {x : String} (hx : t.member? x = none) :
    x ∉ fields ∧ x ∉ t.methodNames := by
  constructor
  · intro hmem
    rcases List.getElem?_of_mem hmem with ⟨i, hi⟩
    have hlt : i < t.fields.length := by
      rw [← ht.length_fields]
      exact (List.getElem?_eq_some_iff.mp hi).1
    rw [ht.field i x _ hi (List.getElem?_eq_getElem hlt)] at hx
    cases hx
  · intro hmem
    rcases List.mem_map.mp hmem with ⟨e, he, rfl⟩
    rcases List.getElem?_of_mem he with ⟨s, hs⟩
    rw [ht.method s e hs] at hx
    cases hx

/-!
# Declaring members
-/

/-- Writes a field to the position of its name. -/
theorem bindField (ht : t.Named fields) {name : String} (ty : Ty) {i : Nat}
    (hi : i ≤ fields.length) (hat : (enterName fields name)[i]? = some name)
    (hput : enterName fields name = putAt fields i name) (hname : name ∉ t.methodNames) :
    (t.bindField name ty (-((i : Int) + 1)) (putAt t.fields i ty)).Named
      (enterName fields name) := by
  have hlen := ht.length_fields
  have hnodup : (enterName fields name).Nodup :=
    nodup_enterName (List.nodup_append.mp ht.nodup).1 name
  constructor
  · simp only [MemberTable.bindField, hput, length_putAt, hlen]
  · show (enterName fields name ++ t.methodNames).Nodup
    rw [List.nodup_append]
    refine ⟨hnodup, (List.nodup_append.mp ht.nodup).2.1, ?_⟩
    rintro x hx y hy rfl
    rcases (mem_enterName _ _ _).mp hx with hx | rfl
    · exact ht.not_mem_both hx hy
    · exact hname hy
  · intro j x fieldTy hx hty
    simp only [MemberTable.bindField, member?, NameMap.find?_insert] at hty ⊢
    rw [getElem?_putAt ty (hlen ▸ hi)] at hty
    by_cases hj : j = i
    · subst hj
      rw [hat, Option.some.injEq] at hx
      rw [if_pos rfl, Option.some.injEq] at hty
      rw [if_pos hx.symm, ← hty]
      rfl
    · have hne : x ≠ name := by
        rintro rfl
        exact hj ((List.getElem?_inj (List.getElem?_eq_some_iff.mp hx).1 hnodup).mp
          (hx.trans hat.symm))
      rw [if_neg hj] at hty
      rw [hput, getElem?_putAt name hi, if_neg hj] at hx
      rw [if_neg hne]
      exact ht.field j x fieldTy hx hty
  · intro s e he
    have hne : e.name ≠ name := by
      rintro rfl
      exact hname (List.mem_map_of_mem (List.mem_of_getElem? he))
    simp only [MemberTable.bindField, member?, NameMap.find?_insert, if_neg hne]
    exact ht.method s e he
  · intro x b hb
    simp only [MemberTable.bindField, member?, NameMap.find?_insert] at hb
    by_cases hx : x = name
    · exact Or.inl ((mem_enterName _ _ _).mpr (Or.inr hx))
    · rw [if_neg hx] at hb
      rcases ht.named x b hb with hmem | hmem
      · exact Or.inl ((mem_enterName _ _ _).mpr (Or.inl hmem))
      · exact Or.inr hmem

theorem addField (ht : t.Named fields) {name : String} {ty : Ty} {offset : Int}
    (hadd : t.addField name ty = .ok (offset, t')) :
    ∃ i, i ≤ t.fields.length ∧ (enterName fields name)[i]? = some name ∧
      offset = -((i : Int) + 1) ∧ t'.fields = putAt t.fields i ty ∧
      t'.dispatch = t.dispatch ∧ t'.Named (enterName fields name) := by
  have hlen := ht.length_fields
  unfold MemberTable.addField at hadd
  cases hfind : t.member? name with
  | none =>
      rw [hfind] at hadd
      simp only [Except.ok.injEq, Prod.mk.injEq] at hadd
      rcases hadd with ⟨rfl, rfl⟩
      rcases ht.member?_eq_none hfind with ⟨hfield, hmethod⟩
      have hput : putAt t.fields t.fields.length ty = t.fields ++ [ty] := by simp [putAt]
      have hbind := ht.bindField ty (i := fields.length) (Nat.le_refl _)
        (by simp [enterName, hfield]) (by simp [enterName, hfield, putAt]) hmethod
      rw [hlen, hput] at hbind
      have hoffset : (-((t.fields ++ [ty]).length : Int)) = -((t.fields.length : Int) + 1) := by
        simp
      rw [hoffset]
      exact ⟨t.fields.length, Nat.le_refl _, by simp [enterName, hfield, ← hlen], rfl,
        hput.symm, rfl, hbind⟩
  | some known =>
      rw [hfind] at hadd
      rcases ht.member_cases hfind with ⟨i, old, hat, hold, rfl⟩ | ⟨s, e, _, _, rfl⟩
      · have hlt : i < t.fields.length := (List.getElem?_eq_some_iff.mp hold).1
        have hmem : name ∈ fields := List.mem_of_getElem? hat
        have hreplaced := (replaceAt_eq_ok_iff (a := ty)).mpr
          ⟨i, fieldPosition?_field i, hlt, rfl⟩
        simp only [Binding.ofField, hreplaced] at hadd
        split at hadd
        · cases hadd
        · cases hadd
          have hset : putAt t.fields i ty = t.fields.set i ty := by simp [putAt, hlt]
          have hname : name ∉ t.methodNames := fun hmethod => ht.not_mem_both hmem hmethod
          have hat' : (enterName fields name)[i]? = some name := by
            simpa [enterName, hmem] using hat
          have hput : enterName fields name = putAt fields i name := by
            rcases List.getElem?_eq_some_iff.mp hat with ⟨hfi, rfl⟩
            simp [enterName, putAt, hfi]
          have hbind := ht.bindField ty (hlen ▸ Nat.le_of_lt hlt) hat' hput hname
          rw [hset] at hbind
          exact ⟨i, Nat.le_of_lt hlt, hat', rfl, hset.symm, rfl, hbind⟩
      · simp [Binding.ofMethod, Ty.isMethod] at hadd

/-- Writes a method to the slot of its name. -/
theorem bindMethod (ht : t.Named fields) {name : String} (signature : Signature) {slot : Nat}
    (hslot : slot ≤ t.dispatch.length)
    (hat : (enterName t.methodNames name)[slot]? = some name)
    (hput : enterName t.methodNames name = putAt t.methodNames slot name)
    (hname : name ∉ fields) :
    (t.bindMethod name signature slot
      (putAt t.dispatch slot { name, signature })).Named fields := by
  have hnames : (putAt t.dispatch slot { name, signature }).map DispatchEntry.name =
      enterName t.methodNames name := by
    rw [map_putAt, hput]
    rfl
  have hnodup : (enterName t.methodNames name).Nodup :=
    nodup_enterName (List.nodup_append.mp ht.nodup).2.1 name
  have hlen : t.methodNames.length = t.dispatch.length := by simp [methodNames]
  constructor
  · exact ht.length_fields
  · show (fields ++ (putAt t.dispatch slot { name, signature }).map DispatchEntry.name).Nodup
    rw [hnames, List.nodup_append]
    refine ⟨(List.nodup_append.mp ht.nodup).1, hnodup, ?_⟩
    rintro x hx y hy rfl
    rcases (mem_enterName _ _ _).mp hy with hy | rfl
    · exact ht.not_mem_both hx hy
    · exact hname hx
  · intro i x ty hx hty
    have hne : x ≠ name := by
      rintro rfl
      exact hname (List.mem_of_getElem? hx)
    simp only [MemberTable.bindMethod, member?, NameMap.find?_insert, if_neg hne]
    exact ht.field i x ty hx hty
  · intro s e he
    simp only [MemberTable.bindMethod, member?, NameMap.find?_insert] at he ⊢
    have hes : (enterName t.methodNames name)[s]? = some e.name := by
      rw [← hnames, List.getElem?_map, he]
      rfl
    rw [getElem?_putAt _ hslot] at he
    by_cases hs : s = slot
    · rw [if_pos hs, Option.some.injEq] at he
      subst hs he
      rw [if_pos rfl]
      rfl
    · have hne : e.name ≠ name := by
        intro heq
        rw [heq] at hes
        exact hs ((List.getElem?_inj (List.getElem?_eq_some_iff.mp hes).1 hnodup).mp
          (hes.trans hat.symm))
      rw [if_neg hs] at he
      rw [if_neg hne]
      exact ht.method s e he
  · intro x b hb
    simp only [MemberTable.bindMethod, member?, NameMap.find?_insert] at hb
    show x ∈ fields ∨ x ∈ (putAt t.dispatch slot { name, signature }).map DispatchEntry.name
    rw [hnames]
    by_cases hx : x = name
    · exact Or.inr ((mem_enterName _ _ _).mpr (Or.inr hx))
    · rw [if_neg hx] at hb
      rcases ht.named x b hb with hmem | hmem
      · exact Or.inl hmem
      · exact Or.inr ((mem_enterName _ _ _).mpr (Or.inl hmem))

theorem bindMethod_effect (ht : t.Named fields) {name : String} (signature : Signature)
    {slot : Nat} (hslot : slot ≤ t.dispatch.length)
    (hat : (enterName t.methodNames name)[slot]? = some name)
    (hput : enterName t.methodNames name = putAt t.methodNames slot name)
    (hname : name ∉ fields)
    (ht' : t' = t.bindMethod name signature slot (putAt t.dispatch slot { name, signature })) :
    slot ≤ t.dispatch.length ∧ t'.methodNames = enterName t.methodNames name ∧
      t'.methodNames[slot]? = some name ∧ t'.dispatch = putAt t.dispatch slot { name, signature } ∧
      t'.fields = t.fields ∧ t'.Named fields := by
  have hnames : t'.methodNames = enterName t.methodNames name := by
    rw [ht', hput]
    exact map_putAt _ _ _ _
  have hnamed := ht.bindMethod signature hslot hat hput hname
  subst ht'
  exact ⟨hslot, hnames, hnames ▸ hat, rfl, rfl, hnamed⟩

theorem addMethod (ht : t.Named fields) {name : String} {signature : Signature} {slot : Nat}
    (hadd : t.addMethod name signature = .ok (slot, t')) :
    slot ≤ t.dispatch.length ∧ t'.methodNames = enterName t.methodNames name ∧
      t'.methodNames[slot]? = some name ∧ t'.dispatch = putAt t.dispatch slot { name, signature } ∧
      t'.fields = t.fields ∧ t'.Named fields := by
  have hlen : t.methodNames.length = t.dispatch.length := by simp [methodNames]
  unfold MemberTable.addMethod at hadd
  cases hfind : t.member? name with
  | none =>
      rw [hfind] at hadd
      simp only [Except.ok.injEq, Prod.mk.injEq] at hadd
      rcases hadd with ⟨rfl, rfl⟩
      rcases ht.member?_eq_none hfind with ⟨hfield, hmethod⟩
      refine ht.bindMethod_effect signature (Nat.le_refl _) (by simp [enterName, hmethod, ← hlen])
        (by simp [enterName, hmethod, putAt, ← hlen]) hfield ?_
      simp [putAt]
  | some known =>
      rw [hfind] at hadd
      rcases ht.member_cases hfind with ⟨i, old, _, _, rfl⟩ | ⟨s, e, he, rfl, rfl⟩
      · have hneg : -((i : Int) + 1) < 0 := by omega
        simp only [Binding.ofField, replaceAt_missing (slotPosition?_field hneg)] at hadd
        split at hadd <;> cases hadd
      · have hlt : s < t.dispatch.length := (List.getElem?_eq_some_iff.mp he).1
        have hat : t.methodNames[s]? = some e.name := by
          rw [methodNames, List.getElem?_map, he]
          rfl
        have hmem : e.name ∈ t.methodNames := List.mem_of_getElem? hat
        have hreplaced := (replaceAt_eq_ok_iff (a := { name := e.name, signature })).mpr
          ⟨s, slotPosition?_slot s, hlt, rfl⟩
        simp only [Binding.ofMethod, Ty.isMethod, if_true, hreplaced] at hadd
        cases hadd
        refine ht.bindMethod_effect signature (Nat.le_of_lt hlt)
          (by simpa [enterName, hmem] using hat) ?_
          (fun hfield => ht.not_mem_both hfield hmem) (by simp [putAt, hlt])
        rcases List.getElem?_eq_some_iff.mp hat with ⟨hsi, hname⟩
        simp [enterName, putAt, hsi, ← hname]

/-- Entries under other names keep their slots. -/
theorem addMethod_keeps (ht : t.Named fields) {name : String} {signature : Signature} {slot s : Nat}
    {e : DispatchEntry} (hadd : t.addMethod name signature = .ok (slot, t'))
    (he : t.dispatch[s]? = some e) (hne : e.name ≠ name) : t'.dispatch[s]? = some e := by
  rcases ht.addMethod hadd with ⟨hslot, hnames, hat, hdispatch, _, _⟩
  rw [hdispatch, getElem?_putAt _ hslot]
  split
  · rename_i hs
    subst hs
    have hold : t.methodNames[s]? = some e.name := by
      rw [methodNames, List.getElem?_map, he]
      rfl
    rcases hnames ▸ prefix_enterName t.methodNames name with ⟨new, hnew⟩
    have hlt := (List.getElem?_eq_some_iff.mp hold).1
    rw [← hnew, List.getElem?_append_left hlt, hold, Option.some.injEq] at hat
    exact absurd hat hne
  · exact he

end Named

end MemberTable

end ClassLet
