import ClassLet.Proofs.Members.InheritedLayout

/-!
# Editing member tables

Members are added to a table in place: the type of a field goes to its position, or the entry of a
method to its slot, and then the name is bound to that place. An addition may be refused, and tables
may be copied and edited apart from each other.

Main statements: `TableEdit.field_run` and `TableEdit.method_run`, the edits do what adding to a
table does and one that fails does nothing, and `MemberTable.agrees_of_edits`, the names of a table,
its fields and its slots agree after any edits as long as no field has the type of a method.
-/

namespace ClassLet

/-!
# One effect after the other
-/

/-- Edits of a table, which may fail on the way. -/
abbrev TableEdit :=
  EStateM MemberFault MemberTable

namespace TableEdit

def bindName (name : String) (ty : Ty) (offset : Int) : TableEdit Unit :=
  modify fun t =>
    let entry : Binding := { level := objectLevel, ty, offset }
    { t with members := t.members.insert name entry }

def replaceField (offset : Int) (ty : Ty) : TableEdit Unit := do
  match replaceAt (← get).fields fieldPosition? offset ty with
  | .ok fields => modify fun t => { t with fields }
  | .error fault => throw fault

def appendField (ty : Ty) : TableEdit Int := do
  modify fun t => { t with fields := t.fields ++ [ty] }
  return -((← get).fields.length : Int)

/-- Adds a field and gives its offset. -/
def field (name : String) (ty : Ty) : TableEdit Int := do
  match (← get).member? name with
  | some known =>
      if known.ty.isMethod then
        throw (.clash .fieldOverMethod)
      else
        replaceField known.offset ty
        bindName name ty known.offset
        return known.offset
  | none =>
      let offset ← appendField ty
      bindName name ty offset
      return offset

def replaceSlot (offset : Int) (entry : DispatchEntry) : TableEdit Unit := do
  match replaceAt (← get).dispatch slotPosition? offset entry with
  | .ok dispatch => modify fun t => { t with dispatch }
  | .error fault => throw fault

def appendSlot (entry : DispatchEntry) : TableEdit Nat := do
  modify fun t => { t with dispatch := t.dispatch ++ [entry] }
  return (← get).dispatch.length - 1

/-- Adds a method and gives its slot. -/
def method (name : String) (signature : Signature) : TableEdit Nat := do
  match (← get).member? name with
  | some known =>
      if known.ty.isMethod then
        replaceSlot known.offset { name, signature }
        let slot := known.offset.toNat
        bindName name (.method signature) slot
        return slot
      else
        throw (.clash .methodOverField)
  | none =>
      let slot ← appendSlot { name, signature }
      bindName name (.method signature) slot
      return slot

/-- What an edit comes to: the table that is left if it fails is the one from before. -/
def outcome {α : Type} (t : MemberTable) :
    Except MemberFault (α × MemberTable) → EStateM.Result MemberFault MemberTable α
  | .ok (a, t') => .ok a t'
  | .error fault => .error fault t

theorem field_run (name : String) (ty : Ty) (t : MemberTable) :
    (field name ty).run t = outcome t (t.addField name ty) := by
  unfold MemberTable.addField
  simp only [field, EStateM.run_bind, EStateM.run_get]
  cases t.member? name with
  | none => rfl
  | some known =>
      by_cases hmethod : known.ty.isMethod
      · simp only [hmethod, if_true]
        rfl
      · simp only [hmethod, if_false, replaceField, Bool.false_eq_true, EStateM.run_bind,
          EStateM.run_get]
        cases replaceAt t.fields fieldPosition? known.offset ty <;> rfl

theorem method_run (name : String) (signature : Signature) (t : MemberTable) :
    (method name signature).run t = outcome t (t.addMethod name signature) := by
  unfold MemberTable.addMethod
  simp only [method, EStateM.run_bind, EStateM.run_get]
  cases t.member? name with
  | none =>
      simp only [appendSlot, bindName, EStateM.run_bind, EStateM.run_modify, EStateM.run_get,
        EStateM.run_pure, List.length_append, List.length_singleton, Nat.add_sub_cancel]
      rfl
  | some known =>
      by_cases hmethod : known.ty.isMethod
      · simp only [hmethod, if_true, replaceSlot, EStateM.run_bind, EStateM.run_get]
        cases replaceAt t.dispatch slotPosition? known.offset { name, signature } <;> rfl
      · simp only [hmethod, if_false, Bool.false_eq_true]
        rfl

theorem outcome_failed {α : Type} {t t' : MemberTable} {fault : MemberFault}
    {added : Except MemberFault (α × MemberTable)} (h : outcome t added = .error fault t') :
    t' = t := by
  cases added with
  | ok done => cases h
  | error _ =>
      cases h
      rfl

end TableEdit

/-!
# Additions
-/

/-- The addition of a member to a table. -/
inductive Addition where
  | field (name : String) (ty : Ty)
  | method (name : String) (signature : Signature)

namespace Addition

/-- Gives the place of the member. -/
def perform : Addition → TableEdit Int
  | field name ty => TableEdit.field name ty
  | method name signature => do
      let slot ← TableEdit.method name signature
      return (slot : Int)

/-- One after the other, until one fails. -/
def performAll : List Addition → TableEdit Unit
  | [] => return
  | a :: rest => do
      let _ ← a.perform
      performAll rest

/-- The type that the addition declares a field of this name with. -/
def fieldType? (name : String) : Addition → Option Ty
  | field declared ty => if declared = name then some ty else none
  | method _ _ => none

/-- The member is no field with the type of a method. -/
def Plain : Addition → Prop
  | field _ ty => ty.isMethod = false
  | method _ _ => True

end Addition

namespace TableEdit

variable {t t' : MemberTable} {name : String}

/-- An addition that is completed, as one to the table that it leaves. -/
theorem perform_ok {a : Addition} {place : Int} (h : a.perform.run t = .ok place t') :
    (∃ name ty, a = .field name ty ∧ t.addField name ty = .ok (place, t')) ∨
      ∃ name signature slot, a = .method name signature ∧ place = (slot : Nat) ∧
        t.addMethod name signature = .ok (slot, t') := by
  cases a with
  | field name ty =>
      change (field name ty).run t = _ at h
      rw [field_run] at h
      cases hadd : t.addField name ty with
      | error clash =>
          rw [hadd] at h
          cases h
      | ok added =>
          rw [hadd] at h
          cases h
          exact Or.inl ⟨name, ty, rfl, hadd⟩
  | method name signature =>
      change (method name signature >>= fun slot => Pure.pure (slot : Int)).run t = _ at h
      rw [EStateM.run_bind, method_run] at h
      cases hadd : t.addMethod name signature with
      | error clash =>
          rw [hadd] at h
          cases h
      | ok added =>
          rw [hadd] at h
          cases h
          exact Or.inr ⟨name, signature, added.1, rfl, rfl, hadd⟩

/-- An addition that fails has changed nothing. -/
theorem perform_failed {a : Addition} {fault : MemberFault}
    (h : a.perform.run t = .error fault t') : t' = t := by
  cases a with
  | field name ty =>
      change (field name ty).run t = _ at h
      rw [field_run] at h
      exact outcome_failed h
  | method name signature =>
      change (method name signature >>= fun slot => Pure.pure (slot : Int)).run t = _ at h
      rw [EStateM.run_bind, method_run] at h
      cases hadd : t.addMethod name signature with
      | error _ =>
          rw [hadd] at h
          cases h
          rfl
      | ok added =>
          rw [hadd] at h
          cases h

end TableEdit

namespace Addition

/-- The table that the addition leaves, whether it is completed or fails. -/
def after (a : Addition) (t : MemberTable) : MemberTable :=
  match a.perform.run t with
  | .ok _ t' => t'
  | .error _ t' => t'

end Addition

/-!
# Rows of tables
-/

/-- An edit of a row of tables, which are known by their positions; a copy goes to the end. -/
inductive RowEdit where
  | copy (source : Nat)
  | add (target : Nat) (addition : Addition)

namespace RowEdit

def apply (row : List MemberTable) : RowEdit → List MemberTable
  | copy source => row ++ row[source]?.toList
  | add target addition => row.modify target addition.after

/-- The row that the edits make of one empty table. -/
def row (edits : List RowEdit) : List MemberTable :=
  edits.foldl apply [MemberTable.empty]

def Plain : RowEdit → Prop
  | copy _ => True
  | add _ addition => addition.Plain

end RowEdit

namespace MemberTable

variable {t t' : MemberTable}

/-!
# Tables without fields of method type
-/

/-- The names of the fields are known, and none of them has the type of a method. -/
def Kept (t : MemberTable) : Prop :=
  (∃ names, t.Named names) ∧ t.Plain

theorem kept_empty : empty.Kept :=
  ⟨⟨[], named_empty⟩, fun _ h => nomatch h⟩

theorem Kept.after (h : t.Kept) {a : Addition} (ha : a.Plain) : (a.after t).Kept := by
  rcases h with ⟨⟨names, hnamed⟩, hplain⟩
  unfold Addition.after
  cases hrun : a.perform.run t with
  | error fault t' =>
      obtain rfl := TableEdit.perform_failed hrun
      exact ⟨⟨names, hnamed⟩, hplain⟩
  | ok place t' =>
      rcases TableEdit.perform_ok hrun with
        ⟨name, ty, rfl, hadd⟩ | ⟨name, signature, slot, rfl, _, hadd⟩
      · rcases hnamed.addField hadd with ⟨i, hi, _, _, hfields, _, hnamed'⟩
        refine ⟨⟨_, hnamed'⟩, ?_⟩
        intro fieldTy hmem
        rcases List.getElem?_of_mem hmem with ⟨j, hj⟩
        rw [hfields, getElem?_putAt ty hi] at hj
        split at hj
        · cases hj
          exact ha
        · exact hplain fieldTy (List.mem_of_getElem? hj)
      · rcases hnamed.addMethod hadd with ⟨_, _, _, _, hfields, hnamed'⟩
        exact ⟨⟨names, hnamed'⟩, fun ty hty => hplain ty (hfields ▸ hty)⟩

theorem Kept.apply {row : List MemberTable} (hrow : ∀ t ∈ row, t.Kept) {edit : RowEdit}
    (hedit : edit.Plain) : ∀ t ∈ edit.apply row, t.Kept := by
  intro t ht
  cases edit with
  | copy source =>
      rcases List.mem_append.mp ht with ht | ht
      · exact hrow t ht
      · exact hrow t (List.mem_of_getElem? (Option.mem_toList.mp ht))
  | add target addition =>
      rcases List.getElem?_of_mem ht with ⟨j, hj⟩
      rw [RowEdit.apply, List.getElem?_modify, Option.map_eq_map, Option.map_eq_some_iff] at hj
      rcases hj with ⟨old, hold, rfl⟩
      have hkept := hrow old (List.mem_of_getElem? hold)
      split
      · exact hkept.after hedit
      · exact hkept

theorem kept_row {edits : List RowEdit} (hplain : ∀ edit ∈ edits, edit.Plain) :
    ∀ t ∈ RowEdit.row edits, t.Kept := by
  suffices h : ∀ row : List MemberTable, (∀ t ∈ row, t.Kept) →
      ∀ t ∈ edits.foldl RowEdit.apply row, t.Kept from
    h [empty] fun t ht => List.mem_singleton.mp ht ▸ kept_empty
  induction edits with
  | nil => exact fun row hrow => hrow
  | cons edit rest ih =>
      intro row hrow
      exact ih (fun e he => hplain e (List.mem_cons_of_mem _ he)) _
        (Kept.apply hrow (hplain edit List.mem_cons_self))

/-!
# What the names, the slots and the fields say
-/

/-- The name is bound to the offset. -/
def Holds (t : MemberTable) (name : String) (offset : Int) : Prop :=
  ∃ b, t.member? name = some b ∧ b.offset = offset

/-- Names, slots and fields say the same: a slot is the offset of the method that it names, the
position of a field is told by its offset, and every place has one name. -/
structure Agrees (t : MemberTable) : Prop where
  method_iff : ∀ (name : String) (signature : Signature) (offset : Int),
    (∃ b, t.member? name = some b ∧ b.ty = .method signature ∧ b.offset = offset) ↔
      ∃ slot : Nat, offset = slot ∧ t.dispatch[slot]? = some { name, signature }
  field : ∀ name b, t.member? name = some b → b.ty.isMethod = false →
    ∃ i : Nat, b.offset = -((i : Int) + 1) ∧ t.fields[i]? = some b.ty
  apart : ∀ name name' offset, t.Holds name offset → t.Holds name' offset → name = name'
  slot_owner : ∀ slot : Nat, slot < t.dispatch.length → ∃! name, t.Holds name slot
  field_owner : ∀ i : Nat, i < t.fields.length → ∃! name, t.Holds name (-((i : Int) + 1))
  level : ∀ name b, t.member? name = some b → b.level = 1

/-- Declaring a member again as what it is keeps its place and adds none. -/
structure KeepsPlaces (t : MemberTable) : Prop where
  field : ∀ name b, t.member? name = some b → b.ty.isMethod = false → ∀ ty, ∃ t',
    (TableEdit.field name ty).run t = .ok b.offset t' ∧ t'.member? name = some { b with ty } ∧
      t'.fields.length = t.fields.length ∧ t'.dispatch.length = t.dispatch.length
  method : ∀ name b, t.member? name = some b → b.ty.isMethod = true → ∀ signature, ∃ slot t',
    (TableEdit.method name signature).run t = .ok slot t' ∧ b.offset = (slot : Nat) ∧
      t'.member? name = some { b with ty := .method signature } ∧
      t'.fields.length = t.fields.length ∧ t'.dispatch.length = t.dispatch.length

theorem Named.holds_inj {names : List String} (ht : t.Named names) {x y : String} {offset : Int}
    (hx : t.Holds x offset) (hy : t.Holds y offset) : x = y := by
  rcases hx with ⟨b, hb, rfl⟩
  rcases hy with ⟨c, hc, hoffset⟩
  rcases ht.member_cases hb with ⟨i, ty, hi, _, rfl⟩ | ⟨s, e, he, rfl, rfl⟩
  · rcases ht.member_cases hc with ⟨j, ty', hj, _, rfl⟩ | ⟨k, e', _, _, rfl⟩
    · simp only [Binding.ofField] at hoffset
      obtain rfl : j = i := by omega
      rw [hi] at hj
      exact Option.some.inj hj
    · simp only [Binding.ofField, Binding.ofMethod] at hoffset
      omega
  · rcases ht.member_cases hc with ⟨j, ty', _, _, rfl⟩ | ⟨k, e', he', rfl, rfl⟩
    · simp only [Binding.ofField, Binding.ofMethod] at hoffset
      omega
    · simp only [Binding.ofMethod] at hoffset
      obtain rfl : k = s := by omega
      rw [he] at he'
      rw [Option.some.inj he']

theorem Named.agrees {names : List String} (ht : t.Named names) (hplain : t.Plain) : t.Agrees where
  method_iff := by
    intro name signature offset
    constructor
    · rintro ⟨b, hb, hty, rfl⟩
      rcases ht.member_cases hb with ⟨i, ty, _, hfield, rfl⟩ | ⟨slot, e, he, rfl, rfl⟩
      · change ty = _ at hty
        have hmethod := hplain ty (List.mem_of_getElem? hfield)
        rw [hty] at hmethod
        cases hmethod
      · cases hty
        exact ⟨slot, rfl, he⟩
    · rintro ⟨slot, rfl, he⟩
      exact ⟨_, ht.method _ _ he, rfl, rfl⟩
  field := by
    intro name b hb hfield
    rcases ht.member_cases hb with ⟨i, ty, _, hty, rfl⟩ | ⟨slot, e, _, _, rfl⟩
    · exact ⟨i, rfl, hty⟩
    · cases hfield
  apart := fun name name' offset => ht.holds_inj
  slot_owner := by
    intro slot hlt
    have hbound := ht.method slot _ (List.getElem?_eq_getElem hlt)
    have hheld : t.Holds t.dispatch[slot].name slot := ⟨_, hbound, rfl⟩
    exact ⟨_, hheld, fun other hother => ht.holds_inj hother hheld⟩
  field_owner := by
    intro i hlt
    have hlt' : i < names.length := ht.length_fields ▸ hlt
    have hbound := ht.field i _ _ (List.getElem?_eq_getElem hlt') (List.getElem?_eq_getElem hlt)
    have hheld : t.Holds names[i] (-((i : Int) + 1)) := ⟨_, hbound, rfl⟩
    exact ⟨_, hheld, fun other hother => ht.holds_inj hother hheld⟩
  level := by
    intro name b hb
    rcases ht.member_cases hb with ⟨i, ty, _, _, rfl⟩ | ⟨slot, e, _, _, rfl⟩ <;> rfl

/-!
# Members that are known
-/

theorem addField_known {name : String} {b : Binding} (hb : t.member? name = some b)
    (hfield : b.ty.isMethod = false) {i : Nat} (hi : b.offset = -((i : Int) + 1))
    (hlt : i < t.fields.length) (ty : Ty) :
    ∃ t', t.addField name ty = .ok (b.offset, t') ∧
      t'.member? name = some { level := objectLevel, ty, offset := b.offset } ∧
      t'.fields.length = t.fields.length ∧ t'.dispatch = t.dispatch := by
  have hreplaced := (replaceAt_eq_ok_iff (a := ty)).mpr ⟨i, hi ▸ fieldPosition?_field i, hlt, rfl⟩
  unfold addField
  simp only [hb, hfield, Bool.false_eq_true, if_false, hreplaced]
  exact ⟨_, rfl, NameMap.find?_insert_self _ _ _, List.length_set, rfl⟩

theorem addMethod_known {name : String} {b : Binding} (hb : t.member? name = some b)
    (hmethod : b.ty.isMethod = true) {slot : Nat} (hslot : b.offset = slot)
    (hlt : slot < t.dispatch.length) (signature : Signature) :
    ∃ t', t.addMethod name signature = .ok (slot, t') ∧
      t'.member? name =
        some { level := objectLevel, ty := .method signature, offset := (slot : Nat) } ∧
      t'.fields = t.fields ∧ t'.dispatch.length = t.dispatch.length := by
  have hreplaced := (replaceAt_eq_ok_iff (a := { name, signature })).mpr
    ⟨slot, slotPosition?_slot slot, hlt, rfl⟩
  unfold addMethod
  simp only [hb, hmethod, hslot, if_true, hreplaced, Int.toNat_natCast]
  exact ⟨_, rfl, NameMap.find?_insert_self _ _ _, rfl, List.length_set⟩

theorem Agrees.keepsPlaces (h : t.Agrees) : t.KeepsPlaces where
  field := by
    intro name b hb hfield ty
    have hlevel : objectLevel = b.level := (h.level name b hb).symm
    rcases h.field name b hb hfield with ⟨i, hi, hty⟩
    rcases addField_known hb hfield hi (List.getElem?_eq_some_iff.mp hty).1 ty with
      ⟨t', hadd, hmember, hfields, hdispatch⟩
    rw [hlevel] at hmember
    refine ⟨t', ?_, hmember, hfields, congrArg List.length hdispatch⟩
    rw [TableEdit.field_run, hadd]
    rfl
  method := by
    intro name b hb hmethod signature
    have hlevel : objectLevel = b.level := (h.level name b hb).symm
    obtain ⟨bound, hty⟩ : ∃ bound, b.ty = .method bound := by
      cases hty : b.ty with
      | method bound => exact ⟨bound, rfl⟩
      | _ =>
          rw [hty] at hmethod
          cases hmethod
    rcases (h.method_iff name bound b.offset).mp ⟨b, hb, hty, rfl⟩ with ⟨slot, hslot, he⟩
    rcases addMethod_known hb hmethod hslot (List.getElem?_eq_some_iff.mp he).1 signature with
      ⟨t', hadd, hmember, hfields, hdispatch⟩
    rw [hlevel, ← hslot] at hmember
    refine ⟨slot, t', ?_, hslot, hmember, congrArg List.length hfields, hdispatch⟩
    rw [TableEdit.method_run, hadd]
    rfl

/-- The edits may copy tables, redeclare members and fail; a table is as it was before an addition
that fails, whatever its members. -/
theorem agrees_of_edits {edits : List RowEdit} (hplain : ∀ edit ∈ edits, edit.Plain) {k : Nat}
    (ht : (RowEdit.row edits)[k]? = some t) :
    t.Agrees ∧ t.KeepsPlaces ∧
      ∀ (addition : Addition) fault t', addition.perform.run t = .error fault t' → t' = t := by
  rcases kept_row hplain t (List.mem_of_getElem? ht) with ⟨⟨names, hnamed⟩, hfields⟩
  have hagrees := hnamed.agrees hfields
  exact ⟨hagrees, hagrees.keepsPlaces, fun _ _ _ hrun => TableEdit.perform_failed hrun⟩

/-- The copy of a table gets a narrower field and one more method, and refuses a field that has the
name of a method. -/
theorem agrees_of_edits_copying :
    let getter : Signature := { params := [], result := .int }
    let edits : List RowEdit := [.add 0 (.field "x" .int), .add 0 (.method "m" getter), .copy 0,
      .add 1 (.field "x" .bool), .add 1 (.field "m" .int), .add 1 (.method "n" getter)]
    (∀ edit ∈ edits, edit.Plain) ∧ ∃ t, (RowEdit.row edits)[1]? = some t ∧
      t.fields = [.bool] ∧ t.methodNames = ["m", "n"] ∧ t.Agrees ∧ t.KeepsPlaces ∧
      ∀ (addition : Addition) fault t', addition.perform.run t = .error fault t' → t' = t := by
  intro getter edits
  have hplain : ∀ edit ∈ edits, edit.Plain := by
    simp [edits, RowEdit.Plain, Addition.Plain, Ty.isMethod]
  exact ⟨hplain, _, rfl, rfl, rfl, agrees_of_edits hplain (k := 1) rfl⟩

end MemberTable

end ClassLet
