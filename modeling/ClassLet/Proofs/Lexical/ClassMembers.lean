import ClassLet.Proofs.Lexical.Resolver
import ClassLet.Proofs.Linkage.ClassDeclaration

/-!
# Members and member tables

The member table of a class is built by looking a name up and writing to the position that was
found. What comes out is described by the members of the class in the order in which their names
were first declared.

Main statements: `Describes.find?` and `Environment.plan_describes`.
-/

namespace ClassLet

/-!
# Writing to entries
-/

/-- Writing under a name is writing to its position. -/
theorem NameMap.overwrite_eq_putAt {α : Type} (name : String) (value : α)
    (entries : List (String × α)) (hnodup : (entries.map Prod.fst).Nodup) {i : Nat}
    (hi : i ≤ entries.length) (hat : (enterName (entries.map Prod.fst) name)[i]? = some name) :
    overwrite name value entries = putAt entries i (name, value) := by
  induction entries generalizing i with
  | nil =>
      obtain rfl : i = 0 := Nat.le_zero.mp hi
      rfl
  | cons e rest ih =>
      rcases e with ⟨k, v⟩
      simp only [List.map_cons, List.nodup_cons] at hnodup
      by_cases hk : name = k
      · subst hk
        have hzero : i = 0 := by
          cases i with
          | zero => rfl
          | succ i =>
              simp only [List.map_cons, enterName, List.mem_cons, true_or, if_true,
                List.getElem?_cons_succ] at hat
              exact absurd (List.mem_of_getElem? hat) hnodup.1
        subst hzero
        simp [overwrite, putAt]
      · have henter : enterName ((k, v) :: rest |>.map Prod.fst) name =
            k :: enterName (rest.map Prod.fst) name := by
          simp only [enterName, List.map_cons, List.mem_cons, hk, false_or]
          split <;> rfl
        rw [henter] at hat
        cases i with
        | zero => exact absurd (Option.some.inj hat).symm hk
        | succ i =>
            have hrest := ih hnodup.2 (Nat.le_of_succ_le_succ hi) hat
            simp only [overwrite, hk, if_false, hrest, putAt, List.length_cons,
              Nat.add_lt_add_iff_right, List.set_cons_succ]
            split <;> rfl

theorem NameMap.entries_insert {α : Type} (m : NameMap α) {name : String} (value : α) {i : Nat}
    (hi : i ≤ m.entries.length) (hat : (enterName m.names name)[i]? = some name) :
    (m.insert name value).entries = putAt m.entries i (name, value) :=
  overwrite_eq_putAt name value m.entries m.nodup hi hat

theorem NameMap.names_insert {α : Type} (m : NameMap α) (name : String) (value : α) :
    (m.insert name value).names = enterName m.names name := by
  rcases exists_position m.names name with ⟨i, hi, hat, hput⟩
  have hlength : m.names.length = m.entries.length := List.length_map ..
  rw [hput, names, m.entries_insert value (hlength ▸ hi) hat, map_putAt]
  rfl

/-- A name with an entry is found if no other entry has it. -/
theorem lookup_eq_some {α : Type} {entries : List (String × α)}
    (hnodup : (entries.map Prod.fst).Nodup) {name : String} {a : α} (h : (name, a) ∈ entries) :
    entries.lookup name = some a := by
  induction entries with
  | nil => cases h
  | cons e rest ih =>
      simp only [List.map_cons, List.nodup_cons] at hnodup
      rcases List.mem_cons.mp h with rfl | hrest
      · simp
      · have hne : (name == e.1) = false := by
          rw [beq_eq_false_iff_ne]
          rintro rfl
          exact hnodup.1 (List.mem_map.mpr ⟨_, hrest, rfl⟩)
        rw [List.lookup_cons, hne]
        exact ih hnodup.2 hrest

/-!
# Tables and their members
-/

namespace Members

/-- The entry of a method in a dispatch table. -/
def entry (e : String × Signature) : DispatchEntry :=
  { name := e.1, signature := e.2 }

/-- The members are those of the table, in the order of their places. -/
structure Describes (m : Members) (t : MemberTable) : Prop where
  named : t.Named m.fields.names
  fields : t.fields = m.fields.entries.map Prod.snd
  dispatch : t.dispatch = m.methods.entries.map entry

namespace Describes

variable {m : Members} {t t' : MemberTable}

theorem empty : Members.empty.Describes MemberTable.empty where
  named := MemberTable.named_empty
  fields := rfl
  dispatch := rfl

theorem methodNames (h : m.Describes t) : t.methodNames = m.methods.names := by
  rw [MemberTable.methodNames, h.dispatch, List.map_map]
  rfl

theorem layout (h : m.Describes t) (name : String) :
    Ty.layout (t.layout name) = m.classType name := by
  simp only [MemberTable.layout, classType, h.fields, h.dispatch, List.map_map]
  rfl

theorem addField (h : m.Describes t) {name : String} {ty : Ty} {offset : Int}
    (hadd : t.addField name ty = .ok (offset, t')) :
    Describes { m with fields := m.fields.insert name ty } t' := by
  rcases h.named.addField hadd with ⟨i, hi, hat, _, hfields, hdispatch, hnamed⟩
  rw [h.fields, List.length_map] at hi
  constructor
  · rw [NameMap.names_insert]
    exact hnamed
  · show t'.fields = (m.fields.insert name ty).entries.map Prod.snd
    rw [hfields, h.fields, m.fields.entries_insert ty hi hat, map_putAt]
  · rw [hdispatch]
    exact h.dispatch

theorem addMethod (h : m.Describes t) {name : String} {signature : Signature} {slot : Nat}
    (hadd : t.addMethod name signature = .ok (slot, t')) :
    Describes { m with methods := m.methods.insert name signature } t' := by
  rcases h.named.addMethod hadd with ⟨hslot, hnames, hat, hdispatch, hfields, hnamed⟩
  rw [hnames, h.methodNames] at hat
  rw [h.dispatch, List.length_map] at hslot
  constructor
  · exact hnamed
  · rw [hfields]
    exact h.fields
  · show t'.dispatch = (m.methods.insert name signature).entries.map entry
    rw [hdispatch, h.dispatch, m.methods.entries_insert signature hslot hat, map_putAt]
    rfl

/-!
# The region of the members
-/

theorem region_names (m : Members) : m.region.map Prod.fst = m.fields.names ++ m.methods.names := by
  have hfields : m.fieldRegion.map Prod.fst = m.fields.names := by
    apply List.ext_getElem?
    intro i
    rw [fieldRegion, List.getElem?_map, List.getElem?_mapIdx, NameMap.names, List.getElem?_map]
    cases m.fields.entries[i]? <;> rfl
  have hmethods : m.methodRegion.map Prod.fst = m.methods.names := by
    apply List.ext_getElem?
    intro i
    rw [methodRegion, List.getElem?_map, List.getElem?_mapIdx, NameMap.names, List.getElem?_map]
    cases m.methods.entries[i]? <;> rfl
  rw [region, List.map_append, hfields, hmethods]

/-- A table has the members of the region, and no others. -/
theorem find? (h : m.Describes t) (name : String) :
    t.members.find? name = m.region.lookup name := by
  have hnodup : (m.region.map Prod.fst).Nodup := by
    rw [region_names, ← h.methodNames]
    exact h.named.nodup
  cases hfind : t.member? name with
  | none =>
      rcases h.named.member?_eq_none hfind with ⟨hfield, hmethod⟩
      have hnone : ¬(m.region.lookup name).isSome := by
        rw [NameMap.lookup_isSome_iff, region_names, List.mem_append, ← h.methodNames]
        exact fun hmem => hmem.elim hfield hmethod
      rw [Option.not_isSome_iff_eq_none] at hnone
      rw [hnone]
      exact hfind
  | some b =>
      have hmem : (name, b) ∈ m.region := by
        rw [region, List.mem_append]
        rcases h.named.member_cases hfind with ⟨i, ty, hi, hty, rfl⟩ | ⟨s, e, he, rfl, rfl⟩
        · refine Or.inl (List.mem_of_getElem? (i := i) ?_)
          rw [h.fields, List.getElem?_map] at hty
          rw [NameMap.names, List.getElem?_map] at hi
          rw [fieldRegion, List.getElem?_mapIdx]
          cases hentry : m.fields.entries[i]? with
          | none => simp [hentry] at hi
          | some f =>
              simp only [hentry, Option.map_some, Option.some.injEq] at hi hty
              rw [← hi, ← hty]
              rfl
        · refine Or.inr (List.mem_of_getElem? (i := s) ?_)
          rw [h.dispatch, List.getElem?_map, Option.map_eq_some_iff] at he
          rcases he with ⟨f, hf, rfl⟩
          rw [methodRegion, List.getElem?_mapIdx, hf]
          rfl
      rw [lookup_eq_some hnodup hmem]
      exact hfind

end Describes

end Members

/-!
# Entering the members of a class
-/

namespace MemberScan

theorem enterFields_describes (className : String) (fields : List Field) (scan : MemberScan)
    {m : Members} (h : m.Describes scan.table)
    (hplaced : AllPlaced (enterFields className scan fields).2) :
    (m.declare fields []).Describes (enterFields className scan fields).1.table := by
  induction fields generalizing scan m with
  | nil => exact h
  | cons f fs ih =>
      simp only [enterFields] at hplaced ⊢
      generalize hfirst : scan.enter className f.id
        (fun table => table.addField f.id.name f.ty.ty) = first at hplaced ⊢
      rcases first with ⟨scan', place⟩
      rcases hplaced place List.mem_cons_self with ⟨offset, rfl⟩
      rcases enter_ok hfirst with ⟨_, _, hadd⟩
      exact ih scan' (h.addField hadd) fun p hp => hplaced p (List.mem_cons_of_mem _ hp)

theorem enterMethods_describes (className : String) (methods : List Method) (scan : MemberScan)
    {m : Members} (h : m.Describes scan.table)
    (hplaced : AllPlaced (enterMethods className scan methods).2) :
    (m.declare [] methods).Describes (enterMethods className scan methods).1.table := by
  induction methods generalizing scan m with
  | nil => exact h
  | cons method ms ih =>
      simp only [enterMethods] at hplaced ⊢
      generalize hfirst : scan.enter className method.header.id
        (fun table => table.addMethod method.header.id.name method.header.signature) = first
        at hplaced ⊢
      rcases first with ⟨scan', place⟩
      rcases hplaced place List.mem_cons_self with ⟨slot, rfl⟩
      rcases enter_ok hfirst with ⟨_, _, hadd⟩
      exact ih scan' (h.addMethod hadd) fun p hp => hplaced p (List.mem_cons_of_mem _ hp)

end MemberScan

/-- The table that a class starts from, whether or not its superclass is known. -/
def Environment.baseTable (env : Environment) (header : ClassHeader) : MemberTable :=
  (header.super.bind fun super => env.classes.find? super.name).getD MemberTable.empty

theorem Environment.plan_describes {env : Environment} {header : ClassHeader}
    {methods : List Method} {m : Members} (h : m.Describes (env.baseTable header))
    (hfields : AllPlaced (env.plan header methods).fieldPlaces)
    (hmethods : AllPlaced (env.plan header methods).methodPlaces) :
    (m.declare header.fields methods).Describes (env.plan header methods).table := by
  have hplan : env.plan header methods =
      let start := MemberScan.startingFrom (env.baseTable header)
      let first := MemberScan.enterFields header.id.name start header.fields
      let second := MemberScan.enterMethods header.id.name first.1 methods
      { fieldPlaces := first.2, methodPlaces := second.2, table := second.1.table } := by
    unfold plan baseTable inherited
    cases header.super with
    | none => rfl
    | some super =>
        simp only [Option.bind_some]
        cases env.classes.find? super.name <;> rfl
  rw [hplan] at hfields hmethods ⊢
  have hfirst := MemberScan.enterFields_describes _ _ (MemberScan.startingFrom _) h hfields
  exact MemberScan.enterMethods_describes _ _ _ hfirst hmethods

end ClassLet
