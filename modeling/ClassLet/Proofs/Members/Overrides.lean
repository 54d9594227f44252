import ClassLet.Proofs.Hierarchy.SubtypeOrder
import ClassLet.Proofs.Linkage.ClassDeclaration
import ClassLet.Typing

/-!
# Overrides without type errors

A class refines another one if it has all members of the other in the same places, each with a
type below the other's. Checking a class compares a member that it declares with what the
superclass has in the same place, and this is enough for the class to refine its superclass.

Main statement: `ClassDeclared.refines`.
-/

namespace ClassLet

/-!
# Refinement of member tables
-/

/-- An object with the first table can stand in for one with the second. -/
structure MemberTable.Refines (own above : MemberTable) (h : Hierarchy) : Prop where
  named : ∀ names, above.Named names → ∃ names', own.Named names' ∧ names <+: names'
  field : ∀ (i : Nat) (ty : Ty), above.fields[i]? = some ty →
    ∃ ty', own.fields[i]? = some ty' ∧ h.isSubtype ty' ty = true
  method : ∀ (s : Nat) (e : DispatchEntry), above.dispatch[s]? = some e →
    ∃ e', own.dispatch[s]? = some e' ∧ e'.name = e.name ∧
      h.isSubtype (.arrow e'.signature) (.arrow e.signature) = true

namespace MemberTable.Refines

variable {h k : Hierarchy} {r s t : MemberTable}

theorem refl (h : Hierarchy) (t : MemberTable) : t.Refines t h where
  named := fun names hnamed => ⟨names, hnamed, List.prefix_rfl⟩
  field := fun _ ty hty => ⟨ty, hty, h.isSubtype_refl ty⟩
  method := fun _ e he => ⟨e, he, rfl, h.isSubtype_refl _⟩

theorem trans (hrs : r.Refines s h) (hst : s.Refines t h) : r.Refines t h where
  named := by
    intro names hnamed
    rcases hst.named names hnamed with ⟨names', hnamed', hprefix⟩
    rcases hrs.named names' hnamed' with ⟨names'', hnamed'', hprefix'⟩
    exact ⟨names'', hnamed'', hprefix.trans hprefix'⟩
  field := by
    intro i ty hty
    rcases hst.field i ty hty with ⟨ty', hty', hsub⟩
    rcases hrs.field i ty' hty' with ⟨ty'', hty'', hsub'⟩
    exact ⟨ty'', hty'', Hierarchy.isSubtype_trans hsub' hsub⟩
  method := by
    intro slot e he
    rcases hst.method slot e he with ⟨e', he', hname, hsub⟩
    rcases hrs.method slot e' he' with ⟨e'', he'', hname', hsub'⟩
    exact ⟨e'', he'', hname'.trans hname, Hierarchy.isSubtype_trans hsub' hsub⟩

theorem mono (hk : k.Extends h) (hst : s.Refines t h) : s.Refines t k where
  named := hst.named
  field := by
    intro i ty hty
    rcases hst.field i ty hty with ⟨ty', hty', hsub⟩
    exact ⟨ty', hty', Hierarchy.isSubtype_mono hk hsub⟩
  method := by
    intro slot e he
    rcases hst.method slot e he with ⟨e', he', hname, hsub⟩
    exact ⟨e', he', hname, Hierarchy.isSubtype_mono hk hsub⟩

end MemberTable.Refines

/-!
# Checks that found no error
-/

/-- None of the failures is an error of the program. -/
def ErrorFree (failures : List TypingFailure) : Prop :=
  ∀ failure ∈ failures, failure.error? = none

namespace ErrorFree

theorem append_iff {xs ys : List TypingFailure} :
    ErrorFree (xs ++ ys) ↔ ErrorFree xs ∧ ErrorFree ys := by
  simp only [ErrorFree, List.mem_append]
  constructor
  · intro h
    exact ⟨fun x hx => h x (Or.inl hx), fun y hy => h y (Or.inr hy)⟩
  · rintro ⟨hxs, hys⟩ x (hx | hx)
    · exact hxs x hx
    · exact hys x hx

theorem of_flatMap {α : Type} {xs : List α} {f : α → List TypingFailure}
    (h : ErrorFree (xs.flatMap f)) {x : α} (hx : x ∈ xs) : ErrorFree (f x) :=
  fun failure hfailure => h failure (List.mem_flatMap.mpr ⟨x, hx, hfailure⟩)

theorem require {holds : Bool} {pos : Position} {cause : TypeFault}
    (h : ErrorFree (failureOf (Typed.require holds pos cause))) : holds = true := by
  cases holds with
  | true => rfl
  | false => simp [ErrorFree, failureOf, Typed.require, Typed.reject, TypingFailure.error?] at h

end ErrorFree

theorem Typing.errorFree {t : Typing} (h : t.errors = []) : ErrorFree t.failures :=
  fun failure hfailure => List.filterMap_eq_nil_iff.mp h failure hfailure

/-!
# One class and its superclass
-/

theorem fieldPosition?_offset (i : Nat) : fieldPosition? (-((i : Int) + 1)) = some i := by
  unfold fieldPosition?
  rw [if_pos (by omega)]
  congr 1
  omega

namespace ClassHeader

theorem isSubtype_of_checkField {header : ClassHeader} {h : Hierarchy} {parent : ClassLayout}
    {f : Field} {i : Nat} {ty : Ty} (hoffset : f.offset = some (-((i : Int) + 1)))
    (hty : parent.fields[i]? = some ty)
    (hok : ErrorFree (failureOf (header.checkField h parent f))) :
    h.isSubtype f.ty.ty ty = true := by
  have hposition : (f.offset.bind fieldPosition?).bind (fun i => parent.fields[i]?) = some ty := by
    simp only [hoffset, Option.bind_some, fieldPosition?_offset, hty]
  rw [checkField, hposition] at hok
  exact hok.require

theorem isSubtype_of_checkMethod {header : ClassHeader} {h : Hierarchy} {own parent : ClassLayout}
    {m : Method} {slot : Nat} {s t : Signature} (hslot : m.slot = some slot)
    (hs : own.methods[slot]? = some s) (ht : parent.methods[slot]? = some t)
    (hok : ErrorFree (failureOf (header.checkMethod h own parent m))) :
    h.isSubtype (.arrow s) (.arrow t) = true := by
  have hown : m.slot.bind (fun slot => own.methods[slot]?) = some s := by simp [hslot, hs]
  have hparent : m.slot.bind (fun slot => parent.methods[slot]?) = some t := by simp [hslot, ht]
  rw [checkMethod, hown, hparent] at hok
  exact hok.require

end ClassHeader

theorem ClassHeader.mem_link_fields {header : ClassHeader} (env : Environment) {plan : ClassPlan}
    {k : Nat} {f : Field} {place : Except LinkError Int} (hf : header.fields[k]? = some f)
    (hplace : plan.fieldPlaces[k]? = some place) :
    f.link place ∈ (header.link env plan).fields := by
  have hpair : (header.fields.zip plan.fieldPlaces)[k]? = some (f, place) :=
    List.getElem?_zip_eq_some.mpr ⟨hf, hplace⟩
  exact List.mem_map.mpr ⟨(f, place), List.mem_of_getElem? hpair, rfl⟩

theorem Method.mem_linkAll (env : Environment) {places : List (Except LinkError Nat)}
    {methods : List Method} {k slot : Nat} {m : Method} (hm : methods[k]? = some m)
    (hplace : places[k]? = some (.ok slot)) :
    m.link env (some slot) ∈ Method.linkAll env places methods := by
  induction methods generalizing places k with
  | nil => simp at hm
  | cons m' ms ih =>
      cases k with
      | zero =>
          simp only [List.getElem?_cons_zero, Option.some.injEq] at hm
          subst hm
          have hhead : places.head?.bind Except.toOption = some slot := by
            rw [List.head?_eq_getElem?, hplace]
            rfl
          simp [Method.linkAll, hhead]
      | succ k =>
          have htail : places.tail[k]? = some (.ok slot) := by simpa using hplace
          exact List.mem_cons_of_mem _ (ih (by simpa using hm) htail)

/-- A class without link errors and type errors refines its superclass. -/
theorem ClassDeclared.refines {env : Environment} {header : ClassHeader} {methods : List Method}
    {inherited entered : MemberTable} {h : Hierarchy} {super : Ident} {inner : Environment}
    (hclass : ClassDeclared env header methods inherited entered) {names : List String}
    (hnamed : inherited.Named names)
    (hsuper : env.superLayout? header = some (inherited.layout super.name))
    (hok : ErrorFree ((header.link env (env.plan header methods)).overrideFailures h
      (Method.linkAll inner (env.plan header methods).methodPlaces methods))) :
    (env.plan header methods).table.Refines inherited h := by
  have hfields := hclass.fieldsPlaced names hnamed
  have hmethods := hclass.methodsPlaced _ hfields.named
  have hlink : (header.link env (env.plan header methods)).superLayout =
      some (inherited.layout super.name) := by simp [ClassHeader.link, hsuper]
  have hown : (header.link env (env.plan header methods)).layout =
      some ((env.plan header methods).table.layout header.id.name) := rfl
  simp only [ClassHeader.overrideFailures, hlink, hown] at hok
  rcases ErrorFree.append_iff.mp hok with ⟨hokFields, hokMethods⟩
  constructor
  · intro above habove
    refine ⟨enterNames above (header.fields.map fun f => f.id.name), hclass.named habove, ?_⟩
    exact prefix_enterNames _ _
  · intro i ty hty
    have hlt : i < entered.fields.length :=
      Nat.lt_of_lt_of_le (List.getElem?_eq_some_iff.mp hty).1 hfields.length_le
    have hget : entered.fields[i]? = some entered.fields[i] := List.getElem?_eq_getElem hlt
    refine ⟨entered.fields[i], by rw [hmethods.fields]; exact hget, ?_⟩
    rcases hfields.origin i _ hget with hold | ⟨k, f, hf, hplace, hfty⟩
    · rw [hty, Option.some.injEq] at hold
      exact hold ▸ h.isSubtype_refl _
    · have hmem := ClassHeader.mem_link_fields env hf hplace
      have hchecked := ErrorFree.of_flatMap hokFields hmem
      have hsub := ClassHeader.isSubtype_of_checkField (i := i) rfl hty hchecked
      exact hfty ▸ hsub
  · intro s e he
    have hnames : (env.plan header methods).table.methodNames[s]? = some e.name := by
      have hold : inherited.methodNames[s]? = some e.name := by
        simp [MemberTable.methodNames, he]
      rcases prefix_enterNames inherited.methodNames
        (methods.map fun m : Method => m.header.id.name) with ⟨new, hnew⟩
      rw [hclass.methodNames hnamed, ← hnew,
        List.getElem?_append_left (List.getElem?_eq_some_iff.mp hold).1, hold]
    rw [MemberTable.methodNames, List.getElem?_map, Option.map_eq_some_iff] at hnames
    rcases hnames with ⟨e', he', hname⟩
    refine ⟨e', he', hname, ?_⟩
    rcases hmethods.origin s e' he' with hold | ⟨k, m, hm, hplace, hentry⟩
    · rw [hfields.dispatch, he, Option.some.injEq] at hold
      exact hold ▸ h.isSubtype_refl _
    · have hmem := Method.mem_linkAll inner hm hplace
      have hchecked := ErrorFree.of_flatMap hokMethods hmem
      have hslot : (m.link inner (some s)).slot = some s := by
        rcases m with ⟨_, _, _⟩
        rfl
      exact ClassHeader.isSubtype_of_checkMethod hslot (by simp [MemberTable.layout, he'])
        (by simp [MemberTable.layout, he]) hchecked

end ClassLet
