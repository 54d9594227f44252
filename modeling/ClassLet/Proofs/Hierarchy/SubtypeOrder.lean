import ClassLet.Proofs.Hierarchy.Reachability
import ClassLet.Ty.Subtyping

/-!
# Subtyping is a preorder

Parameters of signatures are compared in the opposite direction, so each law is stated for a
comparison in either direction and proved by one recursion over a type and its lists of
parameters.

Main statements: `isSubtype_refl`, `isSubtype_trans`, and `isSubtype_mono`: a hierarchy with more
edges has every subtype relation of the one with fewer.
-/

namespace ClassLet

namespace Hierarchy

/-!
# Reflexivity
-/

theorem isBelow_ref (h : Hierarchy) (a b : String) :
    h.isBelow (.ref a) (.ref b) = true ↔ Descends h a b := by
  rw [← mem_ancestors_iff]
  simp [isBelow]

mutual

theorem compare_refl (h : Hierarchy) (d : Direction) : ∀ t : Ty, h.compare d t t = true
  | .int => by cases d <;> simp [compare, isBelow]
  | .bool => by cases d <;> simp [compare, isBelow]
  | .null => by cases d <;> simp [compare, isBelow]
  | .ref a => by cases d <;> simp [compare, isBelow, mem_ancestors_self]
  | .arrow s => by simpa [compare] using compareSignatures_refl h d s
  | .method s => by simpa [compare] using compareSignatures_refl h d s
  | .layout a => by cases d <;> simp [compare, isBelow]

theorem compareSignatures_refl (h : Hierarchy) (d : Direction) :
    ∀ s : Signature, h.compareSignatures d s s = true
  | ⟨ps, r⟩ => by simp [compareSignatures, compare_refl h d r, compareAll_refl h d.flip ps]

theorem compareAll_refl (h : Hierarchy) (d : Direction) :
    ∀ ts : List Ty, h.compareAll d ts ts = true
  | [] => by simp [compareAll]
  | t :: ts => by simp [compareAll, compare_refl h d t, compareAll_refl h d ts]

end

theorem isSubtype_refl (h : Hierarchy) (t : Ty) : h.isSubtype t t = true :=
  compare_refl h .below t

/-!
# Transitivity
-/

/-- A type that is no signature is compared by its own rule. -/
theorem compare_plain (h : Hierarchy) (d : Direction) {s : Ty} (t : Ty)
    (hs : s.signature? = none) :
    h.compare d s t =
      match d with
      | .below => h.isBelow s t
      | .above => h.isBelow t s := by
  cases s with
  | arrow s => cases hs
  | method s => cases hs
  | _ => rfl

theorem isBelow_signature? {h : Hierarchy} {s t : Ty} (hst : h.isBelow s t = true) :
    s.signature? = none ∧ t.signature? = none := by
  cases s <;> cases t <;> first | exact ⟨rfl, rfl⟩ | exact nomatch hst

theorem isBelow_trans {h : Hierarchy} {s t u : Ty}
    (hst : h.isBelow s t = true) (htu : h.isBelow t u = true) : h.isBelow s u = true := by
  cases s with
  | ref a =>
      cases t with
      | ref b =>
          cases u with
          | ref c =>
              rw [isBelow_ref] at hst htu ⊢
              exact hst.trans htu
          | _ => cases htu
      | _ => cases hst
  | layout a =>
      cases t with
      | layout b =>
          cases u with
          | layout c =>
              simp only [isBelow, beq_iff_eq] at hst htu ⊢
              exact hst.trans htu
          | _ => cases htu
      | _ => cases hst
  | _ =>
      cases t <;> simp [isBelow] at hst <;>
        cases u <;> simp [isBelow] at htu ⊢

theorem compare_trans_plain {h : Hierarchy} {d : Direction} {s t u : Ty}
    (hs : s.signature? = none) (hst : h.compare d s t = true) (htu : h.compare d t u = true) :
    h.compare d s u = true := by
  rw [compare_plain h d _ hs] at hst ⊢
  cases d with
  | below =>
      rw [compare_plain h _ u (isBelow_signature? hst).2] at htu
      exact isBelow_trans hst htu
  | above =>
      rw [compare_plain h _ u (isBelow_signature? hst).1] at htu
      exact isBelow_trans htu hst

mutual

theorem compare_trans (h : Hierarchy) (d : Direction) :
    ∀ s t u : Ty, h.compare d s t = true → h.compare d t u = true → h.compare d s u = true
  | .arrow r, t, u, hst, htu => by
      cases t with
      | arrow r' =>
          cases u with
          | arrow r'' =>
              simp only [compare] at hst htu ⊢
              exact compareSignatures_trans h d r r' r'' hst htu
          | _ => cases d <;> simp [compare, isBelow] at htu
      | _ => cases d <;> simp [compare, isBelow] at hst
  | .method r, t, u, hst, htu => by
      cases t with
      | method r' =>
          cases u with
          | method r'' =>
              simp only [compare] at hst htu ⊢
              exact compareSignatures_trans h d r r' r'' hst htu
          | _ => cases d <;> simp [compare, isBelow] at htu
      | _ => cases d <;> simp [compare, isBelow] at hst
  | .int, t, u, hst, htu => compare_trans_plain rfl hst htu
  | .bool, t, u, hst, htu => compare_trans_plain rfl hst htu
  | .null, t, u, hst, htu => compare_trans_plain rfl hst htu
  | .ref _, t, u, hst, htu => compare_trans_plain rfl hst htu
  | .layout _, t, u, hst, htu => compare_trans_plain rfl hst htu

theorem compareSignatures_trans (h : Hierarchy) (d : Direction) :
    ∀ s t u : Signature, h.compareSignatures d s t = true →
      h.compareSignatures d t u = true → h.compareSignatures d s u = true
  | ⟨ps, r⟩, ⟨qs, r'⟩, ⟨os, r''⟩, hst, htu => by
      simp only [compareSignatures, Bool.and_eq_true] at hst htu ⊢
      exact ⟨compare_trans h d r r' r'' hst.1 htu.1,
        compareAll_trans h d.flip ps qs os hst.2 htu.2⟩

theorem compareAll_trans (h : Hierarchy) (d : Direction) :
    ∀ ss ts us : List Ty, h.compareAll d ss ts = true → h.compareAll d ts us = true →
      h.compareAll d ss us = true
  | [], ts, us, hst, htu => by
      cases ts with
      | nil => exact htu
      | cons t ts => simp [compareAll] at hst
  | s :: ss, ts, us, hst, htu => by
      cases ts with
      | nil => simp [compareAll] at hst
      | cons t ts =>
          cases us with
          | nil => simp [compareAll] at htu
          | cons u us =>
              simp only [compareAll, Bool.and_eq_true] at hst htu ⊢
              exact ⟨compare_trans h d s t u hst.1 htu.1,
                compareAll_trans h d ss ts us hst.2 htu.2⟩

end

theorem isSubtype_trans {h : Hierarchy} {s t u : Ty} (hst : h.isSubtype s t = true)
    (htu : h.isSubtype t u = true) : h.isSubtype s u = true :=
  compare_trans h .below s t u hst htu

/-!
# More edges
-/

/-- Every subtype relation of the first hierarchy is one of the second. -/
def Extends (k h : Hierarchy) : Prop :=
  ∀ x y, h.superclass? x = some y → k.superclass? x = some y

theorem isBelow_mono {h k : Hierarchy} (hk : Extends k h) {s t : Ty}
    (hst : h.isBelow s t = true) : k.isBelow s t = true := by
  cases s with
  | ref a =>
      cases t with
      | ref b =>
          rw [isBelow_ref] at hst ⊢
          exact hst.mono hk
      | _ => exact hst
  | _ => cases t <;> exact hst

theorem compare_mono_plain {h k : Hierarchy} (hk : Extends k h) {d : Direction} {s t : Ty}
    (hs : s.signature? = none) (hst : h.compare d s t = true) : k.compare d s t = true := by
  rw [compare_plain _ d _ hs] at hst ⊢
  cases d with
  | below => exact isBelow_mono hk hst
  | above => exact isBelow_mono hk hst

mutual

theorem compare_mono {h k : Hierarchy} (hk : Extends k h) (d : Direction) :
    ∀ s t : Ty, h.compare d s t = true → k.compare d s t = true
  | .arrow r, t, hst => by
      cases t with
      | arrow r' =>
          simp only [compare] at hst ⊢
          exact compareSignatures_mono hk d r r' hst
      | _ => cases d <;> exact nomatch hst
  | .method r, t, hst => by
      cases t with
      | method r' =>
          simp only [compare] at hst ⊢
          exact compareSignatures_mono hk d r r' hst
      | _ => cases d <;> exact nomatch hst
  | .int, t, hst => compare_mono_plain hk rfl hst
  | .bool, t, hst => compare_mono_plain hk rfl hst
  | .null, t, hst => compare_mono_plain hk rfl hst
  | .ref _, t, hst => compare_mono_plain hk rfl hst
  | .layout _, t, hst => compare_mono_plain hk rfl hst

theorem compareSignatures_mono {h k : Hierarchy} (hk : Extends k h) (d : Direction) :
    ∀ s t : Signature, h.compareSignatures d s t = true → k.compareSignatures d s t = true
  | ⟨ps, r⟩, ⟨qs, r'⟩, hst => by
      simp only [compareSignatures, Bool.and_eq_true] at hst ⊢
      exact ⟨compare_mono hk d r r' hst.1, compareAll_mono hk d.flip ps qs hst.2⟩

theorem compareAll_mono {h k : Hierarchy} (hk : Extends k h) (d : Direction) :
    ∀ ss ts : List Ty, h.compareAll d ss ts = true → k.compareAll d ss ts = true
  | [], ts, hst => by
      cases ts with
      | nil => rfl
      | cons t ts => exact nomatch hst
  | s :: ss, ts, hst => by
      cases ts with
      | nil => exact nomatch hst
      | cons t ts =>
          simp only [compareAll, Bool.and_eq_true] at hst ⊢
          exact ⟨compare_mono hk d s t hst.1, compareAll_mono hk d ss ts hst.2⟩

end

theorem isSubtype_mono {h k : Hierarchy} (hk : Extends k h) {s t : Ty}
    (hst : h.isSubtype s t = true) : k.isSubtype s t = true :=
  compare_mono hk .below s t hst

end Hierarchy

end ClassLet
