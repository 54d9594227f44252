import ClassLet.Proofs.Hierarchy.Chains
import ClassLet.Proofs.Hierarchy.SubtypeOrder

/-!
# Subtyping is an order

Where the superclass edges run in no circle, two types that are below each other are equal. Layouts
are an exception: they are compared by the name of their class only, whatever members they list.

Main statements: `isSubtype_antisymm` and `isSubtype_order`.
-/

namespace ClassLet

/-!
# Types without layouts
-/

mutual

/-- No part of the type is the layout of a class. -/
def Ty.layoutFree : Ty → Bool
  | .arrow s => s.layoutFree
  | .method s => s.layoutFree
  | .layout _ => false
  | _ => true
termination_by structural t => t

def Signature.layoutFree : Signature → Bool
  | ⟨ps, r⟩ => Ty.allLayoutFree ps && r.layoutFree
termination_by structural t => t

def Ty.allLayoutFree : List Ty → Bool
  | [] => true
  | t :: ts => t.layoutFree && Ty.allLayoutFree ts
termination_by structural t => t

end

namespace Hierarchy

/-- No class descends from itself by way of its superclass. -/
def Acyclic (h : Hierarchy) : Prop :=
  ∀ name super, h.superclass? name = some super → ¬Descends h super name

theorem Descends.antisymm {h : Hierarchy} (hacyclic : h.Acyclic) {a b : String}
    (hab : Descends h a b) (hba : Descends h b a) : a = b := by
  cases hab with
  | refl => rfl
  | step hedge hrest => exact absurd (hrest.trans hba) (hacyclic _ _ hedge)

/-!
# Antisymmetry
-/

theorem isBelow_antisymm {h : Hierarchy} (hacyclic : h.Acyclic) {s t : Ty}
    (hs : s.layoutFree = true) (hst : h.isBelow s t = true) (hts : h.isBelow t s = true) :
    s = t := by
  cases s with
  | ref a =>
      cases t with
      | ref b =>
          rw [isBelow_ref] at hst hts
          rw [hst.antisymm hacyclic hts]
      | _ => exact nomatch hst
  | layout a => cases hs
  | _ => cases t <;> first | rfl | simp [isBelow] at hst hts

theorem compare_antisymm_plain {h : Hierarchy} (hacyclic : h.Acyclic) {d : Direction} {s t : Ty}
    (hplain : s.signature? = none) (hs : s.layoutFree = true) (hst : h.compare d s t = true)
    (hts : h.compare d t s = true) : s = t := by
  rw [compare_plain h d _ hplain] at hst
  cases d with
  | below =>
      rw [compare_plain h _ s (isBelow_signature? hst).2] at hts
      exact isBelow_antisymm hacyclic hs hst hts
  | above =>
      rw [compare_plain h _ s (isBelow_signature? hst).1] at hts
      exact isBelow_antisymm hacyclic hs hts hst

mutual

theorem compare_antisymm {h : Hierarchy} (hacyclic : h.Acyclic) (d : Direction) :
    ∀ s t : Ty, s.layoutFree = true → h.compare d s t = true → h.compare d t s = true → s = t
  | .arrow r, t, hr, hst, hts => by
      cases t with
      | arrow r' =>
          simp only [compare] at hst hts
          rw [compareSignatures_antisymm hacyclic d r r' hr hst hts]
      | _ => cases d <;> exact nomatch hst
  | .method r, t, hr, hst, hts => by
      cases t with
      | method r' =>
          simp only [compare] at hst hts
          rw [compareSignatures_antisymm hacyclic d r r' hr hst hts]
      | _ => cases d <;> exact nomatch hst
  | .int, _, hs, hst, hts => compare_antisymm_plain hacyclic rfl hs hst hts
  | .bool, _, hs, hst, hts => compare_antisymm_plain hacyclic rfl hs hst hts
  | .null, _, hs, hst, hts => compare_antisymm_plain hacyclic rfl hs hst hts
  | .ref _, _, hs, hst, hts => compare_antisymm_plain hacyclic rfl hs hst hts
  | .layout _, _, hs, hst, hts => compare_antisymm_plain hacyclic rfl hs hst hts

theorem compareSignatures_antisymm {h : Hierarchy} (hacyclic : h.Acyclic) (d : Direction) :
    ∀ s t : Signature, s.layoutFree = true → h.compareSignatures d s t = true →
      h.compareSignatures d t s = true → s = t
  | ⟨ps, r⟩, ⟨qs, r'⟩, hs, hst, hts => by
      simp only [Signature.layoutFree, compareSignatures, Bool.and_eq_true] at hs hst hts
      rw [compare_antisymm hacyclic d r r' hs.2 hst.1 hts.1,
        compareAll_antisymm hacyclic d.flip ps qs hs.1 hst.2 hts.2]

theorem compareAll_antisymm {h : Hierarchy} (hacyclic : h.Acyclic) (d : Direction) :
    ∀ ss ts : List Ty, Ty.allLayoutFree ss = true → h.compareAll d ss ts = true →
      h.compareAll d ts ss = true → ss = ts
  | [], ts, _, hst, _ => by
      cases ts with
      | nil => rfl
      | cons t ts => exact nomatch hst
  | s :: ss, ts, hs, hst, hts => by
      cases ts with
      | nil => exact nomatch hst
      | cons t ts =>
          simp only [Ty.allLayoutFree, compareAll, Bool.and_eq_true] at hs hst hts
          rw [compare_antisymm hacyclic d s t hs.1 hst.1 hts.1,
            compareAll_antisymm hacyclic d ss ts hs.2 hst.2 hts.2]

end

/-- One of the types has no layouts; the other one has the same shape. -/
theorem isSubtype_antisymm {h : Hierarchy} (hacyclic : h.Acyclic) {s t : Ty}
    (hs : s.layoutFree = true) (hst : h.isSubtype s t = true) (hts : h.isSubtype t s = true) :
    s = t :=
  compare_antisymm hacyclic .below s t hs hst hts

/-!
# The order
-/

/-- A superclass for a class that had none. -/
theorem extends_declare {h : Hierarchy} {name : String} (hroot : h.superclass? name = none)
    (super : String) : (h.declare name super).Extends h := by
  intro x y hedge
  rw [superclass?_declare, if_neg]
  · exact hedge
  · rintro rfl
    rw [hroot] at hedge
    cases hedge

/-- The laws of subtyping, whatever edges have been declared. -/
theorem isSubtype_order (edges : List (String × String)) :
    let h := empty.declareAll edges
    (∀ t, h.isSubtype t t = true) ∧
      (∀ s t u, h.isSubtype s t = true → h.isSubtype t u = true → h.isSubtype s u = true) ∧
      (h.Acyclic → ∀ s t : Ty, s.layoutFree = true → t.layoutFree = true →
        h.isSubtype s t = true → h.isSubtype t s = true → s = t) ∧
      ∀ name super, h.superclass? name = none → ∀ s t, h.isSubtype s t = true →
        (h.declare name super).isSubtype s t = true := by
  intro h
  refine ⟨h.isSubtype_refl, fun s t u => isSubtype_trans, ?_, ?_⟩
  · exact fun hacyclic s t hs _ hst hts => isSubtype_antisymm hacyclic hs hst hts
  · exact fun name super hroot s t hst => isSubtype_mono (extends_declare hroot super) hst

theorem isSubtype_order_chain :
    let edges := [("B", "A"), ("C", "B")]
    let h := empty.declareAll edges
    let wide : Ty := .arrow ⟨[.ref "A"], .ref "C"⟩
    let narrow : Ty := .arrow ⟨[.ref "C"], .ref "A"⟩
    h.Acyclic ∧ h.isSubtype wide narrow = true ∧
      (∃ t, h.isSubtype t wide = true ∧ h.isSubtype wide t = true ∧ t = wide) ∧
      (h.declare "A" "Top").isSubtype wide narrow = true := by
  intro edges h wide narrow
  have hacyclic : h.Acyclic := by
    intro name super hedge hdescends
    rw [← mem_ancestors_iff] at hdescends
    rcases superclass?_declareAll hedge with hmem | hnone
    · simp only [edges, List.mem_cons, Prod.mk.injEq, List.not_mem_nil, or_false] at hmem
      rcases hmem with ⟨rfl, rfl⟩ | ⟨rfl, rfl⟩
      · exact absurd hdescends (by decide +kernel)
      · exact absurd hdescends (by decide +kernel)
    · cases hnone
  rcases isSubtype_order edges with ⟨_, htrans, hantisymm, hmono⟩
  have hwide : h.isSubtype wide narrow = true :=
    htrans wide (.arrow ⟨[.ref "B"], .ref "B"⟩) narrow (by decide +kernel) (by decide +kernel)
  have hsame : h.isSubtype wide wide = true := by decide +kernel
  exact ⟨hacyclic, hwide, ⟨wide, hsame, hsame, hantisymm hacyclic wide wide rfl rfl hsame hsame⟩,
    hmono "A" "Top" (by decide +kernel) wide narrow hwide⟩

end Hierarchy

end ClassLet
