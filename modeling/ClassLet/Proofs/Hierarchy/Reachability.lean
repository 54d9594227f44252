import Mathlib.Data.List.Perm.Basic
import ClassLet.Ty.Hierarchy

/-!
# What the walk towards the root finds

The ancestors of a class are computed by a walk that is cut after a fixed number of names. Here
the walk is compared with the superclass edges themselves: a class lies below another if some
number of edges, possibly none, leads from the one to the other.

Main statement: `mem_ancestors_iff`, the walk finds exactly the classes above its start, whatever
circles the edges run in.
-/

namespace ClassLet

namespace Hierarchy

/-- Zero or more superclass edges lead from the first class to the second. -/
inductive Descends (h : Hierarchy) : String → String → Prop where
  | refl (name : String) : Descends h name name
  | step {name super top : String} :
      h.superclass? name = some super →
      Descends h super top →
      Descends h name top

namespace Descends

theorem trans {h : Hierarchy} {a b c : String} (hab : Descends h a b) (hbc : Descends h b c) :
    Descends h a c := by
  induction hab with
  | refl => exact hbc
  | step hedge _ ih => exact step hedge (ih hbc)

/-- Edges of a hierarchy with more edges. -/
theorem mono {h k : Hierarchy} {a b : String}
    (hedges : ∀ x y, h.superclass? x = some y → k.superclass? x = some y)
    (hab : Descends h a b) : Descends k a b := by
  induction hab with
  | refl => exact refl _
  | step hedge _ ih => exact step (hedges _ _ hedge) ih

end Descends

/-!
# Paths without repetition

A path lists the classes that it leaves, so the class it ends at is not among them.
-/

inductive Path (h : Hierarchy) : String → List String → String → Prop where
  | here (name : String) : Path h name [] name
  | up {name super top : String} {left : List String} :
      h.superclass? name = some super →
      Path h super left top →
      Path h name (name :: left) top

theorem Path.from_mem {h : Hierarchy} {a c x : String} {left : List String}
    (hpath : Path h a left c) (hx : x ∈ left) :
    ∃ rest, Path h x rest c ∧ rest <:+ left := by
  induction hpath with
  | here => cases hx
  | up hedge hrest ih =>
      rcases List.mem_cons.mp hx with rfl | hx
      · exact ⟨_, Path.up hedge hrest, List.suffix_rfl⟩
      · rcases ih hx with ⟨rest, hfrom, hsuffix⟩
        exact ⟨rest, hfrom, hsuffix.trans (List.suffix_cons _ _)⟩

theorem Path.mem_names {h : Hierarchy} {a c x : String} {left : List String}
    (hpath : Path h a left c) (hx : x ∈ left) : x ∈ h.supers.names := by
  induction hpath with
  | here => cases hx
  | up hedge _ ih =>
      rcases List.mem_cons.mp hx with rfl | hx
      · rw [← NameMap.contains_iff]
        simp only [superclass?] at hedge
        simp [NameMap.contains, hedge]
      · exact ih hx

/-- Walking around a circle can be left out. -/
theorem Descends.exists_path {h : Hierarchy} {a c : String} (hac : Descends h a c) :
    ∃ left, Path h a left c ∧ left.Nodup := by
  induction hac with
  | refl name => exact ⟨[], Path.here name, List.nodup_nil⟩
  | step hedge _ ih =>
      rename_i name super top _
      rcases ih with ⟨left, hpath, hnodup⟩
      by_cases hmem : name ∈ left
      · rcases hpath.from_mem hmem with ⟨rest, hfrom, hsuffix⟩
        exact ⟨rest, hfrom, hsuffix.sublist.nodup hnodup⟩
      · exact ⟨name :: left, Path.up hedge hpath, List.nodup_cons.mpr ⟨hmem, hnodup⟩⟩

theorem Path.length_le_size {h : Hierarchy} {a c : String} {left : List String}
    (hpath : Path h a left c) (hnodup : left.Nodup) : left.length ≤ h.supers.size := by
  have hsub : left ⊆ h.supers.names := fun _ hx => hpath.mem_names hx
  have hle := (List.subperm_of_subset hnodup hsub).length_le
  simpa [NameMap.names, NameMap.size] using hle

/-!
# The walk
-/

theorem mem_walk_of_path {h : Hierarchy} {a c : String} {left : List String}
    (hpath : Path h a left c) (steps : Nat) (hsteps : left.length < steps) :
    c ∈ h.walk steps a := by
  induction hpath generalizing steps with
  | here =>
      cases steps with
      | zero => exact absurd hsteps (by simp)
      | succ steps => simp [walk]
  | up hedge _ ih =>
      cases steps with
      | zero => exact absurd hsteps (by simp)
      | succ steps =>
          have hrest := ih steps (by simpa using hsteps)
          simp [walk, hedge, hrest]

theorem descends_of_mem_walk {h : Hierarchy} {c : String} (steps : Nat) (a : String)
    (hmem : c ∈ h.walk steps a) : Descends h a c := by
  induction steps generalizing a with
  | zero => simp [walk] at hmem
  | succ steps ih =>
      rw [walk, List.mem_cons] at hmem
      rcases hmem with rfl | hmem
      · exact Descends.refl c
      · cases hedge : h.superclass? a with
        | none => simp [hedge] at hmem
        | some super =>
            rw [hedge] at hmem
            exact Descends.step hedge (ih super hmem)

theorem mem_ancestors_iff (h : Hierarchy) (a c : String) :
    c ∈ h.ancestors a ↔ Descends h a c := by
  constructor
  · exact descends_of_mem_walk _ a
  · intro hac
    rcases hac.exists_path with ⟨left, hpath, hnodup⟩
    exact mem_walk_of_path hpath _ (Nat.lt_succ_of_le (hpath.length_le_size hnodup))

end Hierarchy

end ClassLet
