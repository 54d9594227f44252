import Mathlib.Logic.Relation
import ClassLet.Proofs.Hierarchy.Chains
import ClassLet.Proofs.Hierarchy.SubtypeOrder

/-!
# What the declared edges reach

Here the walk towards the root is compared with the declarations themselves: the superclass of a
class is the one it was declared with last, and a class lies above another one if such edges lead
to it. The bound that cuts the walk leaves no class out, also where a chain runs into a circle that
it does not start on.

Main statement: `ancestors_complete`.
-/

namespace ClassLet

namespace Hierarchy

/-- The last declaration of the first class names the second one as its superclass. -/
def DeclaredLast (edges : List (String × String)) (sub super : String) : Prop :=
  ∃ before after, edges = before ++ (sub, super) :: after ∧ ∀ edge ∈ after, edge.1 ≠ sub

/-!
# Edges
-/

theorem superclass?_declareAll_of_new {edges : List (String × String)} (h : Hierarchy)
    {sub : String} (hnew : ∀ edge ∈ edges, edge.1 ≠ sub) :
    (h.declareAll edges).superclass? sub = h.superclass? sub := by
  induction edges generalizing h with
  | nil => rfl
  | cons edge edges ih =>
      have hfirst : sub ≠ edge.1 := (hnew edge List.mem_cons_self).symm
      have hrest := ih (h.declare edge.1 edge.2) fun e he => hnew e (List.mem_cons_of_mem _ he)
      rw [superclass?_declare, if_neg hfirst] at hrest
      exact hrest

theorem superclass?_of_declaredLast {edges : List (String × String)} {sub super : String}
    (hlast : DeclaredLast edges sub super) (h : Hierarchy) :
    (h.declareAll edges).superclass? sub = some super := by
  rcases hlast with ⟨before, after, rfl, hnew⟩
  rw [declareAll_append]
  show (((h.declareAll before).declare sub super).declareAll after).superclass? sub = some super
  rw [superclass?_declareAll_of_new _ hnew, superclass?_declare, if_pos rfl]

theorem DeclaredLast.cons {edges : List (String × String)} {sub super : String}
    (hlast : DeclaredLast edges sub super) (edge : String × String) :
    DeclaredLast (edge :: edges) sub super := by
  rcases hlast with ⟨before, after, rfl, hnew⟩
  exact ⟨edge :: before, after, rfl, hnew⟩

theorem declaredLast_of_mem {edges : List (String × String)} {sub : String}
    (hmem : sub ∈ edges.map Prod.fst) : ∃ super, DeclaredLast edges sub super := by
  induction edges with
  | nil => cases hmem
  | cons edge edges ih =>
      by_cases hrest : sub ∈ edges.map Prod.fst
      · rcases ih hrest with ⟨super, hlast⟩
        exact ⟨super, hlast.cons edge⟩
      · have hfirst : sub = edge.1 := by
          rcases List.mem_cons.mp hmem with heq | hlater
          · exact heq
          · exact absurd hlater hrest
        have hnew : ∀ e ∈ edges, e.1 ≠ sub := by
          intro e he heq
          exact hrest (List.mem_map.mpr ⟨e, he, heq⟩)
        exact ⟨edge.2, [], edges, by rw [hfirst]; rfl, hnew⟩

theorem superclass?_eq_some_iff {edges : List (String × String)} {sub super : String} :
    (empty.declareAll edges).superclass? sub = some super ↔ DeclaredLast edges sub super := by
  constructor
  · intro hedge
    rcases superclass?_declareAll hedge with hmem | hnone
    · rcases declaredLast_of_mem (List.mem_map_of_mem (f := Prod.fst) hmem) with ⟨last, hlast⟩
      rw [superclass?_of_declaredLast hlast, Option.some.injEq] at hedge
      exact hedge ▸ hlast
    · cases hnone
  · intro hlast
    exact superclass?_of_declaredLast hlast empty

theorem size_declareAll (h : Hierarchy) (edges : List (String × String)) :
    (h.declareAll edges).supers.size ≤ h.supers.size + edges.length := by
  induction edges generalizing h with
  | nil => exact Nat.le_refl _
  | cons edge edges ih =>
      have hrest := ih (h.declare edge.1 edge.2)
      have hfirst : (h.declare edge.1 edge.2).supers.size ≤ h.supers.size + 1 := by
        rw [declare, NameMap.size_insert]
        split
        · exact Nat.le_succ _
        · exact Nat.le_refl _
      calc ((h.declare edge.1 edge.2).declareAll edges).supers.size
        _ ≤ (h.declare edge.1 edge.2).supers.size + edges.length := hrest
        _ ≤ h.supers.size + 1 + edges.length := Nat.add_le_add_right hfirst _
        _ = h.supers.size + (edge :: edges).length := by
          rw [List.length_cons, Nat.add_assoc, Nat.add_comm 1]

/-!
# Reachable classes
-/

theorem descends_iff_reflTransGen {h : Hierarchy} {edge : String → String → Prop}
    (hedges : ∀ sub super, h.superclass? sub = some super ↔ edge sub super) {a b : String} :
    Descends h a b ↔ Relation.ReflTransGen edge a b := by
  constructor
  · intro hab
    induction hab with
    | refl name => exact Relation.ReflTransGen.refl
    | step hedge _ ih => exact Relation.ReflTransGen.head ((hedges _ _).mp hedge) ih
  · intro hab
    induction hab using Relation.ReflTransGen.head_induction_on with
    | refl => exact Descends.refl b
    | head hedge _ ih => exact Descends.step ((hedges _ _).mpr hedge) ih

theorem length_walk_le (h : Hierarchy) (steps : Nat) (name : String) :
    (h.walk steps name).length ≤ steps := by
  induction steps generalizing name with
  | zero => exact Nat.le_refl 0
  | succ steps ih =>
      cases hedge : h.superclass? name with
      | none =>
          rw [walk_of_none hedge]
          exact Nat.succ_le_succ (Nat.zero_le steps)
      | some super =>
          rw [walk_of_some hedge]
          exact Nat.succ_le_succ (ih super)

/-- A class below one without a superclass lies on no circle: its edges lead there and nowhere
else. -/
theorem no_circle_below_root {h : Hierarchy} {edge : String → String → Prop}
    (hedges : ∀ sub super, h.superclass? sub = some super ↔ edge sub super) {a top : String}
    (hroot : h.superclass? top = none) (hpath : Descends h a top) :
    ¬Relation.TransGen edge a a := by
  induction hpath with
  | refl name =>
      intro hcircle
      rcases Relation.TransGen.head'_iff.mp hcircle with ⟨super, hedge, _⟩
      rw [(hedges _ _).mpr hedge] at hroot
      cases hroot
  | step hedge _ ih =>
      rename_i name super _ _
      intro hcircle
      rcases Relation.TransGen.head'_iff.mp hcircle with ⟨next, hnext, hback⟩
      have hsame := (hedges _ _).mpr hnext
      rw [hedge, Option.some.injEq] at hsame
      rw [← hsame] at hback
      exact ih hroot (Relation.TransGen.tail' hback ((hedges _ _).mp hedge))

/-- A chain from which no class is reached that lies on a circle repeats no class. -/
theorem nodup_ancestors_of_no_circle {h : Hierarchy} {name : String}
    (hfree : ∀ b, Descends h name b →
      ¬Relation.TransGen (fun sub super => h.superclass? sub = some super) b b) :
    (h.ancestors name).Nodup := by
  have hchain : (h.ancestors name).IsChain
      (Relation.TransGen fun sub super => h.superclass? sub = some super) :=
    (ancestors_isChain h name).imp fun _ _ => Relation.TransGen.single
  apply hchain.pairwise.imp_of_mem
  intro a b ha _ hab heq
  rw [← heq] at hab
  exact hfree a ((mem_ancestors_iff h name a).mp ha) hab

/-!
# The walk over declared edges
-/

/-- The ancestors of a class, whatever edges have been declared in whatever order. -/
theorem ancestors_complete (edges : List (String × String)) (a : String) :
    let h := empty.declareAll edges
    let edge := DeclaredLast edges
    (h.ancestors a).length ≤ edges.length + 1 ∧
      (h.ancestors a).head? = some a ∧
      (h.ancestors a).IsChain edge ∧
      (∀ b, b ∈ h.ancestors a ↔ Relation.ReflTransGen edge a b) ∧
      (∀ b, h.isSubtype (.ref a) (.ref b) = true ↔ Relation.ReflTransGen edge a b) ∧
      ((∀ b, Relation.ReflTransGen edge a b → ¬Relation.TransGen edge b b) →
        (h.ancestors a).Nodup ∧
          ∀ top ∈ (h.ancestors a).getLast?, ∀ super, ¬edge top super) := by
  intro h edge
  have hedges : ∀ sub super, h.superclass? sub = some super ↔ edge sub super :=
    fun _ _ => superclass?_eq_some_iff
  have hreach : ∀ b, Descends h a b ↔ Relation.ReflTransGen edge a b :=
    fun _ => descends_iff_reflTransGen hedges
  have hlength : (h.ancestors a).length ≤ edges.length + 1 := by
    have hsize := size_declareAll empty edges
    rw [show empty.supers.size = 0 from rfl, Nat.zero_add] at hsize
    exact Nat.le_trans (length_walk_le h _ a) (Nat.succ_le_succ hsize)
  have hsame : (fun sub super => h.superclass? sub = some super) = edge := by
    funext sub super
    exact propext (hedges sub super)
  have hchain : (h.ancestors a).IsChain edge := hsame ▸ ancestors_isChain h a
  refine ⟨hlength, head?_ancestors h a, hchain, ?_, ?_, ?_⟩
  · intro b
    rw [mem_ancestors_iff, hreach]
  · intro b
    rw [isSubtype, compare_plain h .below _ rfl, isBelow_ref, hreach]
  · intro hfree
    have hnodup : (h.ancestors a).Nodup := by
      apply nodup_ancestors_of_no_circle
      intro b hb
      rw [hsame]
      exact hfree b ((hreach b).mp hb)
    constructor
    · exact hnodup
    · intro top htop super hedge
      have hroot := superclass?_getLast_ancestors hnodup htop
      rw [(hedges top super).mpr hedge] at hroot
      cases hroot

/-- `E` was declared below `A` first and below `D` then. The chain from `C` runs into the circle
of `A` and `B`; that from `E` ends at `D`. -/
theorem ancestors_complete_redeclared :
    let edges := [("A", "B"), ("E", "A"), ("B", "A"), ("C", "A"), ("E", "D")]
    let h := empty.declareAll edges
    h.ancestors "C" = ["C", "A", "B", "A", "B"] ∧
      ¬Relation.ReflTransGen (DeclaredLast edges) "C" "D" ∧
      (∀ b, Relation.ReflTransGen (DeclaredLast edges) "E" b →
        ¬Relation.TransGen (DeclaredLast edges) b b) ∧
      h.ancestors "E" = ["E", "D"] ∧ (h.ancestors "E").Nodup := by
  intro edges h
  have hcircling : h.ancestors "C" = ["C", "A", "B", "A", "B"] := by decide +kernel
  have hended : h.ancestors "E" = ["E", "D"] := by decide +kernel
  have hedges : ∀ sub super, h.superclass? sub = some super ↔ DeclaredLast edges sub super :=
    fun _ _ => superclass?_eq_some_iff
  rcases ancestors_complete edges "C" with ⟨_, _, _, hreachC, _⟩
  rcases ancestors_complete edges "E" with ⟨_, _, _, hreachE, _, hchain⟩
  have hfree : ∀ b, Relation.ReflTransGen (DeclaredLast edges) "E" b →
      ¬Relation.TransGen (DeclaredLast edges) b b := by
    intro b hb
    have hmem := (hreachE b).mpr hb
    have htop : Descends h b "D" := by
      rw [hended, List.mem_cons, List.mem_singleton] at hmem
      rcases hmem with rfl | rfl
      · have hsuper : h.superclass? "E" = some "D" := by decide +kernel
        exact Descends.step hsuper (Descends.refl "D")
      · exact Descends.refl "D"
    exact no_circle_below_root hedges (by decide +kernel) htop
  have hapart : ¬Relation.ReflTransGen (DeclaredLast edges) "C" "D" := by
    rw [← hreachC, hcircling]
    decide
  exact ⟨hcircling, hapart, hfree, hended, (hchain hfree).1⟩

end Hierarchy

end ClassLet
