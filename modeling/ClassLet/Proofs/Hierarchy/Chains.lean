import ClassLet.Proofs.Hierarchy.Reachability

/-!
# Chains of superclasses

Where the superclass edges do not run in a circle, the walk towards the root meets every class at
most once and is never cut.

Main statements: `ancestors_isChain`, each class is followed by its superclass, and
`superclass?_getLast_ancestors`, a walk without repetition ends at a class without superclass.
-/

namespace ClassLet

namespace Hierarchy

variable {h : Hierarchy} {name : String}

theorem mem_names_of_superclass? {super : String} (hedge : h.superclass? name = some super) :
    name ∈ h.supers.names := by
  rw [← NameMap.contains_iff]
  simp only [superclass?] at hedge
  simp [NameMap.contains, hedge]

theorem walk_of_none (hroot : h.superclass? name = none) (steps : Nat) :
    h.walk (steps + 1) name = [name] := by
  simp [walk, hroot]

theorem walk_of_some {super : String} (hedge : h.superclass? name = some super) (steps : Nat) :
    h.walk (steps + 1) name = name :: h.walk steps super := by
  simp [walk, hedge]

theorem head?_ancestors (h : Hierarchy) (name : String) :
    (h.ancestors name).head? = some name := by
  simp [ancestors, walk]

theorem walk_isChain (h : Hierarchy) (steps : Nat) (name : String) :
    (h.walk steps name).IsChain fun sub super => h.superclass? sub = some super := by
  induction steps generalizing name with
  | zero => exact List.IsChain.nil
  | succ steps ih =>
      cases hedge : h.superclass? name with
      | none =>
          rw [walk_of_none hedge]
          exact List.IsChain.singleton name
      | some super =>
          rw [walk_of_some hedge]
          cases steps with
          | zero => exact List.IsChain.singleton name
          | succ steps => exact List.IsChain.cons_cons hedge (ih super)

theorem ancestors_isChain (h : Hierarchy) (name : String) :
    (h.ancestors name).IsChain fun sub super => h.superclass? sub = some super :=
  walk_isChain h _ name

/-- A walk that ends at a class with a superclass has been cut, and all its classes have one. -/
theorem walk_cut (steps : Nat) (name : String)
    (hlast : ∀ top ∈ (h.walk steps name).getLast?, h.superclass? top ≠ none) :
    (h.walk steps name).length = steps ∧ h.walk steps name ⊆ h.supers.names := by
  induction steps generalizing name with
  | zero => simp [walk]
  | succ steps ih =>
      cases hedge : h.superclass? name with
      | none =>
          rw [walk_of_none hedge] at hlast
          exact absurd hedge (hlast name rfl)
      | some super =>
          have hname := mem_names_of_superclass? hedge
          rw [walk_of_some hedge] at hlast ⊢
          have hrest : ∀ top ∈ (h.walk steps super).getLast?, h.superclass? top ≠ none := by
            intro top htop
            apply hlast
            rw [Option.mem_def] at htop ⊢
            rw [List.getLast?_cons, htop]
            rfl
          rcases ih super hrest with ⟨hlength, hsubset⟩
          exact ⟨by rw [List.length_cons, hlength], List.cons_subset.mpr ⟨hname, hsubset⟩⟩

theorem superclass?_getLast_ancestors (hnodup : (h.ancestors name).Nodup) {top : String}
    (htop : top ∈ (h.ancestors name).getLast?) : h.superclass? top = none := by
  by_contra hedge
  have hlast : ∀ last ∈ (h.ancestors name).getLast?, h.superclass? last ≠ none := by
    intro last hmem
    rw [Option.mem_def] at htop hmem
    rw [htop, Option.some.injEq] at hmem
    exact hmem ▸ hedge
  rcases walk_cut _ _ hlast with ⟨hlength, hsubset⟩
  have hle := (List.subperm_of_subset hnodup hsubset).length_le
  rw [show (h.ancestors name).length = h.supers.size + 1 from hlength, NameMap.names,
    List.length_map] at hle
  exact Nat.not_succ_le_self _ hle

/-- Edges along which something grows strictly lead to no class twice. -/
theorem ancestors_nodup {above : String → String → Prop}
    (htrans : ∀ a b c, above a b → above b c → above a c) (hirrefl : ∀ a, ¬above a a)
    (hedges : ∀ sub super, h.superclass? sub = some super → above sub super) (name : String) :
    (h.ancestors name).Nodup := by
  have : Trans above above above := ⟨fun hab hbc => htrans _ _ _ hab hbc⟩
  have hchain := (ancestors_isChain h name).imp fun sub super hedge => hedges sub super hedge
  refine hchain.pairwise.imp ?_
  rintro a b hab rfl
  exact hirrefl a hab

/-!
# Declared edges
-/

theorem superclass?_declareAll {edges : List (String × String)} {sub super : String}
    (hedge : (h.declareAll edges).superclass? sub = some super) :
    (sub, super) ∈ edges ∨ h.superclass? sub = some super := by
  induction edges generalizing h with
  | nil => exact Or.inr hedge
  | cons edge edges ih =>
      rcases ih (h := h.declare edge.1 edge.2) hedge with hmem | hfirst
      · exact Or.inl (List.mem_cons_of_mem _ hmem)
      · rw [superclass?_declare] at hfirst
        split at hfirst
        · rename_i heq
          rw [Option.some.injEq] at hfirst
          rw [heq, ← hfirst]
          exact Or.inl List.mem_cons_self
        · exact Or.inr hfirst

theorem superclass?_declareAll_isSome {edges : List (String × String)} {sub : String}
    (hsub : (h.superclass? sub).isSome ∨ sub ∈ edges.map Prod.fst) :
    ((h.declareAll edges).superclass? sub).isSome := by
  induction edges generalizing h with
  | nil => simpa using hsub
  | cons edge edges ih =>
      apply ih (h := h.declare edge.1 edge.2)
      rw [superclass?_declare]
      by_cases heq : sub = edge.1
      · simp [heq]
      · simpa [heq] using hsub

end Hierarchy

end ClassLet
