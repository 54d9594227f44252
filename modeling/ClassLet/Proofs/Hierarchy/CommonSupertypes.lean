import ClassLet.Proofs.Hierarchy.SubtypeOrder

/-!
# Least common supertypes

The search for a common supertype looks only at the classes above the first type and takes the
first of them that fits, on a walk that is cut after a fixed number of classes. What it finds is
still the least type above both, in whatever circles the superclass edges run, and it fails only
where nothing is above both.

Main statement: `commonSupertype_least`.
-/

namespace ClassLet

namespace Hierarchy

variable {h : Hierarchy} {a b c d : Ty}

/-!
# What is above a type
-/

theorem isSubtype_ref_iff {name : String} :
    h.isSubtype (.ref name) d = true ↔ ∃ top, d = .ref top ∧ Descends h name top := by
  rw [isSubtype, compare_plain h .below d rfl]
  cases d with
  | ref top => simp [isBelow_ref]
  | _ => simp [isBelow]

theorem isSubtype_left_plain (ha : a.signature? = none) : h.isSubtype a d = h.isBelow a d :=
  compare_plain h .below d ha

theorem isSubtype_right_plain (hd : d.signature? = none) : h.isSubtype a d = h.isBelow a d := by
  rw [← compare_above, compare_plain h .above a hd]

/-- Only references have supertypes that are not comparable. -/
theorem comparable_of_above (ha : a.signature? = none) (href : a.className? = none)
    (had : h.isSubtype a d = true) (hbd : h.isSubtype b d = true) :
    h.isSubtype a b = true ∨ h.isSubtype b a = true := by
  rw [isSubtype_left_plain ha] at had
  rw [isSubtype_right_plain (isBelow_signature? had).2] at hbd
  rw [isSubtype_left_plain ha, isSubtype_right_plain ha]
  cases a with
  | ref name => cases href
  | _ => cases d <;> simp [isBelow] at had <;> cases b <;> simp_all [isBelow]

/-!
# The search
-/

/-- Of the classes on a walk that fit, the first one is met first. -/
theorem descends_of_find? {fits : String → Bool} {name first top : String} (steps : Nat)
    (hfind : (h.walk steps name).find? fits = some first) (htop : top ∈ h.walk steps name)
    (hfits : fits top = true) : Descends h first top := by
  induction steps generalizing name with
  | zero => cases htop
  | succ steps ih =>
      by_cases hname : fits name = true
      · rw [walk, List.find?_cons_of_pos hname] at hfind
        cases hfind
        exact descends_of_mem_walk _ _ htop
      · have hne : top ≠ name := fun heq => hname (heq ▸ hfits)
        rw [walk, List.find?_cons_of_neg hname] at hfind
        rw [walk, List.mem_cons, or_iff_right hne] at htop
        cases hedge : h.superclass? name with
        | none =>
            rw [hedge] at htop
            cases htop
        | some super =>
            rw [hedge] at hfind htop
            exact ih hfind htop

/-- How the search ends. -/
inductive Search (h : Hierarchy) (a b : Ty) : Option Ty → Prop where
  | right : h.isSubtype a b = true → Search h a b (some b)
  | left : h.isSubtype b a = true → Search h a b (some a)
  | first {name first : String} :
      a = .ref name →
      (h.ancestors name).find? (fun c => h.isSubtype b (.ref c)) = some first →
      Search h a b (some (.ref first))
  | failed :
      h.isSubtype a b = false →
      h.isSubtype b a = false →
      (∀ name, a = .ref name → ∀ c ∈ h.ancestors name, h.isSubtype b (.ref c) = false) →
      Search h a b none

theorem search_commonSupertype? (h : Hierarchy) (a b : Ty) :
    Search h a b (h.commonSupertype? a b) := by
  unfold commonSupertype?
  by_cases hab : h.isSubtype a b = true
  · rw [if_pos hab]
    exact Search.right hab
  by_cases hba : h.isSubtype b a = true
  · rw [if_neg hab, if_pos hba]
    exact Search.left hba
  rw [if_neg hab, if_neg hba]
  rw [Bool.not_eq_true] at hab hba
  cases a with
  | ref name =>
      cases hfind : (h.ancestors name).find? fun c => h.isSubtype b (.ref c) with
      | some first =>
          simp only [hfind]
          exact Search.first rfl hfind
      | none =>
          simp only [hfind]
          refine Search.failed hab hba ?_
          intro name' heq c hc
          cases heq
          simpa using List.find?_eq_none.mp hfind c hc
  | _ => exact Search.failed hab hba fun _ heq => nomatch heq

theorem Search.above (hsearch : Search h a b (some c)) :
    h.isSubtype a c = true ∧ h.isSubtype b c = true := by
  cases hsearch with
  | right hab => exact ⟨hab, h.isSubtype_refl b⟩
  | left hba => exact ⟨h.isSubtype_refl a, hba⟩
  | first hname hfind =>
      rename_i name first
      subst hname
      have hmem := List.mem_of_find?_eq_some hfind
      have hfits := List.find?_some hfind
      exact ⟨isSubtype_ref_iff.mpr ⟨first, rfl, (h.mem_ancestors_iff name first).mp hmem⟩, hfits⟩

theorem Search.below (hsearch : Search h a b (some c)) (had : h.isSubtype a d = true)
    (hbd : h.isSubtype b d = true) : h.isSubtype c d = true := by
  cases hsearch with
  | right _ => exact hbd
  | left _ => exact had
  | first hname hfind =>
      rename_i name first
      subst hname
      rcases isSubtype_ref_iff.mp had with ⟨top, rfl, hdescends⟩
      have hmem := (h.mem_ancestors_iff name top).mpr hdescends
      exact isSubtype_ref_iff.mpr ⟨top, rfl, descends_of_find? _ hfind hmem hbd⟩

/-- Where the search fails, nothing is above both types, unless they are signatures: those may
have a common supertype that is neither of the two. -/
theorem Search.not_above (hsearch : Search h a b none) (ha : a.signature? = none)
    (had : h.isSubtype a d = true) : h.isSubtype b d = false := by
  cases hsearch with
  | failed hab hba hwalk =>
      rw [← Bool.not_eq_true]
      intro hbd
      cases href : a.className? with
      | none =>
          have hcomparable := comparable_of_above ha href had hbd
          simp [hab, hba] at hcomparable
      | some name =>
          cases a with
          | ref name =>
              rcases isSubtype_ref_iff.mp had with ⟨top, rfl, hdescends⟩
              rw [hwalk name rfl top ((h.mem_ancestors_iff name top).mpr hdescends)] at hbd
              cases hbd
          | _ => cases href

/-- The search fails in one order if it fails in the other. -/
theorem Search.eq_none {found : Option Ty} (hsearch : Search h a b none)
    (hsearch' : Search h b a found) : found = none := by
  cases hsearch' with
  | right hba =>
      cases hsearch with
      | failed _ hba' _ => exact nomatch hba'.symm.trans hba
  | left hab =>
      cases hsearch with
      | failed hab' _ _ => exact nomatch hab'.symm.trans hab
  | first hname hfind =>
      rename_i name first
      have habove := (Search.first hname hfind).above
      have ha := habove.2
      rw [isSubtype_right_plain rfl] at ha
      exact nomatch (hsearch.not_above (isBelow_signature? ha).1 habove.2).symm.trans habove.1
  | failed => rfl

/-!
# Least upper bounds
-/

theorem commonSupertype?_above (hcommon : h.commonSupertype? a b = some c) :
    h.isSubtype a c = true ∧ h.isSubtype b c = true := by
  have hsearch := h.search_commonSupertype? a b
  rw [hcommon] at hsearch
  exact hsearch.above

theorem isCallable_eq_false_iff {t : Ty} : t.isCallable = false ↔ t.signature? = none := by
  simp [Ty.isCallable]

theorem commonSupertype_least (h : Hierarchy) (a b : Ty) :
    (∀ c, h.commonSupertype? a b = some c →
        h.isSubtype a c = true ∧ h.isSubtype b c = true ∧
          ∀ d, h.isSubtype a d = true → h.isSubtype b d = true → h.isSubtype c d = true) ∧
      (h.commonSupertype? a b = none → a.isCallable = false → b.isCallable = false →
        ∀ d, ¬(h.isSubtype a d = true ∧ h.isSubtype b d = true)) ∧
      (∀ c c', h.commonSupertype? a b = some c → h.commonSupertype? b a = some c' →
        h.isSubtype c c' = true ∧ h.isSubtype c' c = true) ∧
      (h.commonSupertype? a b = none ↔ h.commonSupertype? b a = none) := by
  have hsearch := h.search_commonSupertype? a b
  have hsearch' := h.search_commonSupertype? b a
  refine ⟨?_, ?_, ?_, ?_⟩
  · intro c hcommon
    rcases commonSupertype?_above hcommon with ⟨hac, hbc⟩
    rw [hcommon] at hsearch
    exact ⟨hac, hbc, fun d => hsearch.below⟩
  · rintro hnone ha _ d ⟨had, hbd⟩
    rw [hnone] at hsearch
    exact nomatch (hsearch.not_above (isCallable_eq_false_iff.mp ha) had).symm.trans hbd
  · intro c c' hcommon hcommon'
    rw [hcommon] at hsearch
    rw [hcommon'] at hsearch'
    exact ⟨hsearch.below hsearch'.above.2 hsearch'.above.1,
      hsearch'.below hsearch.above.2 hsearch.above.1⟩
  · constructor
    · intro hnone
      exact (hnone ▸ hsearch).eq_none hsearch'
    · intro hnone
      exact (hnone ▸ hsearch').eq_none hsearch

/-- `A` and `B` are superclasses of each other, so which of them is found for `C` and `D` depends
on the order. -/
theorem commonSupertype_least_circling :
    let h := empty.declareAll [("A", "B"), ("B", "A"), ("C", "B"), ("D", "A")]
    h.commonSupertype? (.ref "C") (.ref "D") = some (.ref "B") ∧
      h.commonSupertype? (.ref "D") (.ref "C") = some (.ref "A") ∧
      h.isSubtype (.ref "B") (.ref "A") = true ∧ h.isSubtype (.ref "A") (.ref "B") = true ∧
      h.commonSupertype? (.ref "C") .int = none ∧
      ∀ d, ¬(h.isSubtype (.ref "C") d = true ∧ h.isSubtype .int d = true) := by
  intro h
  have hcd : h.commonSupertype? (.ref "C") (.ref "D") = some (.ref "B") := by decide +kernel
  have hdc : h.commonSupertype? (.ref "D") (.ref "C") = some (.ref "A") := by decide +kernel
  have hnone : h.commonSupertype? (.ref "C") .int = none := by decide +kernel
  have hmutual := (h.commonSupertype_least (.ref "C") (.ref "D")).2.2.1 _ _ hcd hdc
  exact ⟨hcd, hdc, hmutual.1, hmutual.2, hnone,
    (h.commonSupertype_least (.ref "C") .int).2.1 hnone rfl rfl⟩

end Hierarchy

end ClassLet
