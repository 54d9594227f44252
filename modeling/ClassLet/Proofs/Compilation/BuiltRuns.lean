import ClassLet.Proofs.Generation.ProgramCode
import ClassLet.Proofs.Machine.Runs
import ClassLet.Target

/-!
# Runs of what has been built

A build has the cells of the listing that the program is compiled to, and they fit into the code
store, so the machine of the target takes them. A run that has ended is not continued, so what a
number of steps comes to is what the run comes to.

Main statement: `Program.returns_of_compiledRun`, for programs whose runs are short.
-/

namespace ClassLet

/-!
# Builds
-/

/-- What has been built is the code of a listing, and it fits into the code store. -/
theorem Target.build_ok {t : Target} {p : Program} {b : Build} (h : t.build p = .ok b) :
    isAddressable t.memorySize = true ∧
      ∃ l : Listing, (p.compile (Int32.ofNat t.memorySize)).listing = some l ∧ l.Readable ∧
        b.code = l.encode ∧ b.code.length ≤ t.codeSize := by
  unfold Target.build at h
  split at h
  · rename_i haddressable
    simp only at h
    split at h
    · split at h
      · cases h
      · rename_i l hlisting
        rcases Program.listing_of_compile hlisting with ⟨_, _, hgenerate⟩
        rcases Program.generate_listing hgenerate with ⟨_, hreadable, _⟩
        rw [assemble_readable hreadable] at h
        split at h
        · rename_i code hassemble
          split at hassemble
          · cases hassemble
          · rename_i hfits
            cases hassemble
            cases h
            refine ⟨haddressable, l, hlisting, hreadable, rfl, ?_⟩
            show l.encode.length ≤ t.codeSize
            rw [hreadable.toCoherent.length_encode, ← codeSize_eq_cellCount]
            omega
        · cases h
    · cases h
  · cases h

namespace Program

theorem errors_of_listing {p : Program} {memorySize : Int32} {l : Listing}
    (h : (p.compile memorySize).listing = some l) : (p.compile memorySize).errors = [] := by
  simp only [compile] at h ⊢
  split at h
  · rename_i hchecked
    simp only [if_pos hchecked]
    simp only [Bool.and_eq_true, List.isEmpty_iff] at hchecked
    split at h
    · exact hchecked.1
    · cases h
  · cases h

theorem build_of_listing {p : Program} {t : Target} {l : Listing}
    (hmemory : isAddressable t.memorySize = true)
    (hlisting : (p.compile (Int32.ofNat t.memorySize)).listing = some l)
    (hsize : l.codeSize ≤ t.codeSize) :
    ∃ b, t.build p = .ok b ∧ b.code = l.encode ∧ b.code.length = l.codeSize := by
  rcases listing_of_compile hlisting with ⟨hlink, htyping, hgenerate⟩
  rcases generate_listing hgenerate with ⟨_, hreadable, _⟩
  have herrors := errors_of_listing hlisting
  unfold Target.build
  simp only [if_pos hmemory, herrors, List.isEmpty_nil, if_true, hlisting,
    assemble_readable hreadable, if_neg (Nat.not_lt.mpr hsize)]
  refine ⟨_, rfl, rfl, ?_⟩
  rw [hreadable.toCoherent.length_encode, codeSize_eq_cellCount]

end Program

/-!
# Runs that end
-/

namespace Machine

theorem load_ok {code : List Int32} {codeSize memorySize : Nat}
    (hfits : code.length ≤ codeSize) (haddressable : isAddressable memorySize = true) :
    ∃ m, load code codeSize memorySize = .ok m := by
  unfold load
  rw [if_neg (Nat.not_lt.mpr hfits), if_pos haddressable]
  exact ⟨_, rfl⟩

theorem run_of_ended {m m' : Machine} {n steps : Nat} {ending : RunEnd}
    (h : m.run n = (ending, m')) (hended : ending ≠ .outOfSteps) (hle : n ≤ steps) :
    m.run steps = (ending, m') := by
  induction n generalizing m steps with
  | zero =>
      cases h
      exact absurd rfl hended
  | succ n ih =>
      obtain ⟨k, rfl⟩ : ∃ k, steps = k + 1 := ⟨steps - 1, by omega⟩
      unfold run at h ⊢
      cases hstep : Exec.step.run m with
      | error trap m₁ =>
          rw [hstep] at h
          exact h
      | ok progress m₁ =>
          rw [hstep] at h
          cases progress with
          | halted => exact h
          | running => exact ih h (Nat.le_of_succ_le_succ hle)

/-- The run ends within the given number of steps, and heap and stack do not meet before. -/
def endsApart : Nat → Machine → Bool
  | 0, _ => false
  | steps + 1, m =>
      decide (m.hp.toInt < m.sp.toInt) &&
        match Exec.step.run m with
        | .ok .running m' => endsApart steps m'
        | _ => true

theorem apart_of_endsApart {m m' : Machine} {steps n : Nat} (h : m.endsApart steps = true)
    (hreaches : m.Reaches n m') : m'.Apart := by
  induction hreaches generalizing steps with
  | refl m =>
      cases steps with
      | zero => cases h
      | succ steps =>
          simp only [endsApart, Bool.and_eq_true, decide_eq_true_eq] at h
          exact h.1
  | step hrun _ ih =>
      cases steps with
      | zero => cases h
      | succ steps =>
          simp only [endsApart, hrun, Bool.and_eq_true] at h
          exact ih h.2

end Machine

namespace Target

variable {t : Target} {code : List Int32} {r r' : Except RunError (List Int32)}

/-- The run comes to an end with this result, and more steps change nothing. -/
def Returns (t : Target) (code : List Int32) (r : Except RunError (List Int32)) : Prop :=
  ∃ n, ∀ steps, n < steps → t.run steps code = r

theorem Returns.unique (h : t.Returns code r) (h' : t.Returns code r') : r = r' := by
  rcases h with ⟨n, hn⟩
  rcases h' with ⟨k, hk⟩
  rw [← hn (max n k + 1) (by omega), hk (max n k + 1) (by omega)]

theorem returns_of_run {n : Nat} (h : t.run n code = r) (hended : r ≠ .error .outOfSteps) :
    t.Returns code r := by
  refine ⟨n, fun steps hsteps => ?_⟩
  unfold run at h ⊢
  cases hload : Machine.load code t.codeSize t.memorySize with
  | error e =>
      rw [hload] at h
      exact h
  | ok m =>
      simp only [hload] at h ⊢
      rcases hrun : m.run n with ⟨ending, m'⟩
      rw [hrun] at h
      have hending : ending ≠ .outOfSteps := by
        rintro rfl
        exact hended h.symm
      rw [Machine.run_of_ended hrun hending (Nat.le_of_lt hsteps)]
      exact h

/-- In no state of the run of the code have heap and stack met. -/
def KeepsApart (t : Target) (code : List Int32) : Prop :=
  ∀ m, Machine.load code t.codeSize t.memorySize = .ok m → ∀ n m', m.Reaches n m' → m'.Apart

/-- The run of the code ends within the given number of steps and keeps heap and stack apart. -/
def endsApart (t : Target) (steps : Nat) (code : List Int32) : Bool :=
  match Machine.load code t.codeSize t.memorySize with
  | .ok m => m.endsApart steps
  | .error _ => false

theorem keepsApart_of_endsApart {steps : Nat} (h : t.endsApart steps code = true) :
    t.KeepsApart code := by
  intro m hload n m' hreaches
  simp only [endsApart, hload] at h
  exact Machine.apart_of_endsApart h hreaches

end Target

namespace Program

/-- The size of the compiled code, what its run comes to, and whether that keeps heap and stack
apart. -/
def compiledRun (p : Program) (t : Target) (steps : Nat) :
    Option (Nat × Except RunError (List Int32) × Bool) :=
  (p.compile (Int32.ofNat t.memorySize)).listing.map fun l =>
    (l.codeSize, t.run steps l.encode, t.endsApart steps l.encode)

theorem returns_of_compiledRun {p : Program} {t : Target} {steps size : Nat}
    {r : Except RunError (List Int32)} {apart : Bool} (hmemory : isAddressable t.memorySize = true)
    (hcompiled : p.compiledRun t steps = some (size, r, apart)) (hended : r ≠ .error .outOfSteps)
    (hsize : size ≤ t.codeSize) :
    ∃ b, t.build p = .ok b ∧ b.code.length = size ∧ t.Returns b.code r ∧
      (apart = true → t.KeepsApart b.code) := by
  rcases Option.map_eq_some_iff.mp hcompiled with ⟨l, hlisting, heq⟩
  simp only [Prod.mk.injEq] at heq
  rcases heq with ⟨rfl, hrun, rfl⟩
  rcases build_of_listing hmemory hlisting hsize with ⟨b, hbuild, hcode, hlength⟩
  rw [← hcode] at hrun
  refine ⟨b, hbuild, hlength, Target.returns_of_run hrun hended, fun hends => ?_⟩
  exact Target.keepsApart_of_endsApart (hcode ▸ hends)

end Program

end ClassLet
