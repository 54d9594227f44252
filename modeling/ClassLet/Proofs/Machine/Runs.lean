import ClassLet.Proofs.Machine.Refinement

/-!
# Runs of the machine

A run is followed configuration by configuration. As long as the heap pointer is below the stack
pointer nothing can go wrong, and the step that makes them meet is still taken; a run without a
heap ends with a trap as soon as its stack outgrows the memory.

Main statements: `Represents.follow` and `Represents.followBounded`.
-/

namespace ClassLet

namespace Machine

/-- The given number of instructions leads from one machine to the other. -/
inductive Reaches : Nat → Machine → Machine → Prop where
  | refl (m : Machine) : Reaches 0 m m
  | step {n : Nat} {m m' m'' : Machine} :
      Exec.step.run m = .ok .running m' →
      Reaches n m' m'' →
      Reaches (n + 1) m m''

/-- Heap and stack have not met. -/
def Apart (m : Machine) : Prop :=
  m.hp.toInt < m.sp.toInt

namespace Reaches

variable {n k : Nat} {m m' m'' : Machine}

theorem snoc (h : Reaches n m m') (hstep : Exec.step.run m' = .ok .running m'') :
    Reaches (n + 1) m m'' := by
  induction h with
  | refl => exact step hstep (refl _)
  | step hfirst _ ih => exact step hfirst (ih hstep)

theorem trans (h : Reaches n m m') (h' : Reaches k m' m'') : Reaches (n + k) m m'' := by
  induction h with
  | refl => simpa using h'
  | step hfirst _ ih =>
      rw [Nat.succ_add]
      exact step hfirst (ih h')

theorem unique (h : Reaches n m m') (h' : Reaches n m m'') : m' = m'' := by
  induction h with
  | refl =>
      cases h'
      rfl
  | step hfirst _ ih =>
      cases h' with
      | step hfirst' hrest' =>
          rw [hfirst] at hfirst'
          cases hfirst'
          exact ih hrest'

theorem split (h : Reaches (n + k) m m'') : ∃ m', Reaches n m m' ∧ Reaches k m' m'' := by
  induction n generalizing m with
  | zero => exact ⟨m, refl m, by simpa using h⟩
  | succ n ih =>
      rw [Nat.succ_add] at h
      cases h with
      | step hfirst hrest =>
          rcases ih hrest with ⟨m', hreaches, hreaches'⟩
          exact ⟨m', step hfirst hreaches, hreaches'⟩

/-- Fewer instructions are executed on the way. -/
theorem le (h : Reaches n m m') (hle : k ≤ n) : ∃ m'', Reaches k m m'' := by
  obtain ⟨more, rfl⟩ := Nat.exists_eq_add_of_le hle
  rcases h.split with ⟨m'', hreaches, _⟩
  exact ⟨m'', hreaches⟩

/-- A run does not go on behind a machine whose step is its last. -/
theorem last (h : Reaches n m m') (h' : Reaches k m m'') (hle : k ≤ n)
    (hlast : ∀ next, Exec.step.run m'' ≠ .ok .running next) : n = k ∧ m' = m'' := by
  obtain ⟨more, rfl⟩ := Nat.exists_eq_add_of_le hle
  rcases h.split with ⟨m₁, hreaches, hmore⟩
  obtain rfl := hreaches.unique h'
  cases hmore with
  | refl => exact ⟨rfl, rfl⟩
  | step hrun _ => exact absurd hrun (hlast _)

theorem run_add (h : Reaches n m m') (k : Nat) : m.run (n + k) = m'.run k := by
  induction h with
  | refl => rw [Nat.zero_add]
  | step hfirst _ ih =>
      rw [Nat.succ_add, run, hfirst]
      exact ih

theorem run_eq (h : Reaches n m m') : m.run n = (.outOfSteps, m') :=
  h.run_add 0

theorem of_run (h : m.run n = (.outOfSteps, m')) : Reaches n m m' := by
  induction n generalizing m with
  | zero =>
      cases h
      exact refl _
  | succ n ih =>
      rw [run] at h
      cases hstep : Exec.step.run m with
      | error trap m₁ =>
          rw [hstep] at h
          cases h
      | ok progress m₁ =>
          rw [hstep] at h
          cases progress with
          | halted => cases h
          | running => exact step hstep (ih h)

/-- A run that traps comes to an instruction that does. -/
theorem of_trapped {trap : Trap} {steps : Nat} (h : m.run steps = (.trapped trap, m'')) :
    ∃ n m', n < steps ∧ Reaches n m m' ∧ Exec.step.run m' = .error trap m'' := by
  induction steps generalizing m with
  | zero => cases h
  | succ steps ih =>
      rw [run] at h
      cases hstep : Exec.step.run m with
      | error trap' m₁ =>
          rw [hstep] at h
          cases h
          exact ⟨0, m, Nat.succ_pos steps, refl m, hstep⟩
      | ok progress m₁ =>
          rw [hstep] at h
          cases progress with
          | halted => cases h
          | running =>
              rcases ih h with ⟨n, m', hn, hreaches, htrap⟩
              exact ⟨n + 1, m', Nat.succ_lt_succ hn, step hstep hreaches, htrap⟩

/-- A run that ends behind the last of the instructions. -/
theorem run_halted (h : Reaches n m m') (hend : Exec.step.run m' = .ok .halted m'') {steps : Nat}
    (hsteps : n < steps) : m.run steps = (.halted, m'') := by
  obtain ⟨k, rfl⟩ : ∃ k, steps = n + (k + 1) := ⟨steps - n - 1, by omega⟩
  rw [h.run_add, run, hend]

theorem run_trapped {trap : Trap} (h : Reaches n m m')
    (hend : Exec.step.run m' = .error trap m'') {steps : Nat} (hsteps : n < steps) :
    m.run steps = (.trapped trap, m'') := by
  obtain ⟨k, rfl⟩ : ∃ k, steps = n + (k + 1) := ⟨steps - n - 1, by omega⟩
  rw [h.run_add, run, hend]

end Reaches

theorem step_of_run {m : Machine} {n j : Nat} (h : (m.run n).1 = .outOfSteps) (hj : j < n) :
    Exec.step.run (m.run j).2 = .ok .running (m.run (j + 1)).2 := by
  obtain ⟨k, rfl⟩ : ∃ k, n = j + (k + 1) := ⟨n - j - 1, by omega⟩
  rcases (Reaches.of_run (Prod.ext h rfl)).split with ⟨m', hfirst, hrest⟩
  cases hrest with
  | step hstep _ =>
      rw [hfirst.run_eq, (hfirst.snoc hstep).run_eq]
      exact hstep

end Machine

namespace Represents

variable {im : Image} {memorySize : Nat} {c c' : Config} {m : Machine}

theorem apart_iff (h : Represents im memorySize c m) :
    m.Apart ↔ c.hp + c.stack.length < memorySize := by
  have hsp := h.toInt_sp
  have hhp := h.toInt_hp
  unfold Machine.Apart
  omega

variable [im.Addressable]

/-- The next step, from a machine whose heap and stack have not met. -/
theorem next (h : Represents im memorySize c m) (hapart : m.Apart)
    (hstep : Step im memorySize c c') :
    ∃ m', Exec.step.run m = .ok .running m' ∧ (m'.Apart → Represents im memorySize c' m') := by
  by_cases hfits : c'.heap.length + c'.stack.length ≤ memorySize
  · rcases h.step hstep (toInt_step hstep) hfits with ⟨m', hrun, h'⟩
    exact ⟨m', hrun, fun _ => h'⟩
  · have hroom := h.apart_iff.mp hapart
    have hgrowth := growth hstep
    have hheap := h.heap_le
    have hle := le_of_isAddressable h.addressable
    have hsp : (m.sp - 1).toInt = (memorySize : Int) - c.stack.length - 1 := by
      rw [h.sp, show (1 : Int32) = Int32.ofInt 1 from rfl, ← Int32.ofInt_sub]
      exact Int32.toInt_ofInt_of_le (by omega) (by omega)
    rcases h.pushes hstep (by omega) with ⟨v, ip, ⟨memory, hwrite, hrun⟩ | ⟨hwrite, _⟩⟩
    · refine ⟨_, hrun, ?_⟩
      intro hapart'
      have hhp := h.toInt_hp
      change m.hp.toInt < (m.sp - 1).toInt at hapart'
      omega
    · have hsome : (m.memory.write? (m.sp - 1) v).isSome := by
        rw [Memory.write?_isSome_iff, hsp, h.size]
        omega
      rw [hwrite] at hsome
      cases hsome

/-- A run is followed to its end if heap and stack do not meet on the way. -/
theorem follow (h : Represents im memorySize c m) {n : Nat}
    (hsteps : Steps im memorySize none n c c')
    (hapart : ∀ j m', j ≤ n → m.Reaches j m' → m'.Apart) :
    ∃ m', m.Reaches n m' ∧ Represents im memorySize c' m' := by
  induction hsteps generalizing m with
  | refl c => exact ⟨m, Machine.Reaches.refl m, h⟩
  | @step n c c₁ c' hstep _ _ ih =>
      rcases h.next (hapart 0 m (Nat.zero_le _) (Machine.Reaches.refl m)) hstep with
        ⟨m₁, hrun, hnext⟩
      have hlater : ∀ j m', j ≤ n → m₁.Reaches j m' → m'.Apart := fun j m' hj hreaches =>
        hapart (j + 1) m' (Nat.succ_le_succ hj) (Machine.Reaches.step hrun hreaches)
      rcases ih (hnext (hlater 0 m₁ (Nat.zero_le _) (Machine.Reaches.refl m₁))) hlater with
        ⟨m', hreaches, h'⟩
      exact ⟨m', Machine.Reaches.step hrun hreaches, h'⟩

/-- The state at the end of the steps. -/
theorem followed (h : Represents im memorySize c m) {n : Nat}
    (hsteps : Steps im memorySize none n c c') {m' : Machine} (hreaches : m.Reaches n m')
    (hapart : ∀ j m'', j ≤ n → m.Reaches j m'' → m''.Apart) : Represents im memorySize c' m' := by
  rcases h.follow hsteps hapart with ⟨m'', hreaches', h'⟩
  exact hreaches.unique hreaches' ▸ h'

/-- A run without a heap is followed to its end or to a trap of the memory. -/
theorem followBounded (h : Represents im memorySize c m) {n depth : Nat} (hheap : c.heap = [])
    (hsteps : Steps im memorySize (some depth) n c c') :
    (∃ m', m.Reaches n m' ∧ Represents im memorySize c' m') ∨
      memorySize < depth ∧ ∃ k m' ip m'', m.Reaches k m' ∧
        Exec.step.run m' = .error (.memoryOutOfRange (-1) ip) m'' := by
  generalize hbound : some depth = bound at hsteps
  induction hsteps generalizing m with
  | refl c => exact Or.inl ⟨m, Machine.Reaches.refl m, h⟩
  | step hstep hallows _ ih =>
      rename_i n c c₁ c' _
      rcases hallows depth (hbound ▸ rfl) with ⟨hheap₁, hdepth⟩
      by_cases hfits : c₁.heap.length + c₁.stack.length ≤ memorySize
      · rcases h.step hstep (toInt_step hstep) hfits with ⟨m₁, hrun, h₁⟩
        rcases ih h₁ hheap₁ with ⟨m', hreaches, h'⟩ |
          ⟨hsmall, k, m', ip, m'', hreaches, htrap⟩
        · exact Or.inl ⟨m', Machine.Reaches.step hrun hreaches, h'⟩
        · exact Or.inr ⟨hsmall, k + 1, m', ip, m'', Machine.Reaches.step hrun hreaches, htrap⟩
      · rcases h.overflow hheap hstep (by omega) with ⟨ip, m'', htrap⟩
        refine Or.inr ⟨?_, 0, m, ip, m'', Machine.Reaches.refl m, htrap⟩
        simp only [hheap₁, List.length_nil] at hfits
        omega

end Represents

end ClassLet
