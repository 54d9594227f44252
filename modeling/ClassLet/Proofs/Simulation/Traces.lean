import ClassLet.Proofs.Simulation.CompiledRuns

/-!
# Traces of compiled programs

As long as heap and stack have not met, every state of the run of a program is that of a
configuration which the steps of the configurations lead to. What these steps keep therefore holds
of the machine.

Main statements: `Program.Loaded.trace` for one state of a run, and `Program.Loaded.traceTwo` and
`Program.Loaded.traceRun` for two of them.
-/

namespace ClassLet

namespace Machine

/-- The next step is the last one, and of the registers it moves no more than the pointers of
instruction and stack. -/
structure Ends (m : Machine) : Prop where
  opcode : ∃ op : Opcode, m.code[m.ip]? = some op.cell ∧ op ∈ [Opcode.halt, .div, .load]
  last : ∀ next, Exec.step.run m ≠ .ok .running next
  left : ∃ ip sp, (m.run 1).2 = { m with ip, sp }

theorem Ends.of_trap {m : Machine} {op : Opcode} {trap : Trap} {ip : Nat} {sp : Int32}
    (hop : m.code[m.ip]? = some op.cell) (hmem : op ∈ [Opcode.halt, .div, .load])
    (hstep : Exec.step.run m = .error trap { m with ip, sp }) : m.Ends where
  opcode := ⟨op, hop, hmem⟩
  last := by
    rw [hstep]
    rintro next ⟨⟩
  left := ⟨ip, sp, by simp only [run, hstep]⟩

/-- A run takes all of its steps or comes to a machine whose step is the last one. -/
theorem reaches_run (m : Machine) (k : Nat) :
    m.Reaches k (m.run k).2 ∨
      ∃ j m', j < k ∧ m.Reaches j m' ∧ (∀ next, Exec.step.run m' ≠ .ok .running next) ∧
        (m.run k).2 = (m'.run 1).2 := by
  induction k generalizing m with
  | zero => exact Or.inl (Reaches.refl m)
  | succ k ih =>
      have hlast : (∀ next, Exec.step.run m ≠ .ok .running next) →
          (m.run (k + 1)).2 = (m.run 1).2 := by
        intro hends
        simp only [run]
        cases hstep : Exec.step.run m with
        | error trap m' => rfl
        | ok progress m' =>
            cases progress with
            | halted => rfl
            | running => exact absurd hstep (hends m')
      by_cases hrunning : ∃ next, Exec.step.run m = .ok .running next
      · rcases hrunning with ⟨next, hstep⟩
        have hrun : m.run (k + 1) = next.run k := by
          rw [run, hstep]
        rw [hrun]
        rcases ih next with hreaches | ⟨j, m', hj, hreaches, hends, heq⟩
        · exact Or.inl (Reaches.step hstep hreaches)
        · exact Or.inr ⟨j + 1, m', Nat.succ_lt_succ hj, Reaches.step hstep hreaches, hends, heq⟩
      · have hends : ∀ next, Exec.step.run m ≠ .ok .running next := fun next hstep =>
          hrunning ⟨next, hstep⟩
        exact Or.inr ⟨0, m, Nat.succ_pos k, Reaches.refl m, hends, hlast hends⟩

end Machine

/-- The run of a program ends here, as its evaluation does. -/
inductive Program.Ending (p : Program) (w : World) (ty : Ty) (c : Config) : Prop where
  | halting {fuel : Nat} {v : Int32} {st : Store} :
      p.eval fuel = .ok v st →
      Config.Halting w none ty v st c →
      Ending p w ty c
  | dividingByZero {fuel : Nat} {st : Store} :
      p.eval fuel = .error .divisionByZero st →
      Config.DividesByZero w.im st c →
      Ending p w ty c
  | callingNull {fuel : Nat} {st : Store} :
      p.eval fuel = .error .nullReceiver st →
      Config.CallsNull w.im st c →
      Ending p w ty c

namespace Represents

variable {im : Image} {memorySize : Nat} {c : Config} {m m' : Machine}

theorem ends {p : Program} {w : World} {ty : Ty} (h : Represents w.im w.memorySize c m)
    (hending : p.Ending w ty c) : m.Ends := by
  cases hending with
  | halting _ hhalting =>
      have hop := hhalting.code.opcode w.im.coherent
      exact {
        opcode := ⟨.halt, (h.fetch 0).trans hop, by simp⟩
        last := by
          rw [h.halts hop]
          rintro next ⟨⟩
        left := ⟨m.ip + 1, m.sp, by simp only [Machine.run, h.halts hop]⟩ }
  | dividingByZero _ hdivides =>
      have hop := hdivides.code.opcode w.im.coherent
      rcases hdivides.stack with ⟨left, rest, hstack⟩
      rcases h.divides hop hstack with ⟨sp, hstep⟩
      exact Machine.Ends.of_trap ((h.fetch 0).trans hop) (by simp) hstep
  | callingNull _ hnull =>
      rcases hnull.code with ⟨offset, hcode⟩
      have hop := hcode.opcode w.im.coherent
      rcases hnull.stack with ⟨rest, hstack⟩
      rcases h.loads_null hop hstack with ⟨sp, hstep⟩
      exact Machine.Ends.of_trap ((h.fetch 0).trans hop) (by simp) hstep

/-- A state on the way to a goal, or at the goal if the run ends there. -/
theorem trace_of_leads [im.Addressable] {start : Config} (h : Represents im memorySize start m)
    {n least : Nat} (hreaches : m.Reaches n m')
    (hapart : ∀ j m'', j ≤ n → m.Reaches j m'' → m''.Apart)
    {goal last : Config → Prop} (hleads : LeadsIn im memorySize none least start goal)
    (hgoal : ∀ c m', least ≤ n → m'.Apart → Represents im memorySize c m' → goal c →
      last c ∧ m'.Ends) :
    ∃ c, Steps im memorySize none n start c ∧ Represents im memorySize c m' ∧
      ((∃ c', Step im memorySize c c') ∨ last c) := by
  rcases hleads with ⟨k, c', hsteps, hleast, hc'⟩
  rcases Nat.lt_or_ge n k with hlt | hge
  · obtain ⟨more, rfl⟩ : ∃ more, k = n + (more + 1) := ⟨k - n - 1, by omega⟩
    rcases hsteps.split with ⟨c, hfirst, hrest⟩
    have h' := h.followed hfirst hreaches hapart
    cases hrest with
    | step hstep _ _ => exact ⟨c, hfirst, h', Or.inl ⟨_, hstep⟩⟩
  · rcases h.follow hsteps fun j m'' hj => hapart j m'' (Nat.le_trans hj hge) with
      ⟨m₁, hreaches', h'⟩
    rcases hgoal c' m₁ (Nat.le_trans hleast hge) (hapart k m₁ hge hreaches') h' hc' with
      ⟨hlast, hends⟩
    obtain ⟨rfl, rfl⟩ := hreaches.last hreaches' hge hends.last
    exact ⟨c', hsteps, h', Or.inr hlast⟩

end Represents

namespace Program

variable {p : Program} {t : Target} {b : Build} {w : World} {m m' : Machine} {ty : Ty} {n : Nat}

theorem Loaded.trace (h : Loaded p t b w m ty) (hreaches : m.Reaches n m')
    (hapart : ∀ j m'', j ≤ n → m.Reaches j m'' → m''.Apart) :
    ∃ c, Steps w.im w.memorySize none n (Config.start w.topBase) c ∧
      Represents w.im w.memorySize c m' ∧
      ((∃ c', Step w.im w.memorySize c c') ∨ p.Ending w ty c) := by
  have hfollows := h.follows (n + 1)
  generalize hr : p.eval (n + 1 + 1) = r at hfollows
  have hto : ∀ {goal : Config → Prop}, (∀ c, goal c → p.Ending w ty c) →
      Leads w.im w.memorySize none (Config.start w.topBase) goal →
      ∃ c, Steps w.im w.memorySize none n (Config.start w.topBase) c ∧
        Represents w.im w.memorySize c m' ∧
        ((∃ c', Step w.im w.memorySize c c') ∨ p.Ending w ty c) :=
    fun hgoal hleads => h.start.trace_of_leads hreaches hapart hleads fun c _ _ _ h' hc =>
      ⟨hgoal c hc, h'.ends (hgoal c hc)⟩
  cases hfollows with
  | full _ _ hleads =>
      refine h.start.trace_of_leads hreaches hapart hleads ?_
      intro c m₁ _ hroom h' hfull
      exact absurd (h'.apart_iff.mp hroom) (Nat.not_lt.mpr hfull)
  | value hleads => exact hto (fun _ => Ending.halting hr) hleads
  | divisionByZero hleads => exact hto (fun _ => Ending.dividingByZero hr) hleads
  | nullReceiver hleads => exact hto (fun _ => Ending.callingNull hr) hleads
  | outOfFuel hleads =>
      refine h.start.trace_of_leads hreaches hapart hleads ?_
      intro c m₁ hleast
      exact absurd hleast (Nat.not_succ_le_self n)

/-- Two states of a run, the second one reached from the first. -/
theorem Loaded.traceTwo (h : Loaded p t b w m ty) {k : Nat} {m'' : Machine}
    (hreaches : m.Reaches n m') (hmore : m'.Reaches k m'')
    (hapart : ∀ j m₁, j ≤ n + k → m.Reaches j m₁ → m₁.Apart) :
    ∃ c c', Steps w.im w.memorySize none n (Config.start w.topBase) c ∧
      Represents w.im w.memorySize c m' ∧ Steps w.im w.memorySize none k c c' ∧
      Represents w.im w.memorySize c' m'' := by
  rcases h.trace (hreaches.trans hmore) hapart with ⟨c', hsteps, h', _⟩
  rcases hsteps.split with ⟨c, hfirst, hrest⟩
  have h₁ := h.start.followed hfirst hreaches fun j m₁ hj =>
    hapart j m₁ (Nat.le_trans hj (Nat.le_add_right n k))
  exact ⟨c, c', hfirst, h₁, hrest, h'⟩

/-- A state of a run and what the run has come to after some more steps, or at its end. -/
theorem Loaded.traceRun (h : Loaded p t b w m ty) {k : Nat} (hreaches : m.Reaches n m')
    (hapart : ∀ j m'', j ≤ n + k → m.Reaches j m'' → m''.Apart) :
    ∃ j c c' m'', Represents w.im w.memorySize c m' ∧ Steps w.im w.memorySize none j c c' ∧
      Represents w.im w.memorySize c' m'' ∧ (0 < k → 0 < j ∨ m'.Ends) ∧
      ∃ ip sp, (m'.run k).2 = { m'' with ip, sp } := by
  rcases m'.reaches_run k with hmore | ⟨j, m'', hj, hmore, hlast, heq⟩
  · rcases h.traceTwo hreaches hmore hapart with ⟨c, c', _, hc, hsteps, hc'⟩
    exact ⟨k, c, c', _, hc, hsteps, hc', Or.inl, _, _, rfl⟩
  · have hapart' : ∀ i m₁, i ≤ n + j → m.Reaches i m₁ → m₁.Apart := fun i m₁ hi =>
      hapart i m₁ (by omega)
    rcases h.traceTwo hreaches hmore hapart' with ⟨c, c', _, hc, hsteps, hc'⟩
    rcases h.trace (hreaches.trans hmore) hapart' with ⟨c₁, _, hc₁, ⟨c₂, hstep⟩ | hending⟩
    · rcases hc₁.next (hapart' _ m'' (Nat.le_refl _) (hreaches.trans hmore)) hstep with
        ⟨next, hrun, _⟩
      exact absurd hrun (hlast next)
    · have hends := hc₁.ends hending
      refine ⟨j, c, c', m'', hc, hsteps, hc', fun _ => ?_, ?_⟩
      · cases hmore with
        | refl => exact Or.inr hends
        | step _ _ => exact Or.inl (Nat.succ_pos _)
      · rw [heq]
        exact hends.left

end Program

end ClassLet
