import ClassLet.Proofs.Machine.Invariant
import ClassLet.Proofs.Machine.Moves

/-!
# What a trap leaves behind

An instruction writes only as its last effect: before that it takes code cells and values off the
stack. So a trap finds the memory and the registers as they were, but for the cells and values that
have been taken; only a call has noted the place to return to before its jump is refused.

Main statement: `Machine.Sound.intact_of_trapped`.
-/

namespace ClassLet

namespace Machine

/-- Code cells and values of the stack have been taken, and nothing else has happened. -/
structure Taken (cells values : Nat) (m m' : Machine) : Prop where
  same : m' = { m with ip := m.ip + cells, sp := m'.sp }
  sp_eq : m'.sp.toInt = m.sp.toInt + values

theorem Taken.none (m : Machine) : Taken 0 0 m m where
  same := rfl
  sp_eq := (Int.add_zero _).symm

theorem Taken.trans {cells cells' values values' : Nat} {m m₁ m₂ : Machine}
    (h : Taken cells values m m₁) (h' : Taken cells' values' m₁ m₂) :
    Taken (cells' + cells) (values' + values) m m₂ where
  same := by
    rw [h'.same, h.same, Nat.add_comm cells' cells, Nat.add_assoc]
  sp_eq := by
    rw [h'.sp_eq, h.sp_eq, Nat.add_comm values' values, Int.natCast_add, Int.add_assoc]

end Machine

namespace Exec

variable {code : List Int32} {memorySize cells cells' values values' : Nat} {α β : Type}

/-!
# Traps on the way
-/

/-- If the effect traps, no more than so many code cells and values have been taken. -/
def TrapsWithin (code : List Int32) (memorySize cells values : Nat) (f : Exec α) : Prop :=
  ∀ m m' trap, m.Sound code memorySize → f.run m = .error trap m' →
    (∃ c ≤ cells, ∃ v ≤ values, m.Taken c v m') ∧ ∀ cell ip, trap ≠ .unknownOpcode cell ip

/-- If the effect is completed, exactly so many code cells and values have been taken. -/
def Takes (code : List Int32) (memorySize cells values : Nat) (f : Exec α) : Prop :=
  ∀ m a m', m.Sound code memorySize → f.run m = .ok a m' →
    m.Taken cells values m' ∧ m'.Sound code memorySize

theorem jump_unchanged {target : Int32} {start : Nat} {m m' : Machine} {trap : Trap}
    (h : (jump target start).run m = .error trap m') :
    m' = m ∧ ∀ cell ip, trap ≠ .unknownOpcode cell ip := by
  by_cases hrange : 0 ≤ target.toInt ∧ target.toInt ≤ m.code.size
  · rw [jump_run (a := target.toInt.toNat) (by omega) (by omega)] at h
    cases h
  · rw [jump_trapped hrange] at h
    cases h
    exact ⟨rfl, fun _ _ => Trap.noConfusion⟩

namespace TrapsWithin

/-- The first effect traps, if at all, before it has taken anything. -/
theorem bind {f : Exec α} {g : α → Exec β} (hf : TrapsWithin code memorySize 0 0 f)
    (hdone : Takes code memorySize cells values f)
    (hg : ∀ a, TrapsWithin code memorySize cells' values' (g a)) :
    TrapsWithin code memorySize (cells' + cells) (values' + values) (f >>= g) := by
  intro m m' trap hsound hrun
  rw [EStateM.run_bind] at hrun
  cases hfirst : f.run m with
  | error trap₁ m₁ =>
      rw [hfirst] at hrun
      cases hrun
      rcases hf m m' trap hsound hfirst with ⟨⟨c, hc, v, hv, htaken⟩, hknown⟩
      exact ⟨⟨c, Nat.le_trans hc (Nat.zero_le _), v, Nat.le_trans hv (Nat.zero_le _), htaken⟩,
        hknown⟩
  | ok a m₁ =>
      rw [hfirst] at hrun
      rcases hdone m a m₁ hsound hfirst with ⟨htaken, hsound₁⟩
      rcases hg a m₁ m' trap hsound₁ hrun with ⟨⟨c, hc, v, hv, hrest⟩, hknown⟩
      exact ⟨⟨c + cells, Nat.add_le_add_right hc _, v + values, Nat.add_le_add_right hv _,
        htaken.trans hrest⟩, hknown⟩

/-- An effect that leaves the machine as it was if it traps. -/
theorem of_unchanged {f : Exec α}
    (hf : ∀ m m' trap, f.run m = .error trap m' →
      m' = m ∧ ∀ cell ip, trap ≠ .unknownOpcode cell ip) :
    TrapsWithin code memorySize cells values f := by
  intro m m' trap _ hrun
  rcases hf m m' trap hrun with ⟨rfl, hknown⟩
  exact ⟨⟨0, Nat.zero_le _, 0, Nat.zero_le _, Machine.Taken.none m'⟩, hknown⟩

/-!
# Effects on their own
-/

theorem pure (a : α) : TrapsWithin code memorySize cells values (Pure.pure a) :=
  of_unchanged fun _ _ _ h => nomatch h

theorem registers (f : Machine → Machine) :
    TrapsWithin code memorySize cells values (modify f : Exec Unit) :=
  of_unchanged fun _ _ _ h => nomatch h

theorem read (address : Int32) : TrapsWithin code memorySize cells values (Exec.read address) := by
  refine of_unchanged fun m m' trap h => ?_
  rw [read_run] at h
  split at h <;> cases h
  exact ⟨rfl, fun _ _ => Trap.noConfusion⟩

theorem write (address v : Int32) :
    TrapsWithin code memorySize cells values (Exec.write address v) := by
  refine of_unchanged fun m m' trap h => ?_
  rw [write_run] at h
  split at h <;> cases h
  exact ⟨rfl, fun _ _ => Trap.noConfusion⟩

theorem push (v : Int32) : TrapsWithin code memorySize cells values (Exec.push v) := by
  refine of_unchanged fun m m' trap h => ?_
  rw [push_run] at h
  split at h <;> cases h
  exact ⟨rfl, fun _ _ => Trap.noConfusion⟩

theorem pop : TrapsWithin code memorySize cells values Exec.pop := by
  refine of_unchanged fun m m' trap h => ?_
  rw [pop_run] at h
  split at h <;> cases h
  exact ⟨rfl, fun _ _ => Trap.noConfusion⟩

theorem print : TrapsWithin code memorySize cells values Exec.print := by
  refine of_unchanged fun m m' trap h => ?_
  rw [print_run] at h
  split at h <;> cases h

theorem operand (start : Nat) : TrapsWithin code memorySize cells values (Exec.operand start) := by
  refine of_unchanged fun m m' trap h => ?_
  cases hcell : m.code[m.ip]? with
  | none =>
      rw [operand_trapped hcell] at h
      cases h
      exact ⟨rfl, fun _ _ => Trap.noConfusion⟩
  | some cell =>
      rw [operand_run hcell] at h
      cases h

theorem jump (target : Int32) (start : Nat) :
    TrapsWithin code memorySize cells values (Exec.jump target start) :=
  of_unchanged fun _ _ _ h => jump_unchanged h

/-!
# Effects before others
-/

theorem state {g : Machine → Exec β} (hg : ∀ m, TrapsWithin code memorySize cells values (g m)) :
    TrapsWithin code memorySize cells values (get >>= g) :=
  fun m => hg m m

theorem afterRead {address : Int32} {g : Int32 → Exec β}
    (hg : ∀ v, TrapsWithin code memorySize cells values (g v)) :
    TrapsWithin code memorySize cells values (Exec.read address >>= g) := by
  have hdone : Takes code memorySize 0 0 (Exec.read address) := by
    intro m a m' hsound h
    rw [read_run] at h
    split at h <;> cases h
    exact ⟨Machine.Taken.none m, hsound⟩
  exact (read address).bind hdone hg

theorem afterOperand {start : Nat} {g : Int32 → Exec β}
    (hg : ∀ v, TrapsWithin code memorySize cells values (g v)) :
    TrapsWithin code memorySize (cells + 1) values (Exec.operand start >>= g) := by
  have hdone : Takes code memorySize 1 0 (Exec.operand start) := by
    intro m a m' hsound h
    rcases operand_ok h with ⟨hcell, rfl⟩
    exact ⟨⟨rfl, (Int.add_zero _).symm⟩, hsound.fetched hcell⟩
  exact (operand start).bind hdone hg

variable (hmemory : isAddressable memorySize = true)
include hmemory

theorem afterPop {g : Int32 → Exec β}
    (hg : ∀ v, TrapsWithin code memorySize cells values (g v)) :
    TrapsWithin code memorySize cells (values + 1) (Exec.pop >>= g) := by
  have hdone : Takes code memorySize 0 1 Exec.pop := by
    intro m a m' hsound h
    rw [pop_run] at h
    split at h <;> cases h
    rename_i hread
    have hsome : (m.memory.read? m.sp).isSome := hread ▸ rfl
    exact ⟨⟨rfl, hsound.toInt_sp_add_one hmemory hsome⟩, hsound.popped hmemory hsome⟩
  exact pop.bind hdone hg

/-!
# Instructions
-/

theorem binary (op : Int32 → Int32 → Int32) :
    TrapsWithin code memorySize cells 2 (Exec.binary op) :=
  afterPop hmemory fun right => afterPop hmemory fun left => push (op left right)

theorem divide (start : Nat) : TrapsWithin code memorySize cells 2 (Exec.divide start) := by
  refine afterPop hmemory fun right => afterPop hmemory fun left => ?_
  by_cases hzero : right = 0
  · simp only [if_pos hzero]
    refine of_unchanged fun m m' trap h => ?_
    cases h
    exact ⟨rfl, fun _ _ => Trap.noConfusion⟩
  · simp only [if_neg hzero]
    exact push _

theorem jumpIf (holds : Int32 → Int32 → Bool) (start : Nat) :
    TrapsWithin code memorySize 1 2 (Exec.jumpIf holds start) := by
  refine afterOperand fun target => afterPop hmemory fun right => afterPop hmemory fun left => ?_
  split
  · exact jump target start
  · exact pure ()

theorem popRegister (set : Int32 → Machine → Machine) :
    TrapsWithin code memorySize cells 2 (Exec.pop >>= fun v => modify (set v)) :=
  afterPop hmemory fun v => registers (set v)

/-- A call is left out, since it changes a register before it jumps. -/
theorem execute {op : Opcode} (hcall : op ≠ .call) (start : Nat) :
    TrapsWithin code memorySize 1 2 (Exec.execute start op) := by
  cases op with
  | halt => exact pure ()
  | push => exact afterOperand fun v => push v
  | pop => exact afterPop hmemory fun _ => pure ()
  | add => exact binary hmemory _
  | sub => exact binary hmemory _
  | mul => exact binary hmemory _
  | div => exact divide hmemory start
  | jump => exact afterOperand fun target => jump target start
  | jumpEq => exact jumpIf hmemory _ start
  | jumpLe => exact jumpIf hmemory _ start
  | call => exact absurd rfl hcall
  | pushFp => exact state fun m => push m.fp
  | popFp => exact popRegister hmemory _
  | setFp => exact registers _
  | pushRa => exact state fun m => push m.ra
  | popRa => exact popRegister hmemory _
  | pushTm => exact state fun m => push m.tm
  | popTm => exact popRegister hmemory _
  | pushHp => exact state fun m => push m.hp
  | popHp => exact popRegister hmemory _
  | load => exact afterPop hmemory fun address => afterRead fun v => push v
  | store => exact afterPop hmemory fun address => afterPop hmemory fun v => write address v
  | print => exact print

end TrapsWithin

/-- A call traps before it has done anything, or at its jump. -/
theorem call_trapped {start : Nat} {m m' : Machine} {trap : Trap}
    (h : (execute start .call).run m = .error trap m') :
    (m' = m ∨ (m.memory.read? m.sp).isSome ∧
        m' = { m with sp := m.sp + 1, ra := Int32.ofNat m.ip }) ∧
      ∀ cell ip, trap ≠ .unknownOpcode cell ip := by
  simp only [execute, EStateM.run_bind, pop_run] at h
  cases hread : m.memory.read? m.sp with
  | none =>
      simp only [hread] at h
      cases h
      exact ⟨Or.inl rfl, fun _ _ => Trap.noConfusion⟩
  | some target =>
      simp only [hread, EStateM.run_modify] at h
      rcases jump_unchanged h with ⟨rfl, hknown⟩
      exact ⟨Or.inr ⟨rfl, rfl⟩, hknown⟩

/-- A step traps at an unknown opcode or while an instruction is executed. -/
theorem step_trap_cases {m m' : Machine} {trap : Trap} (h : step.run m = .error trap m') :
    (∃ cell, m' = m ∧ trap = .unknownOpcode cell m.ip) ∨
      ∃ cell op, m.code[m.ip]? = some cell ∧ Opcode.decode? cell = some op ∧
        (execute m.ip op).run { m with ip := m.ip + 1 } = .error trap m' := by
  simp only [step, EStateM.run_bind, EStateM.run_get] at h
  cases hcell : m.code[m.ip]? with
  | none =>
      simp only [hcell] at h
      cases h
  | some cell =>
      simp only [hcell] at h
      cases hop : Opcode.decode? cell with
      | none =>
          simp only [hop] at h
          cases h
          exact Or.inl ⟨cell, rfl, rfl⟩
      | some op =>
          simp only [hop, EStateM.run_bind, EStateM.run_modify] at h
          refine Or.inr ⟨cell, op, rfl, hop, ?_⟩
          cases hexecute : (execute m.ip op).run { m with ip := m.ip + 1 } with
          | ok a m₁ =>
              rw [hexecute] at h
              cases h
          | error trap₁ m₁ =>
              rw [hexecute] at h
              cases h
              rfl

end Exec

/-!
# The machine behind a trap
-/

namespace Machine

/-- The data of the machine, and where its pointers may have moved, once an instruction has
trapped. -/
structure Intact (m : Machine) (trap : Trap) (m' : Machine) : Prop where
  code_eq : m'.code = m.code
  memory_eq : m'.memory = m.memory
  output_eq : m'.output = m.output
  fp_eq : m'.fp = m.fp
  hp_eq : m'.hp = m.hp
  tm_eq : m'.tm = m.tm
  /-- Only a call may have noted where to return to. -/
  ra_cases : m'.ra = m.ra ∨
    m.code[m.ip]?.bind Opcode.decode? = some .call ∧ m'.ra = Int32.ofNat (m.ip + 1)
  sp_grown : ∃ values : Nat, values ≤ 2 ∧ m'.sp.toInt = m.sp.toInt + values
  ip_moved : ∃ cells : Nat, cells ≤ 2 ∧ m'.ip = m.ip + cells
  ip_le : m'.ip ≤ m.code.size
  ip_eq_iff : m'.ip = m.ip ↔ ∃ cell ip, trap = .unknownOpcode cell ip

variable {code : List Int32} {memorySize : Nat} {m m' : Machine} {trap : Trap}

theorem Intact.of_unknownOpcode (h : m.Sound code memorySize) (cell : Int32) (ip : Nat) :
    m.Intact (.unknownOpcode cell ip) m where
  code_eq := rfl
  memory_eq := rfl
  output_eq := rfl
  fp_eq := rfl
  hp_eq := rfl
  tm_eq := rfl
  ra_cases := Or.inl rfl
  sp_grown := ⟨0, Nat.zero_le 2, (Int.add_zero _).symm⟩
  ip_moved := ⟨0, Nat.zero_le 2, rfl⟩
  ip_le := h.codeSize_eq ▸ h.ip_le
  ip_eq_iff := ⟨fun _ => ⟨cell, ip, rfl⟩, fun _ => rfl⟩

/-- The opcode has been taken, and then possibly an operand and values of the stack. -/
theorem Intact.of_taken {cells values : Nat}
    (htaken : Taken cells values { m with ip := m.ip + 1 } m') (hcells : cells ≤ 1)
    (hvalues : values ≤ 2) (hknown : ∀ cell ip, trap ≠ .unknownOpcode cell ip)
    (hip : m'.ip ≤ m.code.size) : m.Intact trap m' := by
  have hmoved : m'.ip = m.ip + 1 + cells := by rw [htaken.same]
  exact {
    code_eq := by rw [htaken.same]
    memory_eq := by rw [htaken.same]
    output_eq := by rw [htaken.same]
    fp_eq := by rw [htaken.same]
    hp_eq := by rw [htaken.same]
    tm_eq := by rw [htaken.same]
    ra_cases := Or.inl (by rw [htaken.same])
    sp_grown := ⟨values, hvalues, htaken.sp_eq⟩
    ip_moved := ⟨1 + cells, Nat.add_le_add_left hcells 1, by rw [hmoved, Nat.add_assoc]⟩
    ip_le := hip
    ip_eq_iff := ⟨fun heq => by omega, fun ⟨cell, ip, heq⟩ => absurd heq (hknown cell ip)⟩ }

theorem Intact.of_call (hmemory : isAddressable memorySize = true) (h : m.Sound code memorySize)
    (hcall : m.code[m.ip]?.bind Opcode.decode? = some .call)
    (hread : (m.memory.read? m.sp).isSome) (hknown : ∀ cell ip, trap ≠ .unknownOpcode cell ip)
    (hip : m.ip + 1 ≤ m.code.size) :
    m.Intact trap { m with ip := m.ip + 1, sp := m.sp + 1, ra := Int32.ofNat (m.ip + 1) } where
  code_eq := rfl
  memory_eq := rfl
  output_eq := rfl
  fp_eq := rfl
  hp_eq := rfl
  tm_eq := rfl
  ra_cases := Or.inr ⟨hcall, rfl⟩
  sp_grown := ⟨1, by decide, h.toInt_sp_add_one hmemory hread⟩
  ip_moved := ⟨1, by decide, rfl⟩
  ip_le := hip
  ip_eq_iff := ⟨fun heq => absurd heq (Nat.succ_ne_self _),
    fun ⟨cell, ip, heq⟩ => absurd heq (hknown cell ip)⟩

/-- The first instruction of a run traps. No machine is loaded with a memory that cell values cannot
address. -/
theorem Sound.intact_of_trapped (h : m.Sound code memorySize)
    (hmemory : isAddressable memorySize = true) (hrun : m.run 1 = (.trapped trap, m')) :
    m.Intact trap m' := by
  have hstep : Exec.step.run m = .error trap m' := by
    change m.run (0 + 1) = _ at hrun
    rw [Machine.run] at hrun
    cases hstep : Exec.step.run m with
    | ok progress m₁ =>
        rw [hstep] at hrun
        cases progress <;> cases hrun
    | error trap₁ m₁ =>
        rw [hstep] at hrun
        cases hrun
        rfl
  have hip : m'.ip ≤ m.code.size := by
    have hsound := (h.step hmemory).1
    rw [hstep] at hsound
    exact h.codeSize_eq ▸ hsound.ip_le
  rcases Exec.step_trap_cases hstep with ⟨cell, rfl, rfl⟩ | ⟨cell, op, hcell, hop, hexecute⟩
  · exact Intact.of_unknownOpcode h cell _
  · have hfetched := h.fetched hcell
    by_cases hcall : op = .call
    · subst hcall
      rcases Exec.call_trapped hexecute with ⟨rfl | ⟨hread, rfl⟩, hknown⟩
      · exact Intact.of_taken (Taken.none _) (by decide) (by decide) hknown hip
      · exact Intact.of_call hmemory h (by rw [hcell, Option.bind_some, hop]) hread hknown hip
    · rcases Exec.TrapsWithin.execute hmemory hcall m.ip _ _ _ hfetched hexecute with
        ⟨⟨cells, hcells, values, hvalues, htaken⟩, hknown⟩
      exact Intact.of_taken htaken hcells hvalues hknown hip

/-- A call to an address behind the code. -/
theorem intact_of_trapped_calling :
    let code := [Opcode.push.cell, 9, Opcode.call.cell]
    ∃ start, load code 3 1 = .ok start ∧ isAddressable 1 = true ∧
      let m := (start.run 1).2
      let m' := (m.run 1).2
      m.Sound code 1 ∧ m.run 1 = (.trapped (.codeOutOfRange 9 2), m') ∧
        m.Intact (.codeOutOfRange 9 2) m' ∧ m'.ra = 3 := by
  intro code
  refine ⟨_, rfl, rfl, ?_⟩
  intro m m'
  have hsound : m.Sound code 1 := ((@Sound.of_load code 3 1 _ rfl).run rfl 1).1
  have htrap : (m.run 1).1 = .trapped (.codeOutOfRange 9 2) := by decide +kernel
  have hrun : m.run 1 = (.trapped (.codeOutOfRange 9 2), m') := Prod.ext htrap rfl
  exact ⟨hsound, hrun, hsound.intact_of_trapped rfl hrun, by decide +kernel⟩

end Machine

end ClassLet
