import ClassLet.Machine

/-!
# Effects of instructions

What loading gives, and what the building blocks of instructions do to a machine, each as one
equation for the whole outcome.
-/

namespace ClassLet

theorem Opcode.cell_inj {op op' : Opcode} (h : op.cell = op'.cell) : op = op' := by
  have hdecode := congrArg Opcode.decode? h
  rw [Opcode.decode?_cell, Opcode.decode?_cell] at hdecode
  exact Option.some.inj hdecode

/-- The machine that has been loaded is at the start, with an empty stack and an empty heap. -/
theorem Machine.load_eq_ok {code : List Int32} {codeSize memorySize : Nat} {m : Machine}
    (h : load code codeSize memorySize = .ok m) :
    code.length ≤ codeSize ∧ isAddressable memorySize = true ∧
      m = {
        code := code.toArray
        memory := Memory.zeroed memorySize
        ip := 0
        sp := Int32.ofNat memorySize
        fp := Int32.ofNat memorySize
        hp := 0
        ra := 0
        tm := 0
        output := #[] } := by
  unfold load at h
  split at h
  · cases h
  · rename_i hfits
    split at h
    · rename_i haddressable
      cases h
      exact ⟨Nat.not_lt.mp hfits, haddressable, rfl⟩
    · cases h

namespace Exec

theorem push_run (v : Int32) (m : Machine) :
    (push v).run m =
      match m.memory.write? (m.sp - 1) v with
      | some memory => .ok () { m with memory, sp := m.sp - 1 }
      | none => .error (.memoryOutOfRange (m.sp - 1) (m.ip - 1)) m := by
  simp only [push, write, memoryTrap, EStateM.run_bind, EStateM.run_get]
  cases h : m.memory.write? (m.sp - 1) v <;> simp

theorem read_run (a : Int32) (m : Machine) :
    (read a).run m =
      match m.memory.read? a with
      | some v => .ok v m
      | none => .error (.memoryOutOfRange a (m.ip - 1)) m := by
  simp only [read, memoryTrap, EStateM.run_bind, EStateM.run_get]
  cases h : m.memory.read? a with
  | none => rfl
  | some v => rfl

theorem write_run (a v : Int32) (m : Machine) :
    (write a v).run m =
      match m.memory.write? a v with
      | some memory => .ok () { m with memory }
      | none => .error (.memoryOutOfRange a (m.ip - 1)) m := by
  simp only [write, memoryTrap, EStateM.run_bind, EStateM.run_get]
  cases h : m.memory.write? a v <;> simp

theorem pop_run (m : Machine) :
    pop.run m =
      match m.memory.read? m.sp with
      | some v => .ok v { m with sp := m.sp + 1 }
      | none => .error (.memoryOutOfRange m.sp (m.ip - 1)) m := by
  simp only [pop, EStateM.run_bind, EStateM.run_get, read_run]
  cases h : m.memory.read? m.sp <;> simp

theorem print_run (m : Machine) :
    print.run m =
      match m.memory.read? m.sp with
      | some v => .ok () { m with output := m.output.push v }
      | none => .ok () m := by
  rw [print, EStateM.run_bind, EStateM.run_get]
  cases h : m.memory.read? m.sp with
  | none =>
      simp only [h]
      exact EStateM.run_pure _ _
  | some v =>
      simp only [h]
      exact EStateM.run_modify _ _

theorem operand_run {m : Machine} {v : Int32} (h : m.code[m.ip]? = some v) (start : Nat) :
    (operand start).run m = .ok v { m with ip := m.ip + 1 } := by
  simp only [operand, EStateM.run_bind, EStateM.run_get, h, EStateM.run_modify, EStateM.run_pure]

theorem operand_trapped {m : Machine} (h : m.code[m.ip]? = none) (start : Nat) :
    (operand start).run m = .error (.codeOutOfRange (Int32.ofNat m.ip) start) m := by
  simp only [operand, EStateM.run_bind, EStateM.run_get, h]
  rfl

theorem jump_run {m : Machine} {a : Nat} {target : Int32} (htarget : target.toInt = a)
    (ha : a ≤ m.code.size) (start : Nat) :
    (jump target start).run m = .ok () { m with ip := a } := by
  have hrange : 0 ≤ target.toInt ∧ target.toInt ≤ m.code.size := by omega
  have hto : target.toInt.toNat = a := by omega
  simp only [jump, EStateM.run_bind, EStateM.run_get, if_pos hrange, EStateM.run_modify, hto]

theorem jump_trapped {m : Machine} {target : Int32}
    (h : ¬(0 ≤ target.toInt ∧ target.toInt ≤ m.code.size)) (start : Nat) :
    (jump target start).run m = .error (.codeOutOfRange target start) m := by
  simp only [jump, EStateM.run_bind, EStateM.run_get, if_neg h]
  rfl

/-- Behind the last code cell there is nothing to execute. -/
theorem step_halted {m : Machine} (h : m.code[m.ip]? = none) :
    step.run m = .ok .halted m := by
  simp only [step, EStateM.run_bind, EStateM.run_get, h]
  rfl

theorem step_run {m : Machine} {op : Opcode} (h : m.code[m.ip]? = some op.cell) :
    step.run m =
      match (execute m.ip op).run { m with ip := m.ip + 1 } with
      | .ok _ m' => .ok (if op = .halt then .halted else .running) m'
      | .error trap m' => .error trap m' := by
  simp only [step, EStateM.run_bind, EStateM.run_get, h, Opcode.decode?_cell, EStateM.run_modify]
  cases (execute m.ip op).run { m with ip := m.ip + 1 } <;> simp

/-- An instruction that is completed and does not halt. -/
theorem step_running {m m' : Machine} {op : Opcode} (h : m.code[m.ip]? = some op.cell)
    (hrunning : op ≠ .halt)
    (hexecute : (execute m.ip op).run { m with ip := m.ip + 1 } = .ok () m') :
    step.run m = .ok .running m' := by
  rw [step_run h, hexecute]
  simp [hrunning]

/-- An instruction that traps. -/
theorem step_trapped {m m' : Machine} {op : Opcode} {trap : Trap}
    (h : m.code[m.ip]? = some op.cell)
    (hexecute : (execute m.ip op).run { m with ip := m.ip + 1 } = .error trap m') :
    step.run m = .error trap m' := by
  rw [step_run h, hexecute]

end Exec

end ClassLet
