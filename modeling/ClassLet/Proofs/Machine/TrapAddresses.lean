import ClassLet.Proofs.Machine.Runs
import ClassLet.Proofs.Machine.Traps

/-!
# The address in a trap

A trap of the code or of an operation names the instruction by the cell of its opcode. A trap of the
memory names the code cell that was taken last: that is the opcode again, unless the instruction has
taken an operand before it came to the memory.

Main statement: `Machine.ip_of_trapped`.
-/

namespace ClassLet

namespace Trap

/-- The code address that the trap names. -/
def ip : Trap → Nat
  | memoryOutOfRange _ ip => ip
  | codeOutOfRange _ ip => ip
  | unknownOpcode _ ip => ip
  | divisionByZero ip => ip

def ofMemory : Trap → Bool
  | memoryOutOfRange _ _ => true
  | _ => false

/-- The memory was accessed by an instruction with an operand, given the cell of its opcode. -/
def behindOperand (trap : Trap) (cell : Int32) : Bool :=
  trap.ofMemory && (Opcode.decode? cell).any Opcode.hasOperand

end Trap

namespace Exec

variable {ip start named : Nat} {α β : Type}

/-!
# Which cell is named
-/

/-- Run from the given address, the effect names one cell if the memory traps it, and the start of
its instruction otherwise. -/
def Names (ip start named : Nat) (f : Exec α) : Prop :=
  ∀ m m' trap, m.ip = ip → f.run m = .error trap m' →
    trap.ip = if trap.ofMemory then named else start

namespace Names

theorem bind {f : Exec α} {g : α → Exec β} (hf : Names ip start named f) (hstays : Stays f)
    (hg : ∀ a, Names ip start named (g a)) : Names ip start named (f >>= g) := by
  intro m m' trap hip hrun
  rw [EStateM.run_bind] at hrun
  cases hfirst : f.run m with
  | error trap₁ m₁ =>
      rw [hfirst] at hrun
      cases hrun
      exact hf m m' trap hip hfirst
  | ok a m₁ =>
      rw [hfirst] at hrun
      exact hg a m₁ m' trap ((hstays m a m₁ hfirst).trans hip) hrun

theorem pure (a : α) : Names ip start named (Pure.pure a) :=
  fun _ _ _ _ h => nomatch h

theorem registers (f : Machine → Machine) : Names ip start named (modify f : Exec Unit) :=
  fun _ _ _ _ h => nomatch h

theorem state {g : Machine → Exec β} (hg : ∀ m, Names ip start named (g m)) :
    Names ip start named (get >>= g) :=
  fun m => hg m m

theorem print : Names ip start named Exec.print := by
  intro m m' trap _ h
  rw [print_run] at h
  split at h <;> cases h

theorem jump (target : Int32) : Names ip start named (Exec.jump target start) := by
  intro m m' trap _ h
  by_cases hrange : 0 ≤ target.toInt ∧ target.toInt ≤ m.code.size
  · rw [jump_run (a := target.toInt.toNat) (by omega) (by omega)] at h
    cases h
  · rw [jump_trapped hrange] at h
    cases h
    rfl

/-- The operand is a cell of the instruction, so what comes behind it runs one cell further on. -/
theorem afterOperand {g : Int32 → Exec β} (hg : ∀ v, Names (ip + 1) start named (g v)) :
    Names ip start named (Exec.operand start >>= g) := by
  intro m m' trap hip hrun
  rw [EStateM.run_bind] at hrun
  cases hcell : m.code[m.ip]? with
  | none =>
      rw [operand_trapped hcell] at hrun
      cases hrun
      rfl
  | some v =>
      rw [operand_run hcell] at hrun
      exact hg v _ m' trap (congrArg (· + 1) hip) hrun

/-!
# Accesses of the memory

They name the cell in front of the instruction pointer.
-/

theorem read (address : Int32) : Names (named + 1) start named (Exec.read address) := by
  intro m m' trap hip h
  rw [read_run] at h
  split at h <;> cases h
  simp [Trap.ip, Trap.ofMemory, hip]

theorem write (address v : Int32) : Names (named + 1) start named (Exec.write address v) := by
  intro m m' trap hip h
  rw [write_run] at h
  split at h <;> cases h
  simp [Trap.ip, Trap.ofMemory, hip]

theorem push (v : Int32) : Names (named + 1) start named (Exec.push v) := by
  intro m m' trap hip h
  rw [push_run] at h
  split at h <;> cases h
  simp [Trap.ip, Trap.ofMemory, hip]

theorem pop : Names (named + 1) start named Exec.pop := by
  intro m m' trap hip h
  rw [pop_run] at h
  split at h <;> cases h
  simp [Trap.ip, Trap.ofMemory, hip]

theorem afterPop {g : Int32 → Exec β} (hg : ∀ v, Names (named + 1) start named (g v)) :
    Names (named + 1) start named (Exec.pop >>= g) :=
  pop.bind Stays.pop hg

/-!
# Instructions
-/

theorem binary (op : Int32 → Int32 → Int32) : Names (named + 1) start named (Exec.binary op) :=
  afterPop fun right => afterPop fun left => push (op left right)

theorem divide : Names (named + 1) start named (Exec.divide start) := by
  refine afterPop fun right => afterPop fun left => ?_
  by_cases hzero : right = 0
  · simp only [if_pos hzero]
    intro m m' trap _ h
    cases h
    rfl
  · simp only [if_neg hzero]
    exact push _

theorem popRegister (set : Int32 → Machine → Machine) :
    Names (named + 1) start named (Exec.pop >>= fun v => modify (set v)) :=
  afterPop fun v => registers (set v)

theorem jumpIf (holds : Int32 → Int32 → Bool) :
    Names (start + 1) start (start + 1) (Exec.jumpIf holds start) := by
  refine afterOperand fun target => afterPop fun right => afterPop fun left => ?_
  split
  · exact jump target
  · exact pure ()

theorem execute (start : Nat) (op : Opcode) :
    Names (start + 1) start (if op.hasOperand then start + 1 else start)
      (Exec.execute start op) := by
  cases op with
  | halt => exact pure ()
  | push => exact afterOperand fun v => push v
  | pop => exact afterPop fun _ => pure ()
  | add => exact binary _
  | sub => exact binary _
  | mul => exact binary _
  | div => exact divide
  | jump => exact afterOperand fun target => jump target
  | jumpEq => exact jumpIf _
  | jumpLe => exact jumpIf _
  | call =>
      exact afterPop fun target =>
        bind (registers _) (Stays.registers fun _ => rfl) fun _ => jump target
  | pushFp => exact state fun m => push m.fp
  | popFp => exact popRegister _
  | setFp => exact registers _
  | pushRa => exact state fun m => push m.ra
  | popRa => exact popRegister _
  | pushTm => exact state fun m => push m.tm
  | popTm => exact popRegister _
  | pushHp => exact state fun m => push m.hp
  | popHp => exact popRegister _
  | load => exact afterPop fun address => bind (read address) (Stays.read address) fun v => push v
  | store => exact afterPop fun address => afterPop fun v => write address v
  | print => exact print

end Names

/-- A step that traps has found a cell, and names its address or the one behind it. -/
theorem ip_of_step_trapped {m m' : Machine} {trap : Trap} (h : step.run m = .error trap m') :
    ∃ cell, m.code[m.ip]? = some cell ∧
      trap.ip = if trap.behindOperand cell then m.ip + 1 else m.ip := by
  rcases step_trap_cases h with ⟨unknown, rfl, rfl⟩ | ⟨cell, op, hcell, hop, hexecute⟩
  · cases hcell : m'.code[m'.ip]? with
    | none =>
        rw [step_halted hcell] at h
        cases h
    | some cell => exact ⟨cell, rfl, rfl⟩
  · refine ⟨cell, hcell, ?_⟩
    rw [Names.execute m.ip op _ _ _ rfl hexecute, Trap.behindOperand, hop, Option.any_some]
    cases trap.ofMemory <;> rfl

end Exec

/-!
# Runs
-/

namespace Machine

variable {code : List Int32} {codeSize memorySize steps : Nat} {start m m' : Machine} {trap : Trap}

/-- Whatever the code and the size of the memory, and also if the run takes up an earlier one: when
it has ended with a trap, the last instruction is where the trap says, or one cell in front of that
if it has an operand and the trap is one of the memory. -/
theorem ip_of_trapped (hload : load code codeSize memorySize = .ok start)
    (hvisits : start.Visits m) (hrun : m.run steps = (.trapped trap, m')) :
    ∃ n last cell, m.Reaches n last ∧ Exec.step.run last = .error trap m' ∧
      code[last.ip]? = some cell ∧
      trap.ip = if trap.behindOperand cell then last.ip + 1 else last.ip := by
  rcases load_eq_ok hload with ⟨_, hmemory, _⟩
  have hsound := ((Sound.of_load hload).visits hmemory hvisits).1
  rcases Reaches.of_trapped hrun with ⟨n, last, _, hreaches, htrap⟩
  have hlast : last.Sound code memorySize := by
    have hrest := (hsound.run hmemory n).1
    rwa [hreaches.run_eq] at hrest
  rcases Exec.ip_of_step_trapped htrap with ⟨cell, hcell, hip⟩
  rw [hlast.code_eq, List.getElem?_toArray] at hcell
  exact ⟨n, last, cell, hreaches, htrap, hcell, hip⟩

/-- A run is taken up again in front of a push that finds no room. -/
theorem ip_of_trapped_full :
    let code := [Opcode.push.cell, 5, Opcode.push.cell, 7]
    let trap := Trap.memoryOutOfRange (-1) 3
    ∃ start, load code 4 1 = .ok start ∧
      let m := (start.run 1).2
      let m' := (m.run 1).2
      start.Visits m ∧ m.run 1 = (.trapped trap, m') ∧
        ∃ n last cell, m.Reaches n last ∧ Exec.step.run last = .error trap m' ∧
          code[last.ip]? = some cell ∧
          trap.ip = if trap.behindOperand cell then last.ip + 1 else last.ip := by
  intro code trap
  refine ⟨_, rfl, ?_⟩
  intro m m'
  have htrap : (m.run 1).1 = .trapped trap := by decide +kernel
  have hrun : m.run 1 = (.trapped trap, m') := Prod.ext htrap rfl
  exact ⟨Visits.start.run 1, hrun, @ip_of_trapped code 4 1 _ _ _ _ _ rfl (Visits.start.run 1) hrun⟩

/-- The trap of a push that finds no memory does not name the push, but its operand. -/
theorem push_misnamed :
    let code := [Opcode.push.cell, 7]
    let trap := Trap.memoryOutOfRange (-1) 1
    ∃ start, load code 2 0 = .ok start ∧ (start.run 1).1 = .trapped trap ∧
      ∀ n last m', start.Reaches n last → Exec.step.run last = .error trap m' →
        last.ip = 0 ∧ code[last.ip]? = some Opcode.push.cell ∧ trap.ip ≠ last.ip := by
  intro code trap
  refine ⟨_, rfl, by decide +kernel, ?_⟩
  intro n last m' hreaches _
  cases hreaches with
  | refl => exact ⟨rfl, rfl, by decide⟩
  | step hfirst _ => cases hfirst

end Machine

end ClassLet
