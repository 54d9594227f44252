import ClassLet.Proofs.Machine.Refinement

/-!
# The invariant of the machine

However a machine has been run, and whatever its code, its memory and its other registers hold:
the code and the size of the memory are those it was loaded with, the instruction pointer is at
most one behind the last code cell, the stack pointer is at most one behind the last memory cell,
and the output has only been added to. Every access to a cell that does not exist is reported, and
the stack pointer is never moved over the range of cell values, not even within an instruction.

Main statement: `Machine.sound_of_visits`.
-/

namespace ClassLet

/-!
# Sound machines
-/

namespace Machine

structure Sound (code : List Int32) (memorySize : Nat) (m : Machine) : Prop where
  code_eq : m.code = code.toArray
  size_eq : m.memory.size = memorySize
  ip_le : m.ip ≤ code.length
  sp_nonneg : 0 ≤ m.sp.toInt
  sp_le : m.sp.toInt ≤ (memorySize : Int)

variable {code : List Int32} {codeSize memorySize : Nat} {m m' : Machine}

namespace Sound

theorem of_load (h : load code codeSize memorySize = .ok m) : m.Sound code memorySize := by
  rcases load_eq_ok h with ⟨_, hmemory, rfl⟩
  have hle := le_of_isAddressable hmemory
  have hsp : (Int32.ofNat memorySize).toInt = memorySize := Int32.toInt_ofNat_of_lt (by omega)
  exact {
    code_eq := rfl
    size_eq := rfl
    ip_le := Nat.zero_le _
    sp_nonneg := hsp ▸ Int.natCast_nonneg _
    sp_le := Int.le_of_eq hsp }

/-- There is always room below the stack pointer. -/
theorem toInt_sp_sub_one (h : m.Sound code memorySize) : (m.sp - 1).toInt = m.sp.toInt - 1 := by
  have hlt := Int32.toInt_lt m.sp
  have hnonneg := h.sp_nonneg
  rw [← Int32.ofInt_toInt m.sp, show (1 : Int32) = Int32.ofInt 1 from rfl, ← Int32.ofInt_sub,
    Int32.ofInt_toInt]
  exact Int32.toInt_ofInt_of_le (by omega) (by omega)

/-- Above the stack pointer there is room if it points to a cell. -/
theorem toInt_sp_add_one (h : m.Sound code memorySize) (hmemory : isAddressable memorySize = true)
    (hread : (m.memory.read? m.sp).isSome) : (m.sp + 1).toInt = m.sp.toInt + 1 := by
  have hle := le_of_isAddressable hmemory
  rw [Memory.read?_isSome_iff, h.size_eq] at hread
  rw [← Int32.ofInt_toInt m.sp, show (1 : Int32) = Int32.ofInt 1 from rfl, ← Int32.ofInt_add,
    Int32.ofInt_toInt]
  exact Int32.toInt_ofInt_of_le (by omega) (by omega)

theorem pushed (h : m.Sound code memorySize) {v : Int32} {memory : Memory}
    (hwrite : m.memory.write? (m.sp - 1) v = some memory) :
    { m with memory, sp := m.sp - 1 }.Sound code memorySize := by
  have hrange := (Memory.write?_isSome_iff m.memory (m.sp - 1) v).mp (hwrite ▸ rfl)
  rw [h.size_eq] at hrange
  exact {
    code_eq := h.code_eq
    size_eq := (Memory.size_of_write? hwrite).trans h.size_eq
    ip_le := h.ip_le
    sp_nonneg := hrange.1
    sp_le := Int.le_of_lt hrange.2 }

theorem popped (h : m.Sound code memorySize) (hmemory : isAddressable memorySize = true)
    (hread : (m.memory.read? m.sp).isSome) : { m with sp := m.sp + 1 }.Sound code memorySize := by
  have hsp := h.toInt_sp_add_one hmemory hread
  rw [Memory.read?_isSome_iff, h.size_eq] at hread
  exact {
    code_eq := h.code_eq
    size_eq := h.size_eq
    ip_le := h.ip_le
    sp_nonneg := by
      show 0 ≤ (m.sp + 1).toInt
      omega
    sp_le := by
      show (m.sp + 1).toInt ≤ memorySize
      omega }

theorem written (h : m.Sound code memorySize) {address v : Int32} {memory : Memory}
    (hwrite : m.memory.write? address v = some memory) :
    { m with memory }.Sound code memorySize :=
  { h with size_eq := (Memory.size_of_write? hwrite).trans h.size_eq }

theorem codeSize_eq (h : m.Sound code memorySize) : m.code.size = code.length := by
  rw [h.code_eq, List.size_toArray]

/-- The cell that is taken exists, so the pointer to the next one is not out of bounds. -/
theorem fetched (h : m.Sound code memorySize) {cell : Int32} (hcell : m.code[m.ip]? = some cell) :
    { m with ip := m.ip + 1 }.Sound code memorySize := by
  rcases Array.getElem?_eq_some_iff.mp hcell with ⟨hlt, _⟩
  exact { h with ip_le := h.codeSize_eq ▸ hlt }

end Sound

end Machine

/-!
# Two ways to the stack
-/

namespace Exec

/-- How an instruction gets values onto the stack and off it. -/
structure StackAccess where
  push : Int32 → Exec Unit
  pop : Exec Int32

namespace StackAccess

def plain : StackAccess where
  push := Exec.push
  pop := Exec.pop

/-- Traps unless the cell value is this number. -/
def expect (wrap : Trap) (value : Int32) (exact : Int) : Exec Unit :=
  if value.toInt = exact then return else throw wrap

/-- A stack pointer that would leave the range of cell values is reported. -/
def checked (wrap : Trap) : StackAccess where
  push value := do
    let sp := (← get).sp
    expect wrap (sp - 1) (sp.toInt - 1)
    Exec.push value
  pop := do
    let sp := (← get).sp
    let value ← read sp
    expect wrap (sp + 1) (sp.toInt + 1)
    modify fun m => { m with sp := sp + 1 }
    return value

theorem expect_run {wrap : Trap} {value : Int32} {exact : Int} (h : value.toInt = exact)
    (m : Machine) : (expect wrap value exact).run m = .ok () m := by
  rw [expect, if_pos h]
  rfl

variable (access : StackAccess)

def binary (op : Int32 → Int32 → Int32) : Exec Unit := do
  let right ← access.pop
  let left ← access.pop
  access.push (op left right)

def divide (start : Nat) : Exec Unit := do
  let right ← access.pop
  let left ← access.pop
  if right = 0 then
    throw (.divisionByZero start)
  access.push (left / right)

def jumpIf (holds : Int32 → Int32 → Bool) (start : Nat) : Exec Unit := do
  let target ← operand start
  let right ← access.pop
  let left ← access.pop
  if holds left right then
    jump target start

/-- Executes an operation with these ways to the stack. -/
def execute (start : Nat) : Opcode → Exec Unit
  | .halt => return
  | .push => do access.push (← operand start)
  | .pop => discard access.pop
  | .add => access.binary (· + ·)
  | .sub => access.binary (· - ·)
  | .mul => access.binary (· * ·)
  | .div => access.divide start
  | .jump => do jump (← operand start) start
  | .jumpEq => access.jumpIf (fun left right => left == right) start
  | .jumpLe => access.jumpIf (fun left right => left ≤ right) start
  | .call => do
      let target ← access.pop
      modify fun m => { m with ra := Int32.ofNat m.ip }
      jump target start
  | .pushFp => do access.push (← get).fp
  | .popFp => do
      let value ← access.pop
      modify fun m => { m with fp := value }
  | .setFp => modify fun m => { m with fp := m.sp }
  | .pushRa => do access.push (← get).ra
  | .popRa => do
      let value ← access.pop
      modify fun m => { m with ra := value }
  | .pushTm => do access.push (← get).tm
  | .popTm => do
      let value ← access.pop
      modify fun m => { m with tm := value }
  | .pushHp => do access.push (← get).hp
  | .popHp => do
      let value ← access.pop
      modify fun m => { m with hp := value }
  | .load => do
      let address ← access.pop
      let value ← read address
      access.push value
  | .store => do
      let address ← access.pop
      let value ← access.pop
      write address value
  | .print => print

def step : Exec Progress := do
  let m ← get
  match m.code[m.ip]? with
  | none => return .halted
  | some cell =>
      match Opcode.decode? cell with
      | none => throw (.unknownOpcode cell m.ip)
      | some op =>
          modify fun m => { m with ip := m.ip + 1 }
          access.execute m.ip op
          return if op = .halt then .halted else .running

theorem execute_plain (start : Nat) (op : Opcode) :
    plain.execute start op = Exec.execute start op := by
  cases op <;> rfl

theorem step_plain : plain.step = Exec.step := by
  unfold step
  simp only [execute_plain]
  rfl

end StackAccess

/-!
# Agreement on sound machines
-/

/-- The machine that is left behind, whether or not the effect was completed. -/
def left {α : Type} : EStateM.Result Trap Machine α → Machine
  | .ok _ m => m
  | .error _ m => m

/-- On sound machines both have the same effect, which keeps the machine sound and only adds to
the output. -/
def Agree {α : Type} (code : List Int32) (memorySize : Nat) (f g : Exec α) : Prop :=
  ∀ m : Machine, m.Sound code memorySize →
    f.run m = g.run m ∧ (left (g.run m)).Sound code memorySize ∧
      m.output.toList <+: (left (g.run m)).output.toList

variable {code : List Int32} {memorySize : Nat} {α β : Type}

namespace Agree

theorem pure (a : α) : Agree code memorySize (Pure.pure a) (Pure.pure a) :=
  fun _ h => ⟨rfl, h, List.prefix_rfl⟩

theorem bind {f f' : Exec α} {g g' : α → Exec β} (hf : Agree code memorySize f f')
    (hg : ∀ a, Agree code memorySize (g a) (g' a)) :
    Agree code memorySize (f >>= g) (f' >>= g') := by
  intro m h
  rcases hf m h with ⟨heq, hsound, hgrown⟩
  rw [EStateM.run_bind, EStateM.run_bind, heq]
  cases hrun : f'.run m with
  | ok a m' =>
      rw [hrun] at hsound hgrown
      rcases hg a m' hsound with ⟨heq', hsound', hgrown'⟩
      exact ⟨heq', hsound', hgrown.trans hgrown'⟩
  | error trap m' =>
      rw [hrun] at hsound hgrown
      exact ⟨rfl, hsound, hgrown⟩

theorem trap (trap : Trap) :
    Agree code memorySize (throw trap : Exec α) (throw trap) :=
  fun _ h => ⟨rfl, h, List.prefix_rfl⟩

theorem state : Agree code memorySize (get : Exec Machine) get :=
  fun _ h => ⟨rfl, h, List.prefix_rfl⟩

/-- A change of registers that the invariant does not speak of. -/
theorem registers {f : Machine → Machine}
    (hf : ∀ m : Machine, m.Sound code memorySize →
      (f m).Sound code memorySize ∧ (f m).output = m.output) :
    Agree code memorySize (modify f : Exec Unit) (modify f) := by
  intro m h
  rcases hf m h with ⟨hsound, houtput⟩
  rw [EStateM.run_modify]
  have hgrown : m.output.toList <+: (f m).output.toList := houtput ▸ List.prefix_rfl
  exact ⟨rfl, hsound, hgrown⟩

/-!
# Accesses of the memory and of the code
-/

theorem read (address : Int32) :
    Agree code memorySize (Exec.read address) (Exec.read address) := by
  intro m h
  rw [read_run]
  cases m.memory.read? address with
  | none => exact ⟨rfl, h, List.prefix_rfl⟩
  | some v => exact ⟨rfl, h, List.prefix_rfl⟩

theorem write (address v : Int32) :
    Agree code memorySize (Exec.write address v) (Exec.write address v) := by
  intro m h
  rw [write_run]
  cases hwrite : m.memory.write? address v with
  | none => exact ⟨rfl, h, List.prefix_rfl⟩
  | some memory => exact ⟨rfl, h.written hwrite, List.prefix_rfl⟩

theorem operand (start : Nat) :
    Agree code memorySize (Exec.operand start) (Exec.operand start) := by
  intro m h
  cases hcell : m.code[m.ip]? with
  | none =>
      rw [operand_trapped hcell]
      exact ⟨rfl, h, List.prefix_rfl⟩
  | some v =>
      rw [operand_run hcell]
      exact ⟨rfl, h.fetched hcell, List.prefix_rfl⟩

theorem jump (target : Int32) (start : Nat) :
    Agree code memorySize (Exec.jump target start) (Exec.jump target start) := by
  intro m h
  by_cases hrange : 0 ≤ target.toInt ∧ target.toInt ≤ m.code.size
  · rw [jump_run (a := target.toInt.toNat) (by omega) (by omega)]
    refine ⟨rfl, { h with ip_le := ?_ }, List.prefix_rfl⟩
    have hsize := h.codeSize_eq
    show target.toInt.toNat ≤ code.length
    omega
  · rw [jump_trapped hrange]
    exact ⟨rfl, h, List.prefix_rfl⟩

theorem print : Agree code memorySize Exec.print Exec.print := by
  intro m h
  rw [print_run]
  cases m.memory.read? m.sp with
  | none => exact ⟨rfl, h, List.prefix_rfl⟩
  | some v =>
      refine ⟨rfl, { h with }, ?_⟩
      show m.output.toList <+: (m.output.push v).toList
      rw [Array.toList_push]
      exact List.prefix_append _ _

/-!
# Accesses of the stack
-/

theorem push (wrap : Trap) (v : Int32) :
    Agree code memorySize ((StackAccess.checked wrap).push v) (Exec.push v) := by
  intro m h
  have hrun : ((StackAccess.checked wrap).push v).run m = (Exec.push v).run m := by
    simp only [StackAccess.checked, EStateM.run_bind, EStateM.run_get,
      StackAccess.expect_run h.toInt_sp_sub_one]
  refine ⟨hrun, ?_⟩
  rw [push_run]
  cases hwrite : m.memory.write? (m.sp - 1) v with
  | none => exact ⟨h, List.prefix_rfl⟩
  | some memory => exact ⟨h.pushed hwrite, List.prefix_rfl⟩

theorem pop (hmemory : isAddressable memorySize = true) (wrap : Trap) :
    Agree code memorySize (StackAccess.checked wrap).pop Exec.pop := by
  intro m h
  rw [pop_run]
  cases hread : m.memory.read? m.sp with
  | none =>
      have hrun : (StackAccess.checked wrap).pop.run m =
          .error (.memoryOutOfRange m.sp (m.ip - 1)) m := by
        simp only [StackAccess.checked, EStateM.run_bind, EStateM.run_get, read_run, hread]
      exact ⟨hrun, h, List.prefix_rfl⟩
  | some v =>
      have hroom := h.toInt_sp_add_one hmemory (hread ▸ rfl)
      have hrun : (StackAccess.checked wrap).pop.run m = .ok v { m with sp := m.sp + 1 } := by
        simp only [StackAccess.checked, EStateM.run_bind, EStateM.run_get, read_run, hread,
          StackAccess.expect_run hroom, EStateM.run_pure, EStateM.run_modify]
      exact ⟨hrun, h.popped hmemory (hread ▸ rfl), List.prefix_rfl⟩

/-!
# Instructions
-/

variable (hmemory : isAddressable memorySize = true) (wrap : Trap)
include hmemory

theorem binary (op : Int32 → Int32 → Int32) :
    Agree code memorySize ((StackAccess.checked wrap).binary op) (Exec.binary op) :=
  (pop hmemory wrap).bind fun right => (pop hmemory wrap).bind fun left => push wrap (op left right)

theorem divide (start : Nat) :
    Agree code memorySize ((StackAccess.checked wrap).divide start) (Exec.divide start) := by
  refine (pop hmemory wrap).bind fun right => (pop hmemory wrap).bind fun left => ?_
  by_cases hzero : right = 0
  · simp only [if_pos hzero]
    exact (trap _).bind fun _ => push wrap _
  · simp only [if_neg hzero]
    exact push wrap _

theorem jumpIf (holds : Int32 → Int32 → Bool) (start : Nat) :
    Agree code memorySize ((StackAccess.checked wrap).jumpIf holds start)
      (Exec.jumpIf holds start) := by
  refine (operand start).bind fun target => (pop hmemory wrap).bind fun right =>
    (pop hmemory wrap).bind fun left => ?_
  split
  · exact jump target start
  · exact pure ()

/-- The value that is taken off the stack goes into a register. -/
theorem popRegister {set : Int32 → Machine → Machine}
    (hset : ∀ v (m : Machine), m.Sound code memorySize →
      (set v m).Sound code memorySize ∧ (set v m).output = m.output) :
    Agree code memorySize ((StackAccess.checked wrap).pop >>= fun v => modify (set v))
      (Exec.pop >>= fun v => modify (set v)) :=
  (pop hmemory wrap).bind fun v => registers (hset v)

theorem execute (start : Nat) (op : Opcode) :
    Agree code memorySize ((StackAccess.checked wrap).execute start op)
      (Exec.execute start op) := by
  cases op with
  | halt => exact pure ()
  | push => exact (operand start).bind fun v => push wrap v
  | pop => exact (pop hmemory wrap).bind fun _ => pure ()
  | add => exact binary hmemory wrap _
  | sub => exact binary hmemory wrap _
  | mul => exact binary hmemory wrap _
  | div => exact divide hmemory wrap start
  | jump => exact (operand start).bind fun target => jump target start
  | jumpEq => exact jumpIf hmemory wrap _ start
  | jumpLe => exact jumpIf hmemory wrap _ start
  | call =>
      refine (pop hmemory wrap).bind fun target => bind (registers ?_) fun _ => jump target start
      exact fun _ h => ⟨{ h with }, rfl⟩
  | pushFp => exact state.bind fun m => push wrap m.fp
  | popFp => exact popRegister hmemory wrap fun _ _ h => ⟨{ h with }, rfl⟩
  | setFp => exact registers fun _ h => ⟨{ h with }, rfl⟩
  | pushRa => exact state.bind fun m => push wrap m.ra
  | popRa => exact popRegister hmemory wrap fun _ _ h => ⟨{ h with }, rfl⟩
  | pushTm => exact state.bind fun m => push wrap m.tm
  | popTm => exact popRegister hmemory wrap fun _ _ h => ⟨{ h with }, rfl⟩
  | pushHp => exact state.bind fun m => push wrap m.hp
  | popHp => exact popRegister hmemory wrap fun _ _ h => ⟨{ h with }, rfl⟩
  | load =>
      exact (pop hmemory wrap).bind fun address =>
        (read address).bind fun v => push wrap v
  | store =>
      exact (pop hmemory wrap).bind fun address =>
        (pop hmemory wrap).bind fun v => write address v
  | print => exact print

theorem step : Agree code memorySize (StackAccess.checked wrap).step Exec.step := by
  intro m h
  rw [← StackAccess.step_plain]
  cases hcell : m.code[m.ip]? with
  | none =>
      have hrun : ∀ access : StackAccess, access.step.run m = .ok .halted m := by
        intro access
        simp only [StackAccess.step, EStateM.run_bind, EStateM.run_get, hcell]
        rfl
      rw [hrun, hrun]
      exact ⟨rfl, h, List.prefix_rfl⟩
  | some cell =>
      cases hop : Opcode.decode? cell with
      | none =>
          have hrun : ∀ access : StackAccess,
              access.step.run m = .error (.unknownOpcode cell m.ip) m := by
            intro access
            simp only [StackAccess.step, EStateM.run_bind, EStateM.run_get, hcell, hop]
            rfl
          rw [hrun, hrun]
          exact ⟨rfl, h, List.prefix_rfl⟩
      | some op =>
          have hrun : ∀ access : StackAccess, access.step.run m =
              (access.execute m.ip op >>= fun _ =>
                Pure.pure (if op = .halt then Progress.halted else Progress.running)).run
                { m with ip := m.ip + 1 } := by
            intro access
            simp only [StackAccess.step, EStateM.run_bind, EStateM.run_get, hcell, hop,
              EStateM.run_modify]
          rw [hrun, hrun, StackAccess.execute_plain]
          exact (execute hmemory wrap m.ip op).bind (fun _ => pure _) _ (h.fetched hcell)

end Agree

end Exec

/-!
# Runs
-/

namespace Machine

/-- Any number of steps and of runs of any length, also such that follow a trap or the end of a
run, lead from one machine to the other. -/
inductive Visits (m : Machine) : Machine → Prop where
  | start : Visits m m
  | step {m' : Machine} : Visits m m' → Visits m (Exec.left (Exec.step.run m'))
  | run {m' : Machine} (steps : Nat) : Visits m m' → Visits m (m'.run steps).2

/-- Every access is to a cell or a place in the code that is there, or it is reported and leaves
the machine as it was. -/
structure Reports (code : List Int32) (memorySize : Nat) (m : Machine) : Prop where
  read : ∀ address : Int32,
    if 0 ≤ address.toInt ∧ address.toInt < (memorySize : Int) then
      ∃ v, (Exec.read address).run m = .ok v m
    else (Exec.read address).run m = .error (.memoryOutOfRange address (m.ip - 1)) m
  write : ∀ address v : Int32,
    if 0 ≤ address.toInt ∧ address.toInt < (memorySize : Int) then
      ∃ memory : Memory, memory.size = memorySize ∧
        (Exec.write address v).run m = .ok () { m with memory }
    else (Exec.write address v).run m = .error (.memoryOutOfRange address (m.ip - 1)) m
  fetch :
    if h : m.ip < code.length then m.code[m.ip]? = some code[m.ip]
    else m.ip = code.length ∧ Exec.step.run m = .ok .halted m
  operand : ∀ start : Nat,
    if h : m.ip < code.length then
      (Exec.operand start).run m = .ok code[m.ip] { m with ip := m.ip + 1 }
    else (Exec.operand start).run m = .error (.codeOutOfRange (Int32.ofNat m.ip) start) m
  jump : ∀ (target : Int32) (start : Nat),
    if 0 ≤ target.toInt ∧ target.toInt ≤ (code.length : Int) then
      (Exec.jump target start).run m = .ok () { m with ip := target.toInt.toNat }
    else (Exec.jump target start).run m = .error (.codeOutOfRange target start) m

variable {code : List Int32} {codeSize memorySize : Nat} {m m' start : Machine}

namespace Sound

theorem cell_eq (h : m.Sound code memorySize) (hlt : m.ip < code.length) :
    m.code[m.ip]? = some code[m.ip] := by
  rw [h.code_eq, List.getElem?_toArray, List.getElem?_eq_getElem hlt]

theorem cell_eq_none (h : m.Sound code memorySize) (hlt : ¬m.ip < code.length) :
    m.code[m.ip]? = none := by
  rw [h.code_eq, List.getElem?_toArray, List.getElem?_eq_none (Nat.not_lt.mp hlt)]

theorem reports (h : m.Sound code memorySize) : m.Reports code memorySize where
  read address := by
    have hrange := Memory.read?_isSome_iff m.memory address
    rw [h.size_eq] at hrange
    rw [Exec.read_run]
    cases hread : m.memory.read? address with
    | none =>
        rw [if_neg (fun hin => by simpa [hread] using hrange.mpr hin)]
    | some v =>
        rw [if_pos (hrange.mp (hread ▸ rfl))]
        exact ⟨v, rfl⟩
  write address v := by
    have hrange := Memory.write?_isSome_iff m.memory address v
    rw [h.size_eq] at hrange
    rw [Exec.write_run]
    cases hwrite : m.memory.write? address v with
    | none =>
        rw [if_neg (fun hin => by simpa [hwrite] using hrange.mpr hin)]
    | some memory =>
        rw [if_pos (hrange.mp (hwrite ▸ rfl))]
        exact ⟨memory, (Memory.size_of_write? hwrite).trans h.size_eq, rfl⟩
  fetch := by
    split
    · rename_i hlt
      exact h.cell_eq hlt
    · rename_i hlt
      exact ⟨Nat.le_antisymm h.ip_le (Nat.not_lt.mp hlt), Exec.step_halted (h.cell_eq_none hlt)⟩
  operand start := by
    split
    · rename_i hlt
      exact Exec.operand_run (h.cell_eq hlt) start
    · rename_i hlt
      exact Exec.operand_trapped (h.cell_eq_none hlt) start
  jump target start := by
    rw [← h.codeSize_eq]
    split
    · rename_i hrange
      exact Exec.jump_run (by omega) (by omega) start
    · rename_i hrange
      exact Exec.jump_trapped hrange start

variable (hmemory : isAddressable memorySize = true)
include hmemory

theorem step (h : m.Sound code memorySize) :
    (Exec.left (Exec.step.run m)).Sound code memorySize ∧
      m.output.toList <+: (Exec.left (Exec.step.run m)).output.toList :=
  (Exec.Agree.step hmemory default m h).2

theorem run (h : m.Sound code memorySize) (steps : Nat) :
    (m.run steps).2.Sound code memorySize ∧
      m.output.toList <+: (m.run steps).2.output.toList := by
  induction steps generalizing m with
  | zero => exact ⟨h, List.prefix_rfl⟩
  | succ steps ih =>
      rcases h.step hmemory with ⟨hsound, hgrown⟩
      unfold Machine.run
      cases hrun : Exec.step.run m with
      | error trap m' =>
          rw [hrun] at hsound hgrown
          exact ⟨hsound, hgrown⟩
      | ok progress m' =>
          rw [hrun] at hsound hgrown
          cases progress with
          | halted => exact ⟨hsound, hgrown⟩
          | running =>
              rcases ih hsound with ⟨hsound', hgrown'⟩
              exact ⟨hsound', hgrown.trans hgrown'⟩

theorem visits (h : m.Sound code memorySize) (hvisits : m.Visits m') :
    m'.Sound code memorySize ∧ m.output.toList <+: m'.output.toList := by
  induction hvisits with
  | start => exact ⟨h, List.prefix_rfl⟩
  | step _ ih =>
      rcases ih.1.step hmemory with ⟨hsound, hgrown⟩
      exact ⟨hsound, ih.2.trans hgrown⟩
  | run steps _ ih =>
      rcases ih.1.run hmemory steps with ⟨hsound, hgrown⟩
      exact ⟨hsound, ih.2.trans hgrown⟩

end Sound

/-- The last part says that no step would have moved the stack pointer over the range of cell
values: reporting that, as whatever trap, makes no difference. -/
theorem sound_of_visits (hload : load code codeSize memorySize = .ok start)
    (hvisits : start.Visits m) :
    m.Sound code memorySize ∧ m.Reports code memorySize ∧
      (∀ m', m.Visits m' → m.output.toList <+: m'.output.toList) ∧
      ∀ wrap, (Exec.StackAccess.checked wrap).step.run m = Exec.step.run m := by
  rcases load_eq_ok hload with ⟨_, hmemory, _⟩
  have hsound := ((Sound.of_load hload).visits hmemory hvisits).1
  exact ⟨hsound, hsound.reports, fun m' hvisits' => (hsound.visits hmemory hvisits').2,
    fun wrap => (Exec.Agree.step hmemory wrap m hsound).1⟩

/-- A run is taken up again behind an addition that found only one operand. -/
theorem sound_of_visits_resumed :
    let code := [Opcode.push.cell, 7, Opcode.add.cell, Opcode.print.cell]
    ∃ start, load code 4 1 = .ok start ∧
      (start.run 5).1 = .trapped (.memoryOutOfRange 1 2) ∧
      let m := ((start.run 5).2.run 5).2
      m.ip = 4 ∧ m.Sound code 1 ∧ m.Reports code 1 ∧
        (∀ m', m.Visits m' → m.output.toList <+: m'.output.toList) ∧
        ∀ wrap, (Exec.StackAccess.checked wrap).step.run m = Exec.step.run m := by
  refine ⟨_, rfl, by decide +kernel, by decide +kernel, ?_⟩
  exact @sound_of_visits _ 4 _ _ _ rfl ((Visits.start.run 5).run 5)

end Machine

end ClassLet
