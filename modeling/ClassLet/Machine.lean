import ClassLet.Assembly.Opcode
import ClassLet.Machine.Memory

/-!
# The stack machine

The heap grows from the lowest cell upwards and the stack from the highest cell downwards; both
share one memory. Besides the instruction, stack, frame and heap pointers there are a register for
return addresses and one for temporary values.

An instruction takes its effects in order and may trap between any two of them; a trap keeps the
effects so far. A run ends at `halt`, behind the last code cell or at the first trap, and may be
taken up again.
-/

namespace ClassLet

/-- Why an instruction could not be completed. Traps name the instruction by the address of its
first cell; a trap of the memory names the last code cell that was taken. -/
inductive Trap where
  | memoryOutOfRange (address : Int32) (ip : Nat)
  | codeOutOfRange (address : Int32) (ip : Nat)
  | unknownOpcode (code : Int32) (ip : Nat)
  | divisionByZero (ip : Nat)
deriving DecidableEq, Repr, Inhabited

namespace Trap

def message : Trap → String
  | memoryOutOfRange address ip => s!"memory address {address.toInt} out of bounds (ip {ip})"
  | codeOutOfRange address ip => s!"code address {address.toInt} out of bounds (ip {ip})"
  | unknownOpcode code ip => s!"invalid opcode {code.toInt} (ip {ip})"
  | divisionByZero ip => s!"division by zero (ip {ip})"

end Trap

/-- Why a machine cannot be set up. -/
inductive LoadError where
  | codeTooLarge (size capacity : Nat)
  | memoryTooLarge (size : Nat)
deriving DecidableEq, Repr, Inhabited

namespace LoadError

def message : LoadError → String
  | codeTooLarge size capacity =>
      s!"program has {size} code cells but the code store holds {capacity}"
  | memoryTooLarge size => s!"memory of {size} cells is not addressable"

end LoadError

structure Machine where
  code : Array Int32
  memory : Memory
  ip : Nat
  sp : Int32
  fp : Int32
  hp : Int32
  ra : Int32
  tm : Int32
  output : Array Int32
deriving Inhabited

/-- Memory cells are addressed by cell values. -/
def isAddressable (memorySize : Nat) : Bool :=
  memorySize ≤ Int32.maxValue.toInt

namespace Machine

def load (code : List Int32) (codeSize memorySize : Nat) : Except LoadError Machine :=
  if codeSize < code.length then
    .error (.codeTooLarge code.length codeSize)
  else if isAddressable memorySize then
    .ok {
      code := code.toArray
      memory := Memory.zeroed memorySize
      ip := 0
      sp := Int32.ofNat memorySize
      fp := Int32.ofNat memorySize
      hp := 0
      ra := 0
      tm := 0
      output := #[] }
  else
    .error (.memoryTooLarge memorySize)

end Machine

/-- Whether a run goes on after an instruction. -/
inductive Progress where
  | running
  | halted
deriving DecidableEq, Repr, Inhabited

/-- Steps of the machine, which may trap on the way. -/
abbrev Exec :=
  EStateM Trap Machine

namespace Exec

/-!
# Memory and stack
-/

def memoryTrap {α : Type} (address : Int32) : Exec α := do
  throw (.memoryOutOfRange address ((← get).ip - 1))

def read (address : Int32) : Exec Int32 := do
  match (← get).memory.read? address with
  | some value => return value
  | none => memoryTrap address

def write (address value : Int32) : Exec Unit := do
  match (← get).memory.write? address value with
  | some memory => modify fun m => { m with memory }
  | none => memoryTrap address

def push (value : Int32) : Exec Unit := do
  let sp := (← get).sp - 1
  write sp value
  modify fun m => { m with sp }

def pop : Exec Int32 := do
  let sp := (← get).sp
  let value ← read sp
  modify fun m => { m with sp := sp + 1 }
  return value

/-!
# Code
-/

/-- Takes the next code cell as the operand of the instruction at `start`. -/
def operand (start : Nat) : Exec Int32 := do
  let m ← get
  match m.code[m.ip]? with
  | some value =>
      modify fun m => { m with ip := m.ip + 1 }
      return value
  | none => throw (.codeOutOfRange (Int32.ofNat m.ip) start)

/-- Jumps to a code cell, or behind the last one to end the run. -/
def jump (target : Int32) (start : Nat) : Exec Unit := do
  if 0 ≤ target.toInt ∧ target.toInt ≤ (← get).code.size then
    modify fun m => { m with ip := target.toInt.toNat }
  else
    throw (.codeOutOfRange target start)

/-!
# Groups of instructions
-/

def binary (op : Int32 → Int32 → Int32) : Exec Unit := do
  let right ← pop
  let left ← pop
  push (op left right)

def divide (start : Nat) : Exec Unit := do
  let right ← pop
  let left ← pop
  if right = 0 then
    throw (.divisionByZero start)
  push (left / right)

def jumpIf (holds : Int32 → Int32 → Bool) (start : Nat) : Exec Unit := do
  let target ← operand start
  let right ← pop
  let left ← pop
  if holds left right then
    jump target start

/-- Prints the top of the stack; with an empty stack nothing is printed. -/
def print : Exec Unit := do
  let m ← get
  match m.memory.read? m.sp with
  | some value => modify fun m => { m with output := m.output.push value }
  | none => return

/-!
# Instructions
-/

/-- The effect of the operation at `start`, whose own cell has been taken. -/
def execute (start : Nat) : Opcode → Exec Unit
  | .halt => return
  | .push => do push (← operand start)
  | .pop => discard pop
  | .add => binary (· + ·)
  | .sub => binary (· - ·)
  | .mul => binary (· * ·)
  | .div => divide start
  | .jump => do jump (← operand start) start
  | .jumpEq => jumpIf (fun left right => left == right) start
  | .jumpLe => jumpIf (fun left right => left ≤ right) start
  | .call => do
      let target ← pop
      modify fun m => { m with ra := Int32.ofNat m.ip }
      jump target start
  | .pushFp => do push (← get).fp
  | .popFp => do
      let value ← pop
      modify fun m => { m with fp := value }
  | .setFp => modify fun m => { m with fp := m.sp }
  | .pushRa => do push (← get).ra
  | .popRa => do
      let value ← pop
      modify fun m => { m with ra := value }
  | .pushTm => do push (← get).tm
  | .popTm => do
      let value ← pop
      modify fun m => { m with tm := value }
  | .pushHp => do push (← get).hp
  | .popHp => do
      let value ← pop
      modify fun m => { m with hp := value }
  | .load => do
      let address ← pop
      let value ← read address
      push value
  | .store => do
      let address ← pop
      let value ← pop
      write address value
  | .print => print

/-- Takes and executes the next instruction. Behind the last code cell the machine has halted. -/
def step : Exec Progress := do
  let m ← get
  match m.code[m.ip]? with
  | none => return .halted
  | some cell =>
      match Opcode.decode? cell with
      | none => throw (.unknownOpcode cell m.ip)
      | some op =>
          modify fun m => { m with ip := m.ip + 1 }
          execute m.ip op
          return if op = .halt then .halted else .running

end Exec

/-!
# Runs
-/

/-- How a run of a limited number of steps ended. -/
inductive RunEnd where
  | halted
  | trapped (trap : Trap)
  | outOfSteps
deriving DecidableEq, Repr, Inhabited

namespace Machine

/-- Runs until the machine halts or traps, but takes no more than the given number of steps. -/
def run : Nat → Machine → RunEnd × Machine
  | 0, m => (.outOfSteps, m)
  | steps + 1, m =>
      match Exec.step.run m with
      | .ok .halted m => (.halted, m)
      | .ok .running m => run steps m
      | .error trap m => (.trapped trap, m)

end Machine

end ClassLet
