/-!
# Operations of the stack machine

An operation is stored as one code cell, followed by one operand cell if it takes an operand. A
binary operation takes its right operand from the top of the stack and its left one from below.

Main statements: `decode?_cell` and `ofMnemonic?_mnemonic` say that an operation can be told from
its cell and from its mnemonic.
-/

namespace ClassLet

inductive Opcode where
  | halt
  | push
  | pop
  | add
  | sub
  | mul
  | div
  | jump
  | jumpEq
  | jumpLe
  /-- Jumps to an address from the stack and keeps the address that follows in a register. -/
  | call
  | pushFp
  | popFp
  | setFp
  | pushRa
  | popRa
  | pushTm
  | popTm
  | pushHp
  | popHp
  | load
  | store
  /-- Prints the top of the stack and leaves it there. -/
  | print
deriving DecidableEq, Repr, Inhabited

namespace Opcode

/-- All operations, in the order of their code cells. -/
def all : List Opcode :=
  [halt, push, pop, add, sub, mul, div, jump, jumpEq, jumpLe, call,
    pushFp, popFp, setFp, pushRa, popRa, pushTm, popTm, pushHp, popHp,
    load, store, print]

def mnemonic : Opcode → String
  | halt => "halt"
  | push => "push"
  | pop => "pop"
  | add => "add"
  | sub => "sub"
  | mul => "mult"
  | div => "div"
  | jump => "b"
  | jumpEq => "beq"
  | jumpLe => "bleq"
  | call => "js"
  | pushFp => "lfp"
  | popFp => "sfp"
  | setFp => "cfp"
  | pushRa => "lra"
  | popRa => "sra"
  | pushTm => "ltm"
  | popTm => "stm"
  | pushHp => "lhp"
  | popHp => "shp"
  | load => "lw"
  | store => "sw"
  | print => "print"

def ofMnemonic? (text : String) : Option Opcode :=
  all.find? fun op => op.mnemonic == text

/-- The code cell of an operation. -/
def cell (op : Opcode) : Int32 :=
  Int32.ofNat (all.idxOf op)

def decode? (cell : Int32) : Option Opcode :=
  if cell < 0 then none else all[cell.toNatClampNeg]?

def hasOperand : Opcode → Bool
  | push | jump | jumpEq | jumpLe => true
  | _ => false

/-- The number of code cells of an instruction. -/
def width (op : Opcode) : Nat :=
  if op.hasOperand then 2 else 1

theorem decode?_cell (op : Opcode) : decode? op.cell = some op := by
  cases op <;> decide

theorem ofMnemonic?_mnemonic (op : Opcode) : ofMnemonic? op.mnemonic = some op := by
  cases op <;> decide

end Opcode

end ClassLet
