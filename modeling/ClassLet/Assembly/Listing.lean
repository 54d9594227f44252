import ClassLet.Assembly.Opcode
import ClassLet.Text.Decimal

/-!
# Assembly listings

A listing is a sequence of instructions and label definitions. Its text has one item a line; an
instruction remembers the line of the program it was generated for.
-/

namespace ClassLet

inductive Operand where
  | value (v : Int32)
  | label (name : String)
deriving DecidableEq, Repr, Inhabited

structure Instruction where
  op : Opcode
  operand : Option Operand
  line : Nat
deriving DecidableEq, Repr, Inhabited

inductive Item where
  | instruction (i : Instruction)
  | label (name : String)
deriving DecidableEq, Repr, Inhabited

structure Listing where
  items : List Item
deriving DecidableEq, Repr, Inhabited

/-!
# Text
-/

namespace Operand

def chars : Operand → List Char
  | value v => Decimal.text v.toInt
  | label name => name.toList

end Operand

namespace Instruction

def chars (i : Instruction) : List Char :=
  match i.operand with
  | some operand => i.op.mnemonic.toList ++ ' ' :: operand.chars
  | none => i.op.mnemonic.toList

end Instruction

namespace Item

def chars : Item → List Char
  | instruction i => i.chars
  | label name => name.toList ++ [':']

def instruction? : Item → Option Instruction
  | instruction i => some i
  | label _ => none

end Item

namespace Listing

def chars (l : Listing) : List Char :=
  l.items.flatMap fun item => item.chars ++ ['\n']

def text (l : Listing) : String :=
  String.ofList l.chars

/-!
# Size
-/

def instructions (l : Listing) : List Instruction :=
  l.items.filterMap Item.instruction?

/-- The number of code cells that the listing takes. -/
def codeSize (l : Listing) : Nat :=
  l.instructions.foldr (fun i size => i.op.width + size) 0

def count (l : Listing) (op : Opcode) : Nat :=
  l.instructions.countP fun i => i.op == op

end Listing

end ClassLet
