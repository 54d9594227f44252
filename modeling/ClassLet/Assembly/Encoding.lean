import ClassLet.Assembly.Line
import ClassLet.NameMap
import ClassLet.Text.Decimal

/-!
# Encoding assembly text

The lines are read from the first to the last; a label gets the number of code cells before it as
its address, whether it is used before or after. Once all addresses are known and the size has
been found to fit, every instruction is encoded as its cell followed by its operand.
-/

namespace ClassLet

/-- An instruction whose operand is still text. -/
structure DraftInstruction where
  line : Nat
  op : Opcode
  operand : Option String
deriving DecidableEq, Repr, Inhabited

/-- An assembly text as far as it has been read. -/
structure Draft where
  size : Nat
  labels : NameMap Nat
  instructions : Array DraftInstruction
deriving Inhabited

namespace Draft

def empty : Draft :=
  { size := 0, labels := NameMap.empty, instructions := #[] }

def addLine (d : Draft) (number : Nat) : AssemblyLine → Except AssemblyError Draft
  | .blank => .ok d
  | .label name =>
      if d.labels.contains name then .error (.labelTwice number name)
      else .ok { d with labels := d.labels.insert name d.size }
  | .instruction op operand =>
      .ok { d with
        size := d.size + op.width
        instructions := d.instructions.push { line := number, op, operand } }

/-- Reads on from the line with the given number. -/
def read (d : Draft) (number : Nat) : List (List Char) → Except AssemblyError Draft
  | [] => .ok d
  | text :: rest => do
      let line ← AssemblyLine.parse number text
      let d ← d.addLine number line
      d.read (number + 1) rest

end Draft

/-!
# Operands

An operand is a number if it can be read as one, and else the name of a label.
-/

def isLabelChar (c : Char) : Bool :=
  c.isAlphanum || c == '_'

namespace DraftInstruction

def operandCell (labels : NameMap Nat) (line : Nat) (operand : String) :
    Except AssemblyError Int32 :=
  match Decimal.parseCell? operand.toList with
  | some value => .ok value
  | none =>
      if operand.toList.all isLabelChar then
        match labels.find? operand with
        | some address => .ok (Int32.ofNat address)
        | none => .error (.labelUndefined operand)
      else
        .error (.operandInvalid line operand)

def cells (labels : NameMap Nat) (i : DraftInstruction) : Except AssemblyError (List Int32) :=
  match i.operand with
  | none => .ok [i.op.cell]
  | some operand => do
      let value ← operandCell labels i.line operand
      return [i.op.cell, value]

end DraftInstruction

/-- The code cells of an assembly text, if they fit into a code store of the given capacity. -/
def assembleChars (text : List Char) (capacity : Nat) : Except AssemblyError (List Int32) := do
  let draft ← Draft.empty.read 1 (splitLines text)
  if capacity < draft.size then
    throw (.tooLarge draft.size capacity)
  let cells ← draft.instructions.toList.mapM (DraftInstruction.cells draft.labels)
  return cells.flatten

def assemble (text : String) (capacity : Nat) : Except AssemblyError (List Int32) :=
  assembleChars text.toList capacity

end ClassLet
