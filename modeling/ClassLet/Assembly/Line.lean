import ClassLet.Assembly.Opcode
import ClassLet.Text.Split

/-!
# Lines of assembly text

A line is blank, defines a label or holds one instruction. A label definition is any text that
ends in a colon; an instruction is a mnemonic, followed by an operand exactly if the operation
takes one.
-/

namespace ClassLet

/-- What is wrong with an assembly text. -/
inductive AssemblyError where
  | unknownInstruction (line : Nat) (mnemonic : String)
  | operandMissing (line : Nat) (mnemonic : String)
  | operandUnexpected (line : Nat) (mnemonic : String)
  | operandInvalid (line : Nat) (operand : String)
  | labelUndefined (label : String)
  | labelTwice (line : Nat) (label : String)
  | tooLarge (size capacity : Nat)
deriving DecidableEq, Repr, Inhabited

namespace AssemblyError

def message : AssemblyError → String
  | unknownInstruction line mnemonic => s!"line {line}: unknown instruction `{mnemonic}`"
  | operandMissing line mnemonic => s!"line {line}: `{mnemonic}` requires an operand"
  | operandUnexpected line mnemonic => s!"line {line}: `{mnemonic}` takes no operand"
  | operandInvalid line operand => s!"line {line}: invalid operand `{operand}`"
  | labelUndefined label => s!"label `{label}` is never defined"
  | labelTwice line label => s!"line {line}: label `{label}` is defined twice"
  | tooLarge size capacity =>
      s!"program needs {size} code cells but the code store holds {capacity}"

end AssemblyError

inductive AssemblyLine where
  | blank
  | label (name : String)
  | instruction (op : Opcode) (operand : Option String)
deriving DecidableEq, Repr, Inhabited

namespace AssemblyLine

/-- The words of an instruction; `number` is the number of its line. -/
def ofWords (number : Nat) : List String → Except AssemblyError AssemblyLine
  | [] => .ok .blank
  | mnemonic :: rest =>
      match Opcode.ofMnemonic? mnemonic with
      | none => .error (.unknownInstruction number mnemonic)
      | some op =>
          match rest with
          | [] =>
              if op.hasOperand then .error (.operandMissing number mnemonic)
              else .ok (.instruction op none)
          | [operand] =>
              if op.hasOperand then .ok (.instruction op (some operand))
              else .error (.operandUnexpected number mnemonic)
          | _ :: extra :: _ => .error (.operandInvalid number extra)

def parse (number : Nat) (text : List Char) : Except AssemblyError AssemblyLine :=
  let text := trim text
  if text.getLast? = some ':' then
    .ok (.label (String.ofList (trim text.dropLast)))
  else
    ofWords number ((words text).map String.ofList)

end AssemblyLine

end ClassLet
