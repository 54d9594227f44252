import ClassLet.Generation.Emission
import ClassLet.Program

/-!
# Code of expressions

The code of an expression leaves its value on top of the stack. Truth values are zero and one,
and `null` is minus one. The arguments of a call are evaluated from the last to the first, those
of a construction from the first to the last; the right operand of `&&` and `||` is evaluated only
if the left one does not decide.

An instruction belongs to the line of the expression whose code was begun last.
-/

namespace ClassLet

namespace BinaryOp

/-- The code after the operands of an operator that needs both. -/
def finish : BinaryOp → Gen Unit
  | add => Gen.emit .add
  | sub => Gen.emit .sub
  | mul => Gen.emit .mul
  | div => Gen.emit .div
  | eq => Gen.choose .jumpEq 1 0
  | le => Gen.choose .jumpLe 1 0
  | ge => do
      Gen.push 1
      Gen.emit .sub
      Gen.choose .jumpLe 0 1
  | and => pure ()
  | or => pure ()

/-- The operand that decides the result of a logical operator. -/
def decisive : BinaryOp → Int32
  | and => 0
  | _ => 1

/-- The result if no operand decides. -/
def undecided : BinaryOp → Int32
  | and => 1
  | _ => 0

end BinaryOp

namespace Expr

mutual

def generate (ctx : CodeContext) : Expr → Gen Unit
  | .int pos value => do
      Gen.atLine pos.line
      Gen.push value
  | .bool pos value => do
      Gen.atLine pos.line
      Gen.push (if value then 1 else 0)
  | .null pos => do
      Gen.atLine pos.line
      Gen.push (-1)
  | .missing pos => do
      Gen.atLine pos.line
      Gen.fail pos .incompleteTree
  | .name id target => do
      Gen.atLine id.pos.line
      let target ← Gen.noted target id.pos (.unresolved id.name)
      Gen.pushBase ctx target
      Gen.loadAt target.binding.offset
  | .call pos callee args target => do
      Gen.atLine pos.line
      let target ← Gen.noted target pos (.unresolved callee.name)
      Gen.emit .pushFp
      generateReversed ctx args
      Gen.pushBase ctx target
      Gen.duplicate
      if target.binding.ty.isMethod then
        Gen.emit .load
      Gen.loadAt target.binding.offset
      Gen.emit .call
  | .methodCall pos object method args receiver entry => do
      Gen.atLine pos.line
      let receiver ← Gen.noted receiver object.pos (.unresolved object.name)
      let entry ← Gen.noted entry method.pos (.unresolved method.name)
      Gen.emit .pushFp
      generateReversed ctx args
      Gen.pushBase ctx receiver
      Gen.loadAt receiver.binding.offset
      Gen.duplicate
      Gen.emit .load
      Gen.loadAt entry.offset
      Gen.emit .call
  | .construct pos className args target => do
      Gen.atLine pos.line
      let target ← Gen.noted target className.pos (.unresolved className.name)
      generateAll ctx args
      Gen.storeOnHeapRepeat args.length
      Gen.push (ctx.memorySize + Int32.ofInt target.offset)
      Gen.emit .load
      Gen.emit .pushHp
      Gen.emit .store
      Gen.emit .pushHp
      Gen.advanceHeap
  | .ifElse pos condition whenTrue whenFalse => do
      Gen.atLine pos.line
      let thenLabel ← Gen.newLabel
      let endLabel ← Gen.newLabel
      condition.generate ctx
      Gen.push 1
      Gen.jumpTo .jumpEq thenLabel
      whenFalse.generate ctx
      Gen.jumpTo .jump endLabel
      Gen.define thenLabel
      whenTrue.generate ctx
      Gen.define endLabel
  | .not pos operand => do
      Gen.atLine pos.line
      operand.generate ctx
      Gen.push 0
      Gen.choose .jumpEq 1 0
  | .binary pos op left right =>
      if op.isLogical then do
        Gen.atLine pos.line
        let decided ← Gen.newLabel
        let endLabel ← Gen.newLabel
        left.generate ctx
        Gen.push op.decisive
        Gen.jumpTo .jumpEq decided
        right.generate ctx
        Gen.push op.decisive
        Gen.jumpTo .jumpEq decided
        Gen.push op.undecided
        Gen.jumpTo .jump endLabel
        Gen.define decided
        Gen.push op.decisive
        Gen.define endLabel
      else do
        Gen.atLine pos.line
        left.generate ctx
        right.generate ctx
        op.finish
  | .print pos operand => do
      Gen.atLine pos.line
      operand.generate ctx
      Gen.emit .print
termination_by structural e => e

/-- The code of expressions from the first to the last. -/
def generateAll (ctx : CodeContext) : List Expr → Gen Unit
  | [] => pure ()
  | e :: es => do
      e.generate ctx
      generateAll ctx es
termination_by structural es => es

/-- The code of expressions from the last to the first. -/
def generateReversed (ctx : CodeContext) : List Expr → Gen Unit
  | [] => pure ()
  | e :: es => do
      generateReversed ctx es
      e.generate ctx
termination_by structural es => es

end

end Expr

end ClassLet
