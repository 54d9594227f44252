import ClassLet.Position
import ClassLet.Program

/-!
# Faults found while checking types
-/

namespace ClassLet

/-- What is called with arguments: a function or method, or the construction of an object. -/
inductive Callee where
  | function (name : String)
  | constructor (className : String)
deriving DecidableEq, Repr, Inhabited

namespace Callee

def text : Callee → String
  | function name => name
  | constructor className => s!"new {className}"

end Callee

inductive TypeFault where
  | wrongResult (name : String) (expected found : Ty)
  | wrongValue (name : String) (expected found : Ty)
  | conditionNotBool (found : Ty)
  | unrelatedBranches (whenTrue whenFalse : Ty)
  | incomparable (left right : Ty)
  | operandsNotInt (op : BinaryOp)
  | operandsNotBool (op : BinaryOp)
  | negationNotBool
  | notCallable (name : String)
  | argumentCount (callee : Callee) (expected found : Nat)
  /-- Arguments are counted from one. -/
  | argumentType (callee : Callee) (index : Nat) (expected found : Ty)
  | notAClass (name : String)
  | functionAsValue (name : String)
  | classAsValue (name : String)
  | badFieldOverride (className field : String)
  | badMethodOverride (className method : String)
deriving DecidableEq, Inhabited

abbrev TypeError :=
  Located TypeFault

namespace TypeFault

def message : TypeFault → String
  | wrongResult name expected found =>
      s!"`{name}` returns {found.text} but is declared to return {expected.text}"
  | wrongValue name expected found =>
      s!"`{name}` is declared {expected.text} but initialized with {found.text}"
  | conditionNotBool found => s!"condition has type {found.text}, expected bool"
  | unrelatedBranches whenTrue whenFalse =>
      s!"branches have incompatible types {whenTrue.text} and {whenFalse.text}"
  | incomparable left right => s!"cannot compare {left.text} with {right.text}"
  | operandsNotInt op => s!"operands of `{op.symbol}` must be int"
  | operandsNotBool op => s!"operands of `{op.symbol}` must be bool"
  | negationNotBool => "operands of `!` must be bool"
  | notCallable name => s!"`{name}` is not a function"
  | argumentCount callee expected found =>
      s!"`{callee.text}` expects {expected} argument(s), got {found}"
  | argumentType callee index expected found =>
      s!"argument {index} of `{callee.text}` has type {found.text}, expected {expected.text}"
  | notAClass name => s!"`{name}` is not a class"
  | functionAsValue name => s!"function `{name}` cannot be used as a value"
  | classAsValue name => s!"class `{name}` cannot be used as a value"
  | badFieldOverride className field =>
      s!"field `{field}` in class `{className}` is not a subtype of the inherited field"
  | badMethodOverride className method =>
      s!"method `{method}` in class `{className}` is not a subtype of the inherited method"

end TypeFault

end ClassLet
