import ClassLet.Diagnostic.Type
import ClassLet.Program
import ClassLet.Ty.Subtyping

/-!
# Types of expressions

The type of an expression is computed from the notes that linking left. Parts are looked at in
the order in which they are written and the first failure ends the computation. A failure is
either a genuine type error or a sign that the tree is not complete, which is no error of the
program.
-/

namespace ClassLet

inductive TypingFailure where
  | error (e : TypeError)
  | incomplete
deriving DecidableEq, Inhabited

abbrev Typed (α : Type) :=
  Except TypingFailure α

namespace Typed

def reject {α : Type} (pos : Position) (cause : TypeFault) : Typed α :=
  .error (.error { pos, cause })

def require (holds : Bool) (pos : Position) (cause : TypeFault) : Typed Unit :=
  if holds then .ok () else reject pos cause

/-- What linking has noted; without it the tree is incomplete. -/
def noted {α : Type} : Option α → Typed α
  | some a => .ok a
  | none => .error .incomplete

def requireCount (pos : Position) (callee : Callee) (expected : List Ty) (args : List Expr) :
    Typed Unit :=
  require (args.length == expected.length) pos
    (.argumentCount callee expected.length args.length)

end Typed

namespace Hierarchy

/-- The type of a binary operation on operands of the given types. -/
def binaryType (h : Hierarchy) (pos : Position) (op : BinaryOp) (left right : Ty) : Typed Ty :=
  let both (ty : Ty) : Bool := h.isSubtype left ty && h.isSubtype right ty
  match op with
  | .add | .sub | .mul | .div => do
      Typed.require (both .int) pos (.operandsNotInt op)
      return .int
  | .le | .ge => do
      Typed.require (both .int) pos (.operandsNotInt op)
      return .bool
  | .and | .or => do
      Typed.require (both .bool) pos (.operandsNotBool op)
      return .bool
  | .eq => do
      Typed.require (h.isSubtype left right || h.isSubtype right left) pos
        (.incomparable left right)
      return .bool

end Hierarchy

namespace Ty

/-- A variable, parameter or field can be read; a function or a class is no value. -/
def readAs (ty : Ty) (id : Ident) : Typed Ty :=
  match ty with
  | .arrow _ | .method _ => Typed.reject id.pos (.functionAsValue id.name)
  | .layout members => Typed.reject id.pos (.classAsValue members.name)
  | ty => .ok ty

def calledAs (ty : Ty) (pos : Position) (name : String) : Typed Signature :=
  match ty.signature? with
  | some signature => .ok signature
  | none => Typed.reject pos (.notCallable name)

def constructedAs (ty : Ty) (pos : Position) (name : String) : Typed ClassLayout :=
  match ty with
  | .layout members => .ok members
  | _ => Typed.reject pos (.notAClass name)

end Ty

namespace Expr

mutual

def type (h : Hierarchy) : Expr → Typed Ty
  | .int .. => .ok .int
  | .bool .. => .ok .bool
  | .null _ => .ok .null
  | .missing _ => .error .incomplete
  | .name id target => do
      let target ← Typed.noted target
      target.binding.ty.readAs id
  | .call pos callee args target => do
      let target ← Typed.noted target
      let signature ← target.binding.ty.calledAs pos callee.name
      Typed.requireCount pos (.function callee.name) signature.params args
      checkArgs h (.function callee.name) 1 signature.params args
      return signature.result
  | .methodCall pos _ method args _ entry => do
      let entry ← Typed.noted entry
      let signature ← entry.ty.calledAs pos method.name
      Typed.requireCount pos (.function method.name) signature.params args
      checkArgs h (.function method.name) 1 signature.params args
      return signature.result
  | .construct pos className args target => do
      let target ← Typed.noted target
      let layout ← target.ty.constructedAs pos className.name
      Typed.requireCount pos (.constructor layout.name) layout.fields args
      checkArgs h (.constructor layout.name) 1 layout.fields args
      return .ref layout.name
  | .ifElse pos condition whenTrue whenFalse => do
      let found ← condition.type h
      Typed.require (h.isSubtype found .bool) condition.pos (.conditionNotBool found)
      let left ← whenTrue.type h
      let right ← whenFalse.type h
      match h.commonSupertype? left right with
      | some ty => return ty
      | none => Typed.reject pos (.unrelatedBranches left right)
  | .not pos operand => do
      let found ← operand.type h
      Typed.require (h.isSubtype found .bool) pos .negationNotBool
      return .bool
  | .binary pos op left right => do
      let left ← left.type h
      let right ← right.type h
      h.binaryType pos op left right
  | .print _ operand => operand.type h
termination_by structural e => e

/-- Compares arguments with the expected types one by one, from the given argument on. -/
def checkArgs (h : Hierarchy) (callee : Callee) (index : Nat) : List Ty → List Expr → Typed Unit
  | ty :: tys, arg :: args => do
      let found ← arg.type h
      Typed.require (h.isSubtype found ty) arg.pos (.argumentType callee index ty found)
      checkArgs h callee (index + 1) tys args
  | _, _ => .ok ()
termination_by structural _ args => args

end

end Expr

end ClassLet
