import ClassLet.Program
import ClassLet.Proofs.Members.Names

/-!
# Evaluation of programs

The meaning of a program, told without levels, offsets and frames: a name refers to the innermost
entry of its name, and a function or method that is called continues from the entries that were
visible where it was declared. Numbers are cells with wrapping arithmetic, truth values are zero
and one and `null` is minus one. An object is identified with the heap address that it gets from a
heap that only grows: a class takes one cell for each of its methods and a construction one for
each field and one more, the last of which is the address of the object.

A program need not come to an end, so the number of calls inside each other is limited by fuel.
-/

namespace ClassLet

/-!
# What names refer to
-/

/-- A declaration in force. The members of an object are in force in the methods of its class and
of the classes above. -/
inductive Entry where
  | value (name : String) (value : Int32)
  | function (header : Header) (body : Body)
  | classDef (header : ClassHeader) (methods : List Method)
  | members (className : String) (object : Int32)
deriving Inhabited

/-- The entries that are visible at a place, the innermost first. -/
abbrev Visible :=
  List Entry

inductive Referent where
  | value (value : Int32)
  | function (scope : Visible) (header : Header) (body : Body)
  | field (object : Int32) (name : String)
  | method (object : Int32) (name : String)
deriving Inhabited

/-- A method with the class that declares it and the entries visible there. -/
structure FoundMethod where
  className : String
  scope : Visible
  method : Method
deriving Inhabited

namespace Visible

/-- The entries from the declaration of a class on. -/
def class? (name : String) : Visible → Option Visible
  | [] => none
  | .classDef header methods :: rest =>
      if header.id.name = name then some (.classDef header methods :: rest) else class? name rest
  | _ :: rest => class? name rest

/-- Names of members, the inherited ones first; a name that is declared again keeps its place. -/
def memberNames (own : ClassHeader → List Method → List String) : Visible → String → List String
  | [], _ => []
  | .classDef header methods :: rest, name =>
      if header.id.name = name then
        let inherited :=
          match header.super with
          | some super => memberNames own rest super.name
          | none => []
        enterNames inherited (own header methods)
      else
        memberNames own rest name
  | _ :: rest, name => memberNames own rest name

def fieldNames (visible : Visible) (className : String) : List String :=
  memberNames (fun header _ => header.fields.map fun f => f.id.name) visible className

def methodNames (visible : Visible) (className : String) : List String :=
  memberNames (fun _ methods => methods.map fun m => m.header.id.name) visible className

/-- The method that objects of a class have under a name: that of the class itself, or else that of
its superclass. -/
def method? (name : String) : Visible → String → Option FoundMethod
  | [], _ => none
  | .classDef header methods :: rest, className =>
      if header.id.name = className then
        match methods.find? fun m => m.header.id.name == name with
        | some method => some { className, scope := .classDef header methods :: rest, method }
        | none =>
            match header.super with
            | some super => method? name rest super.name
            | none => none
      else
        method? name rest className
  | _ :: rest, className => method? name rest className

def referent? (name : String) : Visible → Option Referent
  | [] => none
  | .value n v :: rest => if n = name then some (.value v) else referent? name rest
  | .function header body :: rest =>
      if header.id.name = name then some (.function (.function header body :: rest) header body)
      else referent? name rest
  | .classDef header _ :: rest =>
      if header.id.name = name then none else referent? name rest
  | .members className object :: rest =>
      if name ∈ fieldNames rest className then some (.field object name)
      else if name ∈ methodNames rest className then some (.method object name)
      else referent? name rest

/-- The entries of a body, with its parameters bound to arguments. -/
def withArguments (visible : Visible) (params : List Param) (args : List Int32) : Visible :=
  (params.zip args).map (fun (p, v) => .value p.id.name v) ++ visible

end Visible

/-!
# States
-/

structure Object where
  className : String
  /-- The entries from the declaration of the class on. -/
  scope : Visible
  fields : List (String × Int32)
deriving Inhabited

structure Store where
  /-- The number of heap cells taken. -/
  next : Nat
  objects : List (Int32 × Object)
  printed : List Int32
deriving Inhabited

namespace Store

def empty : Store :=
  { next := 0, objects := [], printed := [] }

end Store

/-- Why an evaluation gives no value. -/
inductive Failure where
  | divisionByZero
  | nullReceiver
  | outOfFuel
  /-- The expression has no meaning. -/
  | stuck
deriving DecidableEq, Repr, Inhabited

abbrev Eval :=
  EStateM Failure Store

/-- How a body is evaluated. -/
abbrev Enter :=
  Visible → Body → Eval Int32

namespace Eval

def printValue (v : Int32) : Eval Unit :=
  modify fun st => { st with printed := st.printed ++ [v] }

def object (address : Int32) : Eval Object := do
  match (← get).objects.lookup address with
  | some o => return o
  | none => throw .stuck

def readField (address : Int32) (name : String) : Eval Int32 := do
  match (← object address).fields.lookup name with
  | some v => return v
  | none => throw .stuck

/-- The value of a variable, parameter or field. -/
def readName (visible : Visible) (name : String) : Eval Int32 :=
  match visible.referent? name with
  | some (.value v) => pure v
  | some (.field address name) => readField address name
  | _ => throw .stuck

/-- Calls the method that the object has under the name. -/
def dispatch (enter : Enter) (receiver : Int32) (name : String) (args : List Int32) :
    Eval Int32 := do
  if receiver = -1 then
    throw .nullReceiver
  let o ← object receiver
  match o.scope.method? name o.className with
  | some found =>
      enter (Visible.withArguments (.members found.className receiver :: found.scope)
        found.method.header.params args) found.method.body
  | none => throw .stuck

def takeCells (count : Nat) : Eval Unit :=
  modify fun st => { st with next := st.next + count }

/-- The address of a new object whose fields have the given values. -/
def newObject (scope : Visible) (className : String) (values : List Int32) : Eval Int32 := do
  let address := Int32.ofNat ((← get).next + values.length)
  takeCells (values.length + 1)
  let o : Object := { className, scope, fields := (scope.fieldNames className).zip values }
  modify fun st => { st with objects := (address, o) :: st.objects }
  return address

end Eval

/-!
# Expressions
-/

/-- What an operator that needs both operands makes of them. -/
def BinaryOp.eval (op : BinaryOp) (left right : Int32) : Eval Int32 :=
  match op with
  | .add => return left + right
  | .sub => return left - right
  | .mul => return left * right
  | .div => if right = 0 then throw .divisionByZero else return left / right
  | .eq => return if left = right then 1 else 0
  | .le => return if left ≤ right then 1 else 0
  | .ge => return if left ≤ right - 1 then 0 else 1
  | .and => return if left = 0 ∨ right = 0 then 0 else 1
  | .or => return if left = 1 ∨ right = 1 then 1 else 0

/-- The left operand alone decides the result. -/
def BinaryOp.decidedBy (op : BinaryOp) (left : Int32) : Bool :=
  match op with
  | .and => left == 0
  | .or => left == 1
  | _ => false

namespace Expr

mutual

def eval (enter : Enter) (visible : Visible) : Expr → Eval Int32
  | .int _ value => return value
  | .bool _ value => return if value then 1 else 0
  | .null _ => return -1
  | .missing _ => throw .stuck
  | .name id _ => Eval.readName visible id.name
  | .call _ callee args _ => do
      let values ← evalReversed enter visible args
      match visible.referent? callee.name with
      | some (.function scope header body) =>
          enter (scope.withArguments header.params values) body
      | some (.method object member) => Eval.dispatch enter object member values
      | _ => throw .stuck
  | .methodCall _ object method args _ _ => do
      let values ← evalReversed enter visible args
      let receiver ← Eval.readName visible object.name
      Eval.dispatch enter receiver method.name values
  | .construct _ className args _ => do
      let values ← evalAll enter visible args
      match visible.class? className.name with
      | some scope => Eval.newObject scope className.name values
      | none => throw .stuck
  | .ifElse _ condition whenTrue whenFalse => do
      let holds ← condition.eval enter visible
      if holds = 1 then whenTrue.eval enter visible else whenFalse.eval enter visible
  | .not _ operand => do
      let v ← operand.eval enter visible
      return if v = 0 then 1 else 0
  | .binary _ op left right => do
      let l ← left.eval enter visible
      if op.decidedBy l then
        return l
      let r ← right.eval enter visible
      op.eval l r
  | .print _ operand => do
      let v ← operand.eval enter visible
      Eval.printValue v
      return v
termination_by structural e => e

/-- Evaluates expressions from the first to the last. -/
def evalAll (enter : Enter) (visible : Visible) : List Expr → Eval (List Int32)
  | [] => return []
  | e :: es => do
      let v ← e.eval enter visible
      let vs ← evalAll enter visible es
      return v :: vs
termination_by structural es => es

/-- Evaluates expressions from the last to the first. -/
def evalReversed (enter : Enter) (visible : Visible) : List Expr → Eval (List Int32)
  | [] => return []
  | e :: es => do
      let vs ← evalReversed enter visible es
      let v ← e.eval enter visible
      return v :: vs
termination_by structural es => es

end

end Expr

/-!
# Declarations
-/

/-- The entries behind a declaration. -/
def Decl.eval (enter : Enter) (visible : Visible) : Decl → Eval Visible
  | .var _ id _ init _ => do
      let v ← init.eval enter visible
      return .value id.name v :: visible
  | .function header body _ => return .function header body :: visible
  | .classDef header methods => do
      let visible := Entry.classDef header methods :: visible
      Eval.takeCells (Visible.methodNames visible header.id.name).length
      return visible

def Decl.evalAll (enter : Enter) (visible : Visible) : List Decl → Eval Visible
  | [] => return visible
  | d :: ds => do
      let visible ← d.eval enter visible
      Decl.evalAll enter visible ds

/-- Evaluates a body with at most the given number of bodies inside each other. -/
def Body.eval : Nat → Enter
  | 0, _, _ => throw .outOfFuel
  | fuel + 1, visible, ⟨locals, result⟩ => do
      let visible ← Decl.evalAll (Body.eval fuel) visible locals
      result.eval (Body.eval fuel) visible

namespace Program

/-- The value of a program, evaluated with the given fuel. -/
def eval (p : Program) (fuel : Nat) : EStateM.Result Failure Store Int32 :=
  (Body.eval fuel [] ⟨p.decls, p.body⟩).run Store.empty

end Program

end ClassLet
