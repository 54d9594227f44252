import ClassLet.Position
import ClassLet.Storage

/-!
# Programs

A program is a list of declarations followed by one expression. A declaration is a variable, a
function or a class; the body of a function or method is again a list of declarations followed by
an expression.

Nodes that refer to a declaration, or that declare something, have room for what linking finds out
about them: a use its resolution, a declaration its place. In a program as it is written all
these notes are empty.
-/

namespace ClassLet

structure Ident where
  name : String
  pos : Position
deriving DecidableEq, Repr, Inhabited

/-- A type written in the program. -/
structure TypeRef where
  ty : Ty
  pos : Position
deriving DecidableEq, Inhabited

/-!
# Operators
-/

inductive BinaryOp where
  | add
  | sub
  | mul
  | div
  | eq
  | le
  | ge
  | and
  | or
deriving DecidableEq, Repr, Inhabited

namespace BinaryOp

def symbol : BinaryOp → String
  | add => "+"
  | sub => "-"
  | mul => "*"
  | div => "/"
  | eq => "=="
  | le => "<="
  | ge => ">="
  | and => "&&"
  | or => "||"

def isArithmetic : BinaryOp → Bool
  | add | sub | mul | div => true
  | _ => false

def isLogical : BinaryOp → Bool
  | and | or => true
  | _ => false

end BinaryOp

/-!
# Expressions
-/

inductive Expr where
  | int (pos : Position) (value : Int32)
  | bool (pos : Position) (value : Bool)
  | null (pos : Position)
  /-- A place where the program text had no usable expression. -/
  | missing (pos : Position)
  | name (id : Ident) (target : Option Resolution)
  /-- A function call, or a method call on the enclosing object. -/
  | call (pos : Position) (callee : Ident) (args : List Expr) (target : Option Resolution)
  | methodCall (pos : Position) (object method : Ident) (args : List Expr)
      (receiver : Option Resolution) (entry : Option Binding)
  | construct (pos : Position) (className : Ident) (args : List Expr) (target : Option Binding)
  | ifElse (pos : Position) (condition whenTrue whenFalse : Expr)
  | not (pos : Position) (operand : Expr)
  | binary (pos : Position) (op : BinaryOp) (left right : Expr)
  | print (pos : Position) (operand : Expr)
deriving Inhabited

namespace Expr

def pos : Expr → Position
  | int pos _ => pos
  | bool pos _ => pos
  | null pos => pos
  | missing pos => pos
  | name id _ => id.pos
  | call pos .. => pos
  | methodCall pos .. => pos
  | construct pos .. => pos
  | ifElse pos .. => pos
  | not pos _ => pos
  | binary pos .. => pos
  | print pos _ => pos

end Expr

/-!
# Headers of declarations
-/

structure Param where
  id : Ident
  ty : TypeRef
  binding : Option Binding
deriving Inhabited

/-- What is known of a function or method without its body. -/
structure Header where
  pos : Position
  id : Ident
  params : List Param
  result : TypeRef
deriving Inhabited

namespace Header

def signature (h : Header) : Signature :=
  { params := h.params.map fun p => p.ty.ty, result := h.result.ty }

end Header

/-- A field takes its value from the argument of the construction in the same position. -/
structure Field where
  id : Ident
  ty : TypeRef
  offset : Option Int
deriving Inhabited

/-- What is known of a class without its methods. -/
structure ClassHeader where
  pos : Position
  id : Ident
  super : Option Ident
  fields : List Field
  binding : Option Binding
  /-- All members, the inherited ones included. -/
  layout : Option ClassLayout
  /-- The layout of the superclass at the place of the declaration. -/
  superLayout : Option ClassLayout
deriving Inhabited

/-!
# Declarations
-/

mutual

inductive Decl where
  | var (pos : Position) (id : Ident) (ty : TypeRef) (init : Expr) (binding : Option Binding)
  | function (header : Header) (body : Body) (binding : Option Binding)
  | classDef (header : ClassHeader) (methods : List Method)

/-- What is evaluated when a function or method is called. -/
structure Body where
  locals : List Decl
  result : Expr

structure Method where
  header : Header
  body : Body
  slot : Option Nat

end

deriving instance Inhabited for Body
deriving instance Inhabited for Method
deriving instance Inhabited for Decl

structure Program where
  decls : List Decl
  body : Expr
  pos : Position
deriving Inhabited

namespace Program

def hasDeclarations (p : Program) : Bool :=
  !p.decls.isEmpty

end Program

end ClassLet
