import ClassLet.Diagnostic.Code
import ClassLet.Diagnostic.Link
import ClassLet.Diagnostic.Type

/-!
# Diagnostics

A diagnostic is a fault of any kind together with its position, and its text names the position
first.
-/

namespace ClassLet

inductive Fault where
  | link (fault : LinkFault)
  | type (fault : TypeFault)
  | code (fault : CodeFault)
deriving DecidableEq, Inhabited

abbrev Diagnostic :=
  Located Fault

namespace Fault

def isLink : Fault → Bool
  | link _ => true
  | _ => false

def isType : Fault → Bool
  | type _ => true
  | _ => false

def message : Fault → String
  | link fault => fault.message
  | type fault => fault.message
  | code fault => fault.message

end Fault

namespace Diagnostic

def ofLink (error : LinkError) : Diagnostic :=
  error.map Fault.link

def ofType (error : TypeError) : Diagnostic :=
  error.map Fault.type

def ofCode (error : CodeError) : Diagnostic :=
  error.map Fault.code

def message (d : Diagnostic) : String :=
  s!"at {d.pos.text}: {d.cause.message}"

end Diagnostic

end ClassLet
