import ClassLet.Position
import ClassLet.Storage.Members

/-!
# Faults found while linking

Linking gives every name a place and every use of a name the place it refers to. A fault says
why one of the two failed.
-/

namespace ClassLet

inductive LinkFault where
  | unknownName (name : String)
  | alreadyDeclared (name : String)
  | memberTwice (className name : String)
  | fieldOverMethod (className name : String)
  | methodOverField (className name : String)
  | unknownClass (name : String)
  | notAnObject (name : String)
  | unknownMethod (className name : String)
  /-- Classes are declared at top level only. -/
  | nestedClass (name : String)
deriving DecidableEq, Repr, Inhabited

abbrev LinkError :=
  Located LinkFault

namespace LinkFault

def ofClash (className name : String) : KindClash → LinkFault
  | .fieldOverMethod => fieldOverMethod className name
  | .methodOverField => methodOverField className name

def message : LinkFault → String
  | unknownName name => s!"identifier `{name}` is not declared"
  | alreadyDeclared name => s!"`{name}` is already declared in this scope"
  | memberTwice className name => s!"member `{name}` is declared twice in class `{className}`"
  | fieldOverMethod className name =>
      s!"field `{name}` in class `{className}` cannot override a method"
  | methodOverField className name =>
      s!"method `{name}` in class `{className}` cannot override a field"
  | unknownClass name => s!"class `{name}` is not declared"
  | notAnObject name => s!"`{name}` is not an object reference"
  | unknownMethod className name => s!"class `{className}` has no method `{name}`"
  | nestedClass name => s!"class `{name}` must be declared at top level"

end LinkFault

end ClassLet
