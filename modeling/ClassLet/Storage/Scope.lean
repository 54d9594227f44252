import ClassLet.Diagnostic.Link
import ClassLet.NameMap
import ClassLet.Program

/-!
# Nested scopes

A scope holds the names of one region of the program and hands out the offsets of its local
declarations. Scopes are stacked, and a name refers to the innermost scope that knows it. An
operation that needs a scope and finds none opens one.

Main statements: `close?_openWith`, what was opened goes away without a trace, and
`lookup?_openWith`, it hides the names it holds and no others.
-/

namespace ClassLet

structure Scope where
  bindings : NameMap Binding
  nextOffset : Int
deriving Inhabited

namespace Scope

def holding (bindings : NameMap Binding) : Scope :=
  { bindings, nextOffset := Frame.firstLocal }

def fresh : Scope :=
  holding NameMap.empty

end Scope

/-- Open scopes, the innermost first. -/
structure ScopeStack where
  scopes : List Scope
deriving Inhabited

namespace ScopeStack

def empty : ScopeStack :=
  { scopes := [] }

/-- The nesting level of the innermost scope; the outermost one has level zero. -/
def level (s : ScopeStack) : Nat :=
  s.scopes.length - 1

/-!
# Opening and closing
-/

def openWith (s : ScopeStack) (scope : Scope) : ScopeStack :=
  { scopes := scope :: s.scopes }

def openFresh (s : ScopeStack) : ScopeStack :=
  s.openWith Scope.fresh

def close? (s : ScopeStack) : Option (Scope × ScopeStack) :=
  match s.scopes with
  | [] => none
  | scope :: rest => some (scope, { scopes := rest })

def innermost (s : ScopeStack) : Scope :=
  s.scopes.headD Scope.fresh

def setInnermost (s : ScopeStack) (scope : Scope) : ScopeStack :=
  { scopes := scope :: s.scopes.tail }

/-!
# Declaring names
-/

def nextOffset (s : ScopeStack) : Int :=
  s.innermost.nextOffset

/-- Takes the next local offset of the innermost scope. -/
def takeOffset (s : ScopeStack) : ScopeStack :=
  s.setInnermost { s.innermost with nextOffset := s.nextOffset - 1 }

def declares (s : ScopeStack) (name : String) : Bool :=
  s.innermost.bindings.contains name

def bind (s : ScopeStack) (name : String) (binding : Binding) : ScopeStack :=
  s.setInnermost { s.innermost with bindings := s.innermost.bindings.insert name binding }

/-- A name is declared at most once in a scope. -/
def declare (s : ScopeStack) (id : Ident) (binding : Binding) : Except LinkError ScopeStack :=
  if s.declares id.name then
    .error { pos := id.pos, cause := .alreadyDeclared id.name }
  else
    .ok (s.bind id.name binding)

/-- The scopes after an attempt to declare a name; a name the scope already has keeps its
binding. -/
def declareOrKeep (s : ScopeStack) (id : Ident) (binding : Binding) : ScopeStack :=
  match s.declare id binding with
  | .ok s' => s'
  | .error _ => s

def declareEach (s : ScopeStack) : List (Ident × Binding) → ScopeStack
  | [] => s
  | (id, binding) :: rest => (s.declareOrKeep id binding).declareEach rest

/-- The names that cannot be declared one after the other. -/
def duplicates (s : ScopeStack) : List (Ident × Binding) → List LinkError
  | [] => []
  | (id, binding) :: rest =>
      match s.declare id binding with
      | .ok s' => s'.duplicates rest
      | .error e => e :: s.duplicates rest

/-!
# Finding names
-/

def lookup? (s : ScopeStack) (name : String) : Option Binding :=
  s.scopes.findSome? fun scope => scope.bindings.find? name

/-- Looks into the outermost scope only. -/
def lookupOutermost? (s : ScopeStack) (name : String) : Option Binding :=
  s.scopes.getLast?.bind fun scope => scope.bindings.find? name

def resolve (s : ScopeStack) (id : Ident) : Except LinkError Resolution :=
  match s.lookup? id.name with
  | some binding => .ok { binding, useLevel := s.level }
  | none => .error { pos := id.pos, cause := .unknownName id.name }

@[simp]
theorem close?_openWith (s : ScopeStack) (scope : Scope) :
    (s.openWith scope).close? = some (scope, s) :=
  rfl

theorem lookup?_openWith (s : ScopeStack) (scope : Scope) (name : String) :
    (s.openWith scope).lookup? name = (scope.bindings.find? name).or (s.lookup? name) := by
  cases h : scope.bindings.find? name <;> simp [openWith, lookup?, h]

end ScopeStack

end ClassLet
