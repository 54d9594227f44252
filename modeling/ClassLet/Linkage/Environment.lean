import ClassLet.Storage.Scope

/-!
# The environment of a place in the program

What can be referred to at a place: the open scopes, the tables of the classes declared so far,
and the class whose declaration is under way, to which types may refer before it has a table.
-/

namespace ClassLet

structure Environment where
  scopes : ScopeStack
  classes : ClassTables
  current : Option String
deriving Inhabited

/-- The error of a failed attempt, as a list of at most one. -/
def errorOf {ε α : Type} : Except ε α → List ε
  | .ok _ => []
  | .error e => [e]

namespace Environment

/-- The environment of the first top-level declaration. -/
def start : Environment :=
  { scopes := ScopeStack.empty.openFresh, classes := NameMap.empty, current := none }

/-!
# Types
-/

def knowsClass (env : Environment) (name : String) : Bool :=
  env.current == some name || env.classes.contains name

def typeErrors (env : Environment) (t : TypeRef) : List LinkError :=
  (t.ty.classRefs.filter fun name => !env.knowsClass name).map fun name =>
    { pos := t.pos, cause := .unknownClass name }

def headerErrors (env : Environment) (h : Header) : List LinkError :=
  (h.params.flatMap fun p => env.typeErrors p.ty) ++ env.typeErrors h.result

/-!
# Declared names
-/

/-- The place of the next declaration. -/
def place (env : Environment) (ty : Ty) : Binding :=
  { level := env.scopes.level, ty, offset := env.scopes.nextOffset }

/-- The environment after a variable or function. The place is taken even if the name cannot be
declared. -/
def add (env : Environment) (id : Ident) (ty : Ty) : Environment :=
  { env with scopes := env.scopes.takeOffset.declareOrKeep id (env.place ty) }

def addErrors (env : Environment) (id : Ident) (ty : Ty) : List LinkError :=
  errorOf (env.scopes.takeOffset.declare id (env.place ty))

/-!
# Frames
-/

def frameLevel (env : Environment) : Nat :=
  env.scopes.openFresh.level

/-- Parameters are stored from the base of the frame upwards. -/
def paramPlaces (level : Nat) (params : List Param) : List (Ident × Binding) :=
  params.mapIdx fun i p => (p.id, { level, ty := p.ty.ty, offset := Frame.firstParam + i })

/-- The environment of the first declaration in the body of a function or method. -/
def enter (env : Environment) (params : List Param) : Environment :=
  { env with scopes := env.scopes.openFresh.declareEach (paramPlaces env.frameLevel params) }

def paramErrors (env : Environment) (params : List Param) : List LinkError :=
  env.scopes.openFresh.duplicates (paramPlaces env.frameLevel params)

/-!
# Uses of names
-/

def resolve (env : Environment) (id : Ident) : Except LinkError Resolution :=
  env.scopes.resolve id

/-- The entry of a method in the class of an object. -/
def methodEntry (env : Environment) (object method : Ident) (ty : Ty) :
    Except LinkError Binding :=
  match ty.className? with
  | none => .error { pos := object.pos, cause := .notAnObject object.name }
  | some name =>
      match (env.classes.find? name).bind fun table => table.method? method.name with
      | some entry => .ok entry
      | none => .error { pos := method.pos, cause := .unknownMethod name method.name }

/-- The place of the dispatch pointer of a class that can be constructed. -/
def constructed (env : Environment) (id : Ident) : Except LinkError (Option Binding) :=
  if env.classes.contains id.name then
    .ok (env.scopes.lookupOutermost? id.name)
  else
    .error { pos := id.pos, cause := .unknownClass id.name }

end Environment

end ClassLet
