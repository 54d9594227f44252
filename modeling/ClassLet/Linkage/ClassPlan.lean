import ClassLet.Linkage.Environment

/-!
# Laying out a class

The members of a class are entered into a copy of the table of its superclass, first the fields
and then the methods, each in the order of the declaration. A name that the class itself declares
twice, or that is inherited as a member of the other kind, is refused and gets no place; the
other members keep theirs. A plan reports clashes only, so that every class has one; linking with
`LinkPass` ends where the table fails.
-/

namespace ClassLet

/-- A member table under construction, with the names that the class itself has declared. -/
structure MemberScan where
  table : MemberTable
  seen : List String
deriving Inhabited

namespace MemberScan

def startingFrom (table : MemberTable) : MemberScan :=
  { table, seen := [] }

def enter {α : Type} (scan : MemberScan) (className : String) (id : Ident)
    (add : MemberTable → Except MemberFault (α × MemberTable)) :
    MemberScan × Except LinkError α :=
  if scan.seen.contains id.name then
    (scan, .error { pos := id.pos, cause := .memberTwice className id.name })
  else
    match (add scan.table : Except KindClash (α × MemberTable)) with
    | .ok (place, table) => ({ table, seen := id.name :: scan.seen }, .ok place)
    | .error conflict =>
        ({ scan with seen := id.name :: scan.seen },
          .error { pos := id.pos, cause := .ofClash className id.name conflict })

def enterFields (className : String) : MemberScan → List Field →
    MemberScan × List (Except LinkError Int)
  | scan, [] => (scan, [])
  | scan, f :: fs =>
      let (scan, place) := scan.enter className f.id fun table => table.addField f.id.name f.ty.ty
      let (scan, places) := enterFields className scan fs
      (scan, place :: places)

def enterMethods (className : String) : MemberScan → List Method →
    MemberScan × List (Except LinkError Nat)
  | scan, [] => (scan, [])
  | scan, m :: ms =>
      let (scan, place) := scan.enter className m.header.id fun table =>
        table.addMethod m.header.id.name m.header.signature
      let (scan, places) := enterMethods className scan ms
      (scan, place :: places)

end MemberScan

/-- Where the members of a class are placed. -/
structure ClassPlan where
  fieldPlaces : List (Except LinkError Int)
  methodPlaces : List (Except LinkError Nat)
  table : MemberTable
deriving Inhabited

namespace Environment

/-- The table that a class starts from: that of its superclass, or an empty one. -/
def inherited (env : Environment) (header : ClassHeader) : Except LinkError MemberTable :=
  match header.super with
  | none => .ok MemberTable.empty
  | some super =>
      match env.classes.find? super.name with
      | some table => .ok table
      | none => .error { pos := super.pos, cause := .unknownClass super.name }

/-- The layout of the superclass, if it has been declared as a class. -/
def superLayout? (env : Environment) (header : ClassHeader) : Option ClassLayout := do
  let super ← header.super
  let _ ← env.classes.find? super.name
  let binding ← env.scopes.lookupOutermost? super.name
  match binding.ty with
  | .layout members => some members
  | _ => none

def plan (env : Environment) (header : ClassHeader) (methods : List Method) : ClassPlan :=
  let start :=
    match env.inherited header with
    | .ok table => MemberScan.startingFrom table
    | .error _ => MemberScan.startingFrom MemberTable.empty
  let (scan, fieldPlaces) := MemberScan.enterFields header.id.name start header.fields
  let (scan, methodPlaces) := MemberScan.enterMethods header.id.name scan methods
  { fieldPlaces, methodPlaces, table := scan.table }

/-!
# Errors of the members

The types in a header may refer to the class itself.
-/

/-- The environment of the headers of a class. -/
def within (env : Environment) (name : String) : Environment :=
  { env with current := some name }

def fieldErrors (env : Environment) : List Field → List (Except LinkError Int) → List LinkError
  | f :: fs, place :: places =>
      env.typeErrors f.ty ++ errorOf place ++ env.fieldErrors fs places
  | _, _ => []

def methodErrors (env : Environment) : List Method → List (Except LinkError Nat) → List LinkError
  | m :: ms, place :: places =>
      env.headerErrors m.header ++ errorOf place ++ env.methodErrors ms places
  | _, _ => []

/-!
# Declaring the class
-/

def classPlace (env : Environment) (header : ClassHeader) (plan : ClassPlan) : Binding :=
  env.place (.layout (plan.table.layout header.id.name))

/-- The environment after a class. The class gets a table only if its name can be declared. -/
def addClass (env : Environment) (header : ClassHeader) (plan : ClassPlan) : Environment :=
  match env.scopes.takeOffset.declare header.id (env.classPlace header plan) with
  | .ok scopes =>
      { env with scopes, classes := env.classes.insert header.id.name plan.table }
  | .error _ => { env with scopes := env.scopes.takeOffset }

/-- The environment of the bodies of the methods, once the class is declared: the members of the
class form a scope of their own. -/
def insideClass (env : Environment) (header : ClassHeader) (plan : ClassPlan) : Environment :=
  let env := (env.addClass header plan).within header.id.name
  { env with scopes := env.scopes.openWith (Scope.holding plan.table.members) }

end Environment

end ClassLet
