import ClassLet.Linkage.ClassPlan
import ClassLet.Linkage.Expression

/-!
# Linked programs

Linking gives every declaration its place and every use the place it refers to. What a
declaration adds to the environment depends on its header alone, so bodies can be linked one by
one: `Environment.after` is the environment behind a declaration, `link` fills in the notes and
`linkErrors` lists the errors, those of the headers of a class before those of its bodies. The same
as one walk over one state is `LinkPass`.
-/

namespace ClassLet

namespace Environment

/-- The environment behind a declaration. A class that is not at top level is not declared. -/
def after (env : Environment) : Decl → Environment
  | .var _ id ty _ _ => env.add id ty.ty
  | .function header _ _ => env.add header.id (.arrow header.signature)
  | .classDef header methods =>
      if env.scopes.level = 0 then env.addClass header (env.plan header methods) else env

def afterAll (env : Environment) (decls : List Decl) : Environment :=
  decls.foldl after env

@[simp]
theorem afterAll_nil (env : Environment) : env.afterAll [] = env :=
  rfl

@[simp]
theorem afterAll_cons (env : Environment) (d : Decl) (ds : List Decl) :
    env.afterAll (d :: ds) = (env.after d).afterAll ds :=
  rfl

end Environment

/-!
# Headers
-/

namespace Header

/-- The header of a frame at the given level, with the places of its parameters filled in. -/
def link (h : Header) (level : Nat) : Header :=
  { h with
    params := (h.params.zip (Environment.paramPlaces level h.params)).map fun (p, place) =>
      { p with binding := some place.2 } }

end Header

namespace Field

def link (f : Field) (place : Except LinkError Int) : Field :=
  { f with offset := place.toOption <|> f.offset }

end Field

namespace ClassHeader

def link (h : ClassHeader) (env : Environment) (plan : ClassPlan) : ClassHeader :=
  { h with
    fields := (h.fields.zip plan.fieldPlaces).map fun (f, place) => f.link place
    binding := some (env.classPlace h plan)
    layout := some (plan.table.layout h.id.name)
    superLayout := env.superLayout? h <|> h.superLayout }

/-- The errors in the header of a class and in the headers of its methods. -/
def linkErrors (h : ClassHeader) (env : Environment) (methods : List Method) : List LinkError :=
  let plan := env.plan h methods
  let inner := env.within h.id.name
  errorOf (env.inherited h) ++
    inner.fieldErrors h.fields plan.fieldPlaces ++
    inner.methodErrors methods plan.methodPlaces ++
    errorOf (env.scopes.takeOffset.declare h.id (env.classPlace h plan))

end ClassHeader

/-!
# Declarations
-/

mutual

def Decl.link (env : Environment) : Decl → Decl
  | .var pos id ty init _ => .var pos id ty (init.link env) (some (env.place ty.ty))
  | .function header body _ =>
      let ty : Ty := .arrow header.signature
      let inner := env.add header.id ty
      .function (header.link inner.frameLevel) (body.link (inner.enter header.params))
        (some (env.place ty))
  | .classDef header methods =>
      if env.scopes.level = 0 then
        let plan := env.plan header methods
        .classDef (header.link env plan)
          (Method.linkAll (env.insideClass header plan) plan.methodPlaces methods)
      else
        .classDef header methods

def Body.link (env : Environment) : Body → Body
  | ⟨locals, result⟩ => ⟨Decl.linkAll env locals, result.link (env.afterAll locals)⟩

def Method.link (env : Environment) (place : Option Nat) : Method → Method
  | ⟨header, body, slot⟩ =>
      ⟨header.link env.frameLevel, body.link (env.enter header.params), place <|> slot⟩

def Decl.linkAll (env : Environment) : List Decl → List Decl
  | [] => []
  | d :: ds => d.link env :: Decl.linkAll (env.after d) ds

/-- Links the bodies of methods that have been given their places. -/
def Method.linkAll (env : Environment) (places : List (Except LinkError Nat)) :
    List Method → List Method
  | [] => []
  | m :: ms =>
      m.link env (places.head?.bind Except.toOption) :: Method.linkAll env places.tail ms

end

mutual

def Decl.linkErrors (env : Environment) : Decl → List LinkError
  | .var _ id ty init _ => init.linkErrors env ++ env.typeErrors ty ++ env.addErrors id ty.ty
  | .function header body _ =>
      let ty : Ty := .arrow header.signature
      let inner := env.add header.id ty
      env.headerErrors header ++ env.addErrors header.id ty ++
        inner.paramErrors header.params ++ body.linkErrors (inner.enter header.params)
  | .classDef header methods =>
      if env.scopes.level = 0 then
        header.linkErrors env methods ++
          Method.linkErrorsAll (env.insideClass header (env.plan header methods)) methods
      else
        [{ pos := header.id.pos, cause := .nestedClass header.id.name }]

def Body.linkErrors (env : Environment) : Body → List LinkError
  | ⟨locals, result⟩ => Decl.linkErrorsAll env locals ++ result.linkErrors (env.afterAll locals)

def Method.linkErrors (env : Environment) : Method → List LinkError
  | ⟨header, body, _⟩ => env.paramErrors header.params ++ body.linkErrors (env.enter header.params)

def Decl.linkErrorsAll (env : Environment) : List Decl → List LinkError
  | [] => []
  | d :: ds => d.linkErrors env ++ Decl.linkErrorsAll (env.after d) ds

def Method.linkErrorsAll (env : Environment) : List Method → List LinkError
  | [] => []
  | m :: ms => m.linkErrors env ++ Method.linkErrorsAll env ms

end

/-!
# Programs
-/

/-- A program with its notes filled in, the errors met on the way and the tables of its
classes. -/
structure Linkage where
  program : Program
  errors : List LinkError
  classes : ClassTables
deriving Inhabited

namespace Linkage

def isSuccess (l : Linkage) : Bool :=
  l.errors.isEmpty

end Linkage

namespace Program

def link (p : Program) : Linkage :=
  let env := Environment.start
  let inner := env.afterAll p.decls
  { program := { p with decls := Decl.linkAll env p.decls, body := p.body.link inner }
    errors := Decl.linkErrorsAll env p.decls ++ p.body.linkErrors inner
    classes := inner.classes }

end Program

end ClassLet
