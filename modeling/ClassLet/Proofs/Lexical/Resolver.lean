import ClassLet.NameMap
import ClassLet.Program

/-!
# Lexical resolution

What the names in a program refer to, told without scopes that are opened and closed and without
counters. The names that are visible at a point are kept region by region, and what is visible is
handed down the tree: the parameters and earlier declarations of each enclosing function or method,
the function itself, all members of the enclosing class, and the earlier declarations at top level
with the enclosing class among them. The innermost region that has a name decides.

A resolution is written down as the list of notes that it leaves in the tree.
-/

namespace ClassLet

/-- The names of a region, each with the place that it is bound to. -/
abbrev Region :=
  List (String × Binding)

/-!
# Members
-/

/-- The members of a class with the inherited ones, in the order in which their names were first
declared. -/
structure Members where
  fields : NameMap Ty
  methods : NameMap Signature

namespace Members

def empty : Members :=
  { fields := NameMap.empty, methods := NameMap.empty }

/-- The members of a class that declares the given ones and inherits the others. -/
def declare (m : Members) (fields : List Field) (methods : List Method) : Members :=
  { fields := fields.foldl (fun known f => known.insert f.id.name f.ty.ty) m.fields
    methods := methods.foldl (fun known m => known.insert m.header.id.name m.header.signature)
      m.methods }

/-- The type of the class with these members. -/
def classType (m : Members) (name : String) : Ty :=
  .layout
    { name, fields := m.fields.entries.map Prod.snd, methods := m.methods.entries.map Prod.snd }

def fieldRegion (m : Members) : Region :=
  m.fields.entries.mapIdx fun i f => (f.1, { level := 1, ty := f.2, offset := -((i : Int) + 1) })

def methodRegion (m : Members) : Region :=
  m.methods.entries.mapIdx fun slot f => (f.1, { level := 1, ty := .method f.2, offset := slot })

def region (m : Members) : Region :=
  m.fieldRegion ++ m.methodRegion

end Members

/-!
# What is visible at a point
-/

structure Lexical where
  /-- The innermost region. -/
  here : Region
  /-- The regions around it, from the inside to the outside. -/
  outer : List Region
  /-- The members of the classes declared before. -/
  classes : List (String × Members)

namespace Lexical

def start : Lexical :=
  { here := [], outer := [], classes := [] }

/-- How many regions of functions, methods and classes are around the point. -/
def depth (lex : Lexical) : Nat :=
  lex.outer.length

def find? (lex : Lexical) (name : String) : Option Binding :=
  (lex.here :: lex.outer).findSome? fun region => region.lookup name

def resolve (lex : Lexical) (id : Ident) : Option Resolution :=
  (lex.find? id.name).map fun binding => { binding, useLevel := lex.depth }

/-- The place of the declaration at a position of a list. -/
def place (lex : Lexical) (i : Nat) (ty : Ty) : Binding :=
  { level := lex.depth, ty, offset := -2 - (i : Int) }

def declare (lex : Lexical) (i : Nat) (name : String) (ty : Ty) : Lexical :=
  { lex with here := (name, lex.place i ty) :: lex.here }

/-!
# Regions inside others
-/

/-- The place of the parameter at a position. -/
def paramPlace (depth j : Nat) (p : Param) : Binding :=
  { level := depth, ty := p.ty.ty, offset := 1 + (j : Int) }

/-- Inside a function or method. -/
def enter (lex : Lexical) (params : List Param) : Lexical :=
  { lex with
    here := params.mapIdx fun j p => (p.id.name, paramPlace (lex.depth + 1) j p)
    outer := lex.here :: lex.outer }

def members (lex : Lexical) (header : ClassHeader) (methods : List Method) : Members :=
  ((header.super.bind fun super => lex.classes.lookup super.name).getD Members.empty).declare
    header.fields methods

def declareClass (lex : Lexical) (i : Nat) (header : ClassHeader) (methods : List Method) :
    Lexical :=
  let members := lex.members header methods
  { lex.declare i header.id.name (members.classType header.id.name) with
    classes := (header.id.name, members) :: lex.classes }

/-- Inside a class, where its methods are. -/
def enterClass (lex : Lexical) (i : Nat) (header : ClassHeader) (methods : List Method) : Lexical :=
  let declared := lex.declareClass i header methods
  { declared with
    here := (lex.members header methods).region
    outer := declared.here :: declared.outer }

/-!
# Behind declarations
-/

def after (lex : Lexical) (i : Nat) : Decl → Lexical
  | .var _ id ty _ _ => lex.declare i id.name ty.ty
  | .function header _ _ => lex.declare i header.id.name (.arrow header.signature)
  | .classDef header methods => lex.declareClass i header methods

/-- Behind declarations of which the first has the given position. -/
def afterAll (lex : Lexical) (i : Nat) : List Decl → Lexical
  | [] => lex
  | d :: ds => (lex.after i d).afterAll (i + 1) ds

end Lexical

/-!
# Notes
-/

/-- What is noted at a use of a name or at a declaration. -/
inductive Note where
  | use (id : Ident) (target : Option Resolution)
  | place (id : Ident) (binding : Option Binding)
deriving DecidableEq

namespace Note

/-- The name, if it is one that refers to nothing. -/
def unresolved? : Note → Option Ident
  | use id none => some id
  | _ => none

end Note

/-!
# The notes in a tree
-/

namespace Expr

mutual

/-- The notes at identifiers, calls and the objects of method calls. -/
def notes : Expr → List Note
  | .int .. => []
  | .bool .. => []
  | .null _ => []
  | .missing _ => []
  | .name id target => [.use id target]
  | .call _ callee args target => .use callee target :: notesAll args
  | .methodCall _ object _ args receiver _ => .use object receiver :: notesAll args
  | .construct _ _ args _ => notesAll args
  | .ifElse _ condition whenTrue whenFalse => condition.notes ++ whenTrue.notes ++ whenFalse.notes
  | .not _ operand => operand.notes
  | .binary _ _ left right => left.notes ++ right.notes
  | .print _ operand => operand.notes

def notesAll : List Expr → List Note
  | [] => []
  | e :: es => e.notes ++ notesAll es

end

end Expr

namespace Header

def notes (h : Header) : List Note :=
  h.params.map fun p => .place p.id p.binding

end Header

mutual

def Decl.notes : Decl → List Note
  | .var _ id _ init binding => init.notes ++ [.place id binding]
  | .function header body binding => .place header.id binding :: (header.notes ++ body.notes)
  | .classDef header methods => .place header.id header.binding :: Method.notesAll methods

def Body.notes : Body → List Note
  | ⟨locals, result⟩ => Decl.notesAll locals ++ result.notes

def Method.notes : Method → List Note
  | ⟨header, body, _⟩ => header.notes ++ body.notes

def Decl.notesAll : List Decl → List Note
  | [] => []
  | d :: ds => d.notes ++ Decl.notesAll ds

def Method.notesAll : List Method → List Note
  | [] => []
  | m :: ms => m.notes ++ Method.notesAll ms

end

/-!
# The notes of lexical resolution
-/

namespace Expr

mutual

def lexicalNotes (lex : Lexical) : Expr → List Note
  | .int .. => []
  | .bool .. => []
  | .null _ => []
  | .missing _ => []
  | .name id _ => [.use id (lex.resolve id)]
  | .call _ callee args _ => .use callee (lex.resolve callee) :: lexicalNotesAll lex args
  | .methodCall _ object _ args _ _ => .use object (lex.resolve object) :: lexicalNotesAll lex args
  | .construct _ _ args _ => lexicalNotesAll lex args
  | .ifElse _ condition whenTrue whenFalse =>
      condition.lexicalNotes lex ++ whenTrue.lexicalNotes lex ++ whenFalse.lexicalNotes lex
  | .not _ operand => operand.lexicalNotes lex
  | .binary _ _ left right => left.lexicalNotes lex ++ right.lexicalNotes lex
  | .print _ operand => operand.lexicalNotes lex

def lexicalNotesAll (lex : Lexical) : List Expr → List Note
  | [] => []
  | e :: es => e.lexicalNotes lex ++ lexicalNotesAll lex es

end

end Expr

namespace Header

/-- The notes at the parameters of a frame of the given depth. -/
def lexicalNotes (h : Header) (depth : Nat) : List Note :=
  h.params.mapIdx fun j p => .place p.id (some (Lexical.paramPlace depth j p))

end Header

mutual

/-- The notes of a declaration at the given position of its list. -/
def Decl.lexicalNotes (lex : Lexical) (i : Nat) : Decl → List Note
  | .var _ id ty init _ => init.lexicalNotes lex ++ [.place id (some (lex.place i ty.ty))]
  | .function header body _ =>
      .place header.id (some (lex.place i (.arrow header.signature))) ::
        (header.lexicalNotes (lex.depth + 1) ++
          body.lexicalNotes
            ((lex.declare i header.id.name (.arrow header.signature)).enter header.params))
  | .classDef header methods =>
      .place header.id
          (some (lex.place i ((lex.members header methods).classType header.id.name))) ::
        Method.lexicalNotesAll (lex.enterClass i header methods) methods

def Body.lexicalNotes (lex : Lexical) : Body → List Note
  | ⟨locals, result⟩ =>
      Decl.lexicalNotesAll lex 0 locals ++ result.lexicalNotes (lex.afterAll 0 locals)

def Method.lexicalNotes (lex : Lexical) : Method → List Note
  | ⟨header, body, _⟩ =>
      header.lexicalNotes (lex.depth + 1) ++ body.lexicalNotes (lex.enter header.params)

/-- The notes of declarations of which the first has the given position. -/
def Decl.lexicalNotesAll (lex : Lexical) (i : Nat) : List Decl → List Note
  | [] => []
  | d :: ds => d.lexicalNotes lex i ++ Decl.lexicalNotesAll (lex.after i d) (i + 1) ds

def Method.lexicalNotesAll (lex : Lexical) : List Method → List Note
  | [] => []
  | m :: ms => m.lexicalNotes lex ++ Method.lexicalNotesAll lex ms

end

namespace Program

def notes (p : Program) : List Note :=
  Decl.notesAll p.decls ++ p.body.notes

def lexicalNotes (p : Program) : List Note :=
  Decl.lexicalNotesAll Lexical.start 0 p.decls ++
    p.body.lexicalNotes (Lexical.start.afterAll 0 p.decls)

end Program

end ClassLet
