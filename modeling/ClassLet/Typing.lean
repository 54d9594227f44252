import ClassLet.Storage.Members
import ClassLet.Typing.Expression

/-!
# Checked programs

Every declaration is checked on its own: a failure in one is recorded and the next is checked all
the same. A class adds its superclass to the hierarchy before its methods are checked, also when
it stands inside a body, and whatever follows is checked in the hierarchy so extended; `edges`
lists what a declaration adds and `typingFailures` what is wrong with it.
-/

namespace ClassLet

/-- The failure of a check, as a list of at most one. -/
def failureOf {α : Type} : Typed α → List TypingFailure
  | .ok _ => []
  | .error failure => [failure]

/-!
# Superclass edges
-/

namespace ClassHeader

def edge (h : ClassHeader) : List (String × String) :=
  match h.super with
  | some super => [(h.id.name, super.name)]
  | none => []

end ClassHeader

mutual

/-- The superclass edges that a declaration adds, in the order of adding. -/
def Decl.edges : Decl → List (String × String)
  | .var .. => []
  | .function _ body _ => body.edges
  | .classDef header methods => header.edge ++ Method.edgesAll methods

def Body.edges : Body → List (String × String)
  | ⟨locals, _⟩ => Decl.edgesAll locals

def Method.edges : Method → List (String × String)
  | ⟨_, body, _⟩ => body.edges

def Decl.edgesAll : List Decl → List (String × String)
  | [] => []
  | d :: ds => d.edges ++ Decl.edgesAll ds

def Method.edgesAll : List Method → List (String × String)
  | [] => []
  | m :: ms => m.edges ++ Method.edgesAll ms

end

/-!
# Overrides

A member is compared with what the superclass has in the same place.
-/

namespace ClassHeader

def checkField (h : ClassHeader) (hierarchy : Hierarchy) (parent : ClassLayout) (f : Field) :
    Typed Unit :=
  match (f.offset.bind fieldPosition?).bind fun i => parent.fields[i]? with
  | none => .ok ()
  | some inherited =>
      Typed.require (hierarchy.isSubtype f.ty.ty inherited) f.id.pos
        (.badFieldOverride h.id.name f.id.name)

def checkMethod (h : ClassHeader) (hierarchy : Hierarchy) (own parent : ClassLayout) (m : Method) :
    Typed Unit :=
  match m.slot.bind fun s => own.methods[s]?, m.slot.bind fun s => parent.methods[s]? with
  | some signature, some inherited =>
      Typed.require (hierarchy.isSubtype (.arrow signature) (.arrow inherited)) m.header.pos
        (.badMethodOverride h.id.name m.header.id.name)
  | _, _ => .ok ()

def overrideFailures (h : ClassHeader) (hierarchy : Hierarchy) (methods : List Method) :
    List TypingFailure :=
  match h.layout, h.superLayout with
  | some own, some parent =>
      (h.fields.flatMap fun f => failureOf (h.checkField hierarchy parent f)) ++
        methods.flatMap fun m => failureOf (h.checkMethod hierarchy own parent m)
  | _, _ => []

end ClassHeader

/-!
# Declarations
-/

/-- The result of a body against the declared type. -/
def checkResult (h : Hierarchy) (header : Header) (result : Expr) : Typed Unit := do
  let found ← result.type h
  Typed.require (h.isSubtype found header.result.ty) header.pos
    (.wrongResult header.id.name header.result.ty found)

def checkInit (h : Hierarchy) (pos : Position) (id : Ident) (ty : Ty) (init : Expr) :
    Typed Unit := do
  let found ← init.type h
  Typed.require (h.isSubtype found ty) pos (.wrongValue id.name ty found)

mutual

def Decl.typingFailures (h : Hierarchy) : Decl → List TypingFailure
  | .var pos id ty init _ => failureOf (checkInit h pos id ty.ty init)
  | .function header body _ => body.typingFailures h header
  | .classDef header methods =>
      let h := h.declareAll header.edge
      Method.typingFailuresAll h methods ++
        header.overrideFailures (h.declareAll (Method.edgesAll methods)) methods

def Body.typingFailures (h : Hierarchy) (header : Header) : Body → List TypingFailure
  | ⟨locals, result⟩ =>
      Decl.typingFailuresAll h locals ++
        failureOf (checkResult (h.declareAll (Decl.edgesAll locals)) header result)

def Method.typingFailures (h : Hierarchy) : Method → List TypingFailure
  | ⟨header, body, _⟩ => body.typingFailures h header

def Decl.typingFailuresAll (h : Hierarchy) : List Decl → List TypingFailure
  | [] => []
  | d :: ds => d.typingFailures h ++ Decl.typingFailuresAll (h.declareAll d.edges) ds

def Method.typingFailuresAll (h : Hierarchy) : List Method → List TypingFailure
  | [] => []
  | m :: ms => m.typingFailures h ++ Method.typingFailuresAll (h.declareAll m.edges) ms

end

/-!
# Programs
-/

/-- What checking found out about a program. -/
structure Typing where
  /-- The type of the body, if it has one. -/
  bodyType : Option Ty
  failures : List TypingFailure
  hierarchy : Hierarchy
deriving Inhabited

namespace TypingFailure

def error? : TypingFailure → Option TypeError
  | error e => some e
  | incomplete => none

def isIncomplete : TypingFailure → Bool
  | error _ => false
  | incomplete => true

end TypingFailure

namespace Typing

def errors (t : Typing) : List TypeError :=
  t.failures.filterMap TypingFailure.error?

/-- Whether some part was passed over because the tree is not complete. -/
def isIncomplete (t : Typing) : Bool :=
  t.failures.any TypingFailure.isIncomplete

def isSuccess (t : Typing) : Bool :=
  t.errors.isEmpty && t.bodyType.isSome

end Typing

namespace Program

def typing (p : Program) : Typing :=
  let h := Hierarchy.empty.declareAll (Decl.edgesAll p.decls)
  let result := p.body.type h
  { bodyType := result.toOption
    failures := Decl.typingFailuresAll Hierarchy.empty p.decls ++ failureOf result
    hierarchy := h }

end Program

end ClassLet
