import ClassLet.Proofs.Linkage.NestedDeclarations
import ClassLet.Proofs.Linkage.Sequences
import ClassLet.Proofs.Locality.MethodOutlines

/-!
# Places of bodies

A program in which the body of one function or method is left open, at any depth. Linking and the
open place can be exchanged: the place is linked without knowing what will stand there, and the body
is linked in an environment that the place determines.

Main statements: `BodyPlace.link_fill` and `BodyPlace.linkErrors_fill`.
-/

namespace ClassLet

/-!
# The owner of a body
-/

/-- A function without its body, or a class in which one method is without its body. -/
inductive BodyOwner where
  | function (header : Header) (binding : Option Binding)
  | method (cls : ClassHeader) (before : List Method) (header : Header) (slot : Option Nat)
      (after : List Method)

/-- The body as linking leaves it. Without an environment it is not visited. -/
def Body.linkAt (b : Body) : Option Environment → Body
  | some env => b.link env
  | none => b

def Body.linkErrorsAt (b : Body) : Option Environment → List LinkError
  | some env => b.linkErrors env
  | none => []

namespace BodyOwner

def withBody : BodyOwner → Body → Decl
  | .function header binding, b => .function header b binding
  | .method cls before header slot after, b => .classDef cls (before ++ ⟨header, b, slot⟩ :: after)

/-- The header that the body stands under. -/
def header : BodyOwner → Header
  | .function header _ => header
  | .method _ _ header _ _ => header

/-- The layout of the class, which does not depend on the bodies of its methods. -/
def plan (env : Environment) (cls : ClassHeader) (before : List Method) (header : Header)
    (slot : Option Nat) (after : List Method) : ClassPlan :=
  env.plan cls (before ++ ⟨header, default, slot⟩ :: after)

/-- The environment of the body. A class that is not at top level is not visited. -/
def environment? (env : Environment) : BodyOwner → Option Environment
  | .function header _ => some ((env.add header.id (.arrow header.signature)).enter header.params)
  | .method cls before header slot after =>
      if env.scopes.level = 0 then
        some ((env.insideClass cls (plan env cls before header slot after)).enter header.params)
      else
        none

def link (env : Environment) : BodyOwner → BodyOwner
  | .function header _ =>
      let ty : Ty := .arrow header.signature
      .function (header.link (env.add header.id ty).frameLevel) (some (env.place ty))
  | .method cls before header slot after =>
      if env.scopes.level = 0 then
        let plan := plan env cls before header slot after
        let inner := env.insideClass cls plan
        let places := plan.methodPlaces.drop before.length
        .method (cls.link env plan) (Method.linkAll inner plan.methodPlaces before)
          (header.link inner.frameLevel) (places.head?.bind Except.toOption <|> slot)
          (Method.linkAll inner places.tail after)
      else
        .method cls before header slot after

/-- The superclass edges that are added before the body is checked. -/
def edges : BodyOwner → List (String × String)
  | .function .. => []
  | .method cls before _ _ _ => cls.edge ++ Method.edgesAll before

theorem sameOutline (before : List Method) (header : Header) (slot : Option Nat)
    (after : List Method) (b b' : Body) :
    List.Forall₂ Method.SameOutline (before ++ ⟨header, b, slot⟩ :: after)
      (before ++ ⟨header, b', slot⟩ :: after) :=
  List.rel_append (Method.sameOutline_refl before)
    (List.Forall₂.cons ⟨rfl, rfl⟩ (Method.sameOutline_refl after))

theorem plan_withBody (env : Environment) (cls : ClassHeader) (before : List Method)
    (header : Header) (slot : Option Nat) (after : List Method) (b : Body) :
    env.plan cls (before ++ ⟨header, b, slot⟩ :: after) = plan env cls before header slot after :=
  Environment.plan_congr (sameOutline before header slot after b default) env cls

theorem after_withBody (env : Environment) (o : BodyOwner) (b b' : Body) :
    env.after (o.withBody b) = env.after (o.withBody b') := by
  cases o with
  | function header binding => rfl
  | method cls before header slot after =>
      exact Environment.after_class_congr (sameOutline before header slot after b b') env cls

theorem missing?_withBody (env : Environment) (o : BodyOwner) (b b' : Body) :
    env.missing? (o.withBody b) = env.missing? (o.withBody b') := by
  cases o with
  | function header binding => rfl
  | method cls before header slot after =>
      exact Environment.missing?_class_congr (sameOutline before header slot after b b') env cls

theorem link_withBody (env : Environment) (o : BodyOwner) (b : Body) :
    (o.withBody b).link env = (o.link env).withBody (b.linkAt (o.environment? env)) := by
  cases o with
  | function header binding => rfl
  | method cls before header slot after =>
      by_cases hlevel : env.scopes.level = 0
      · simp only [withBody, Decl.link, link, environment?, hlevel, if_true, plan_withBody,
          Method.linkAll_append, Method.linkAll, Method.link, Body.linkAt]
      · simp only [withBody, Decl.link, link, environment?, hlevel, if_false, Body.linkAt]

/-- The errors of the body stand between those of the rest of the declaration. -/
theorem linkErrors_withBody (env : Environment) (o : BodyOwner) :
    ∃ pre post, ∀ b,
      (o.withBody b).linkErrors env = pre ++ b.linkErrorsAt (o.environment? env) ++ post := by
  cases o with
  | function header binding =>
      let inner := env.add header.id (.arrow header.signature)
      refine ⟨env.headerErrors header ++ env.addErrors header.id (.arrow header.signature) ++
        inner.paramErrors header.params, [], fun b => ?_⟩
      rw [List.append_nil]
      rfl
  | method cls before header slot after =>
      by_cases hlevel : env.scopes.level = 0
      · let inner := env.insideClass cls (plan env cls before header slot after)
        refine ⟨cls.linkErrors env (before ++ ⟨header, default, slot⟩ :: after) ++
            Method.linkErrorsAll inner before ++ inner.paramErrors header.params,
          Method.linkErrorsAll inner after, fun b => ?_⟩
        have hsame := sameOutline before header slot after b default
        simp only [withBody, Decl.linkErrors, environment?, hlevel, if_true, plan_withBody,
          ClassHeader.linkErrors_congr hsame, Method.linkErrorsAll_append, Method.linkErrorsAll,
          Method.linkErrors, Body.linkErrorsAt, inner, List.append_assoc]
      · refine ⟨[{ pos := cls.id.pos, cause := .nestedClass cls.id.name }], [], fun b => ?_⟩
        simp only [withBody, Decl.linkErrors, environment?, hlevel, if_false, Body.linkErrorsAt,
          List.append_nil]

theorem edges_withBody (o : BodyOwner) {b b' : Body} (h : b.edges = b'.edges) :
    (o.withBody b).edges = (o.withBody b').edges := by
  cases o with
  | function header binding => exact h
  | method cls before header slot after =>
      simp only [withBody, Decl.edges, Method.edgesAll_append, Method.edgesAll, Method.edges, h]

/-- Where there are no errors, the body has been visited. -/
theorem linked_of_linkErrors {env : Environment} {o : BodyOwner} {b : Body}
    (hok : (o.withBody b).linkErrors env = []) :
    ∃ inner, o.environment? env = some inner ∧ inner.Nested ∧ b.linkErrors inner = [] := by
  have hvisited : ∃ inner, o.environment? env = some inner ∧ inner.Nested := by
    cases o with
    | function header binding =>
        exact ⟨_, rfl, Environment.nested_enter (env.add_scopes_ne_nil _ _) header.params⟩
    | method cls before header slot after =>
        by_cases hlevel : env.scopes.level = 0
        · refine ⟨_, if_pos hlevel, ?_⟩
          exact Environment.nested_enter (List.cons_ne_nil _ _) header.params
        · simp [withBody, Decl.linkErrors, hlevel] at hok
  rcases hvisited with ⟨inner, henv, hnested⟩
  rcases o.linkErrors_withBody env with ⟨pre, post, howner⟩
  simp only [howner, henv, List.append_eq_nil_iff] at hok
  exact ⟨inner, henv, hnested, hok.1.2⟩

end BodyOwner

/-!
# The surroundings of a declaration
-/

/-- What stands beside a declaration in a body or in a program. -/
structure Siblings where
  before : List Decl
  after : List Decl
  result : Expr

namespace Siblings

def around (s : Siblings) (d : Decl) : Body :=
  ⟨s.before ++ d :: s.after, s.result⟩

/-- The siblings of a declaration are linked in what it leaves. -/
def link (env : Environment) (s : Siblings) (d : Decl) : Siblings :=
  let inner := (env.afterAll s.before).after d
  { before := Decl.linkAll env s.before
    after := Decl.linkAll inner s.after
    result := s.result.link (inner.afterAll s.after) }

/-- The errors of the siblings behind a declaration. -/
def errorsBehind (env : Environment) (s : Siblings) (d : Decl) : List LinkError :=
  let inner := (env.afterAll s.before).after d
  Decl.linkErrorsAll inner s.after ++ s.result.linkErrors (inner.afterAll s.after)

theorem link_around (env : Environment) (s : Siblings) (d : Decl) :
    (s.around d).link env = (s.link env d).around (d.link (env.afterAll s.before)) := by
  simp only [around, Body.link, link, Decl.linkAll_append, Decl.linkAll,
    Environment.afterAll_append, Environment.afterAll_cons]

theorem linkErrors_around (env : Environment) (s : Siblings) (d : Decl) :
    (s.around d).linkErrors env =
      Decl.linkErrorsAll env s.before ++ d.linkErrors (env.afterAll s.before) ++
        s.errorsBehind env d := by
  simp only [around, Body.linkErrors, errorsBehind, Decl.linkErrorsAll_append, Decl.linkErrorsAll,
    Environment.afterAll_append, Environment.afterAll_cons, List.append_assoc]

theorem edges_around (s : Siblings) (d : Decl) :
    (s.around d).edges = Decl.edgesAll s.before ++ (d.edges ++ Decl.edgesAll s.after) := by
  simp only [around, Body.edges, Decl.edgesAll_append, Decl.edgesAll]

end Siblings

/-!
# Places below a declaration
-/

/-- The way to a body from the declaration at top level that it belongs to. -/
inductive BodyPlace where
  | own (owner : BodyOwner)
  /-- The body belongs to a declaration inside the body of the owner. -/
  | nested (owner : BodyOwner) (siblings : Siblings) (place : BodyPlace)

namespace BodyPlace

def fill : BodyPlace → Body → Decl
  | .own o, b => o.withBody b
  | .nested o s place, b => o.withBody (s.around (place.fill b))

def header : BodyPlace → Header
  | .own o => o.header
  | .nested _ _ place => place.header

def environment? (env : Environment) : BodyPlace → Option Environment
  | .own o => o.environment? env
  | .nested o s place =>
      (o.environment? env).bind fun env => place.environment? (env.afterAll s.before)

def link (env : Environment) : BodyPlace → BodyPlace
  | .own o => .own (o.link env)
  | .nested o s place =>
      match o.environment? env with
      | some inner =>
          .nested (o.link env) (s.link inner (place.fill default))
            (place.link (inner.afterAll s.before))
      | none => .nested (o.link env) s place

def edges : BodyPlace → List (String × String)
  | .own o => o.edges
  | .nested o s place => o.edges ++ Decl.edgesAll s.before ++ place.edges

theorem after_fill (env : Environment) (place : BodyPlace) (b b' : Body) :
    env.after (place.fill b) = env.after (place.fill b') := by
  cases place with
  | own o => exact o.after_withBody env b b'
  | nested o s place => exact o.after_withBody env _ _

theorem missing?_fill (env : Environment) (place : BodyPlace) (b b' : Body) :
    env.missing? (place.fill b) = env.missing? (place.fill b') := by
  cases place with
  | own o => exact o.missing?_withBody env b b'
  | nested o s place => exact o.missing?_withBody env _ _

theorem siblings_link_fill (env : Environment) (s : Siblings) (place : BodyPlace) (b b' : Body) :
    s.link env (place.fill b) = s.link env (place.fill b') := by
  simp only [Siblings.link, place.after_fill (env.afterAll s.before) b b']

theorem errorsBehind_fill (env : Environment) (s : Siblings) (place : BodyPlace) (b b' : Body) :
    s.errorsBehind env (place.fill b) = s.errorsBehind env (place.fill b') := by
  simp only [Siblings.errorsBehind, place.after_fill (env.afterAll s.before) b b']

theorem link_fill (env : Environment) (place : BodyPlace) (b : Body) :
    (place.fill b).link env = (place.link env).fill (b.linkAt (place.environment? env)) := by
  induction place generalizing env with
  | own o => exact o.link_withBody env b
  | nested o s place ih =>
      rw [fill, o.link_withBody, link, environment?]
      cases henv : o.environment? env with
      | none => rfl
      | some inner =>
          have hinner : (s.around (place.fill b)).link inner =
              (s.link inner (place.fill default)).around
                ((place.link (inner.afterAll s.before)).fill
                  (b.linkAt (place.environment? (inner.afterAll s.before)))) := by
            rw [s.link_around, ih, siblings_link_fill inner s place b default]
          exact congrArg _ hinner

/-- The errors of the body stand between those of the rest. -/
theorem linkErrors_fill (env : Environment) (place : BodyPlace) :
    ∃ pre post, ∀ b,
      (place.fill b).linkErrors env = pre ++ b.linkErrorsAt (place.environment? env) ++ post := by
  induction place generalizing env with
  | own o => exact o.linkErrors_withBody env
  | nested o s place ih =>
      rcases o.linkErrors_withBody env with ⟨pre, post, howner⟩
      simp only [fill, howner, environment?]
      cases henv : o.environment? env with
      | none => exact ⟨pre, post, fun _ => rfl⟩
      | some inner =>
          rcases ih (inner.afterAll s.before) with ⟨pre', post', hplace⟩
          refine ⟨pre ++ Decl.linkErrorsAll inner s.before ++ pre',
            post' ++ s.errorsBehind inner (place.fill default) ++ post, fun b => ?_⟩
          simp only [Body.linkErrorsAt, s.linkErrors_around, hplace,
            errorsBehind_fill inner s place b default, Option.bind_some, List.append_assoc]

theorem edges_fill (place : BodyPlace) {b b' : Body} (h : b.edges = b'.edges) :
    (place.fill b).edges = (place.fill b').edges := by
  induction place with
  | own o => exact o.edges_withBody h
  | nested o s place ih =>
      refine o.edges_withBody ?_
      rw [s.edges_around, s.edges_around, ih]

/-- A body without link errors, in a place without link errors, adds no superclass edge. -/
theorem edges_linkAt {env : Environment} (place : BodyPlace) {b : Body}
    (hok : (place.fill b).linkErrors env = []) :
    (b.linkAt (place.environment? env)).edges = [] := by
  induction place generalizing env with
  | own o =>
      rcases BodyOwner.linked_of_linkErrors hok with ⟨inner, henv, hnested, hbody⟩
      rw [environment?, henv]
      exact Body.edges_link inner hnested b hbody
  | nested o s place ih =>
      rcases BodyOwner.linked_of_linkErrors hok with ⟨inner, henv, hnested, hbody⟩
      rw [s.linkErrors_around, List.append_eq_nil_iff, List.append_eq_nil_iff] at hbody
      rw [environment?, henv]
      exact ih hbody.1.2

end BodyPlace

end ClassLet
