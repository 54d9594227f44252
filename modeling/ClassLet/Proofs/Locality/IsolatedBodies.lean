import ClassLet.Proofs.Locality.BodyPlaces
import ClassLet.Proofs.Written

/-!
# Isolated bodies

What stands in the body of a function or method is of no concern to the rest of the program. Two
programs that differ in one body only are given the same notes everywhere else, and their errors
differ by those of the two bodies alone. For the linking pass this is so because it comes out of a
body with the state that it has gone in with, but for the errors (`LinkPass.visitBody_does`).

For checking this needs that linking has found no error: a class inside a body would add to the
hierarchy in which everything behind it is checked.

Main statement: `ProgramPlace.bodies_isolated`.
-/

namespace ClassLet

/-!
# Checking around a body
-/

/-- The failures of the body stand between those of the rest of the declaration. -/
theorem BodyOwner.typingFailures_withBody (h : Hierarchy) (o : BodyOwner) (edges) :
    ∃ pre post, ∀ b : Body, b.edges = edges →
      (o.withBody b).typingFailures h =
        pre ++ b.typingFailures (h.declareAll o.edges) o.header ++ post := by
  cases o with
  | function header binding =>
      refine ⟨[], [], fun b _ => ?_⟩
      rw [List.append_nil]
      rfl
  | method cls before header slot after =>
      let inner := h.declareAll (cls.edge ++ Method.edgesAll before)
      let whole := inner.declareAll (edges ++ Method.edgesAll after)
      refine ⟨Method.typingFailuresAll (h.declareAll cls.edge) before,
        Method.typingFailuresAll (inner.declareAll edges) after ++
          cls.overrideFailures whole (before ++ ⟨header, default, slot⟩ :: after), fun b hb => ?_⟩
      have hsame := BodyOwner.sameOutline before header slot after b default
      simp only [withBody, Decl.typingFailures, Method.typingFailuresAll_append,
        Method.typingFailuresAll, Method.typingFailures, Method.edgesAll_append, Method.edgesAll,
        Method.edges, hb, ClassHeader.overrideFailures_congr hsame, Hierarchy.declareAll_append,
        BodyOwner.edges, BodyOwner.header, inner, whole, List.append_assoc]

namespace Siblings

/-- The failures of the siblings behind a declaration that adds some superclass edges. -/
def failuresBehind (h : Hierarchy) (header : Header) (s : Siblings)
    (edges : List (String × String)) : List TypingFailure :=
  let inner := (h.declareAll (Decl.edgesAll s.before)).declareAll edges
  Decl.typingFailuresAll inner s.after ++
    failureOf (checkResult (inner.declareAll (Decl.edgesAll s.after)) header s.result)

theorem typingFailures_around (h : Hierarchy) (header : Header) (s : Siblings) (d : Decl) :
    (s.around d).typingFailures h header =
      Decl.typingFailuresAll h s.before ++
          d.typingFailures (h.declareAll (Decl.edgesAll s.before)) ++
        s.failuresBehind h header d.edges := by
  simp only [around, Body.typingFailures, failuresBehind, Decl.typingFailuresAll_append,
    Decl.typingFailuresAll, Decl.edgesAll_append, Decl.edgesAll, Hierarchy.declareAll_append,
    List.append_assoc]

end Siblings

theorem BodyPlace.typingFailures_fill (h : Hierarchy) (place : BodyPlace) (b₀ : Body) :
    ∃ pre post, ∀ b : Body, b.edges = b₀.edges →
      (place.fill b).typingFailures h =
        pre ++ b.typingFailures (h.declareAll place.edges) place.header ++ post := by
  induction place generalizing h with
  | own o => exact o.typingFailures_withBody h b₀.edges
  | nested o s place ih =>
      rcases o.typingFailures_withBody h (s.around (place.fill b₀)).edges with ⟨pre, post, howner⟩
      let inner := h.declareAll o.edges
      rcases ih (inner.declareAll (Decl.edgesAll s.before)) with ⟨pre', post', hplace⟩
      refine ⟨pre ++ Decl.typingFailuresAll inner s.before ++ pre',
        post' ++ s.failuresBehind inner o.header (place.fill b₀).edges ++ post, fun b hb => ?_⟩
      have hedges := place.edges_fill hb
      have haround : (s.around (place.fill b)).edges = (s.around (place.fill b₀)).edges := by
        rw [s.edges_around, s.edges_around, hedges]
      rw [fill, howner _ haround, s.typingFailures_around, hplace b hb, hedges]
      simp only [edges, header, Hierarchy.declareAll_append, inner, List.append_assoc]

/-!
# Places in a program
-/

/-- A program in which one body is left open. -/
structure ProgramPlace where
  siblings : Siblings
  place : BodyPlace
  pos : Position

namespace ProgramPlace

def fill (c : ProgramPlace) (b : Body) : Program :=
  let whole := c.siblings.around (c.place.fill b)
  { decls := whole.locals
    body := whole.result
    pos := c.pos }

/-- The environment of the top-level declaration that the body belongs to. -/
def outer (c : ProgramPlace) : Environment :=
  Environment.start.afterAll c.siblings.before

/-- The program with all notes filled in but those of the body. -/
def link (c : ProgramPlace) : ProgramPlace :=
  { siblings := c.siblings.link Environment.start (c.place.fill default)
    place := c.place.link c.outer
    pos := c.pos }

def linkBody (c : ProgramPlace) (b : Body) : Body :=
  b.linkAt (c.place.environment? c.outer)

/-- The errors inside the body. -/
def bodyLinkErrors (c : ProgramPlace) (b : Body) : List LinkError :=
  b.linkErrorsAt (c.place.environment? c.outer)

/-- The failures inside the body, its result included. -/
def bodyFailures (c : ProgramPlace) (b : Body) : List TypingFailure :=
  b.typingFailures
    (Hierarchy.empty.declareAll (Decl.edgesAll c.siblings.before ++ c.place.edges)) c.place.header

def bodyTypeErrors (c : ProgramPlace) (b : Body) : List TypeError :=
  (c.bodyFailures b).filterMap TypingFailure.error?

theorem link_fill (c : ProgramPlace) (b : Body) :
    (c.fill b).link.program = c.link.fill (c.linkBody b) := by
  have haround : (c.siblings.around (c.place.fill b)).link Environment.start =
      c.link.siblings.around (c.link.place.fill (c.linkBody b)) := by
    rw [c.siblings.link_around, BodyPlace.link_fill,
      BodyPlace.siblings_link_fill _ _ c.place b default]
    rfl
  exact congrArg (fun whole : Body => (⟨whole.locals, whole.result, c.pos⟩ : Program)) haround

theorem classes_fill (c : ProgramPlace) (b b' : Body) :
    (c.fill b).link.classes = (c.fill b').link.classes := by
  simp only [Program.link, fill, Siblings.around, Environment.afterAll_append,
    Environment.afterAll_cons, c.place.after_fill _ b b']

theorem linkErrors_fill (c : ProgramPlace) :
    ∃ pre post, ∀ b, (c.fill b).link.errors = pre ++ c.bodyLinkErrors b ++ post := by
  rcases c.place.linkErrors_fill c.outer with ⟨pre, post, hplace⟩
  refine ⟨Decl.linkErrorsAll Environment.start c.siblings.before ++ pre,
    post ++ c.siblings.errorsBehind Environment.start (c.place.fill default), fun b => ?_⟩
  have hprogram : (c.fill b).link.errors =
      (c.siblings.around (c.place.fill b)).linkErrors Environment.start := rfl
  have hbody : (c.place.fill b).linkErrors (Environment.start.afterAll c.siblings.before) =
      pre ++ c.bodyLinkErrors b ++ post := hplace b
  rw [hprogram, c.siblings.linkErrors_around, hbody,
    BodyPlace.errorsBehind_fill _ _ c.place b default]
  simp only [List.append_assoc]

/-- Bodies add no superclass edge once they are linked without errors. -/
theorem edges_linkBody {c : ProgramPlace} {b : Body} (hok : (c.fill b).link.errors = []) :
    (c.linkBody b).edges = [] := by
  have haround : (c.siblings.around (c.place.fill b)).linkErrors Environment.start = [] := hok
  rw [c.siblings.linkErrors_around, List.append_eq_nil_iff, List.append_eq_nil_iff] at haround
  exact c.place.edges_linkAt haround.1.2

theorem typing_fill (c : ProgramPlace) (b₀ : Body) :
    ∃ pre post bodyType, ∀ b : Body, b.edges = b₀.edges →
      (c.fill b).typing.failures = pre ++ c.bodyFailures b ++ post ∧
        (c.fill b).typing.bodyType = bodyType := by
  let before := Hierarchy.empty.declareAll (Decl.edgesAll c.siblings.before)
  let behind := before.declareAll (c.place.fill b₀).edges
  let result := c.siblings.result.type (behind.declareAll (Decl.edgesAll c.siblings.after))
  rcases c.place.typingFailures_fill before b₀ with ⟨pre, post, hplace⟩
  refine ⟨Decl.typingFailuresAll Hierarchy.empty c.siblings.before ++ pre,
    post ++ Decl.typingFailuresAll behind c.siblings.after ++ failureOf result,
    result.toOption, fun b hb => ?_⟩
  have hedges := c.place.edges_fill hb
  have hfailures := hplace b hb
  simp only [Program.typing, fill, Siblings.around, bodyFailures, Decl.typingFailuresAll_append,
    Decl.typingFailuresAll, Decl.edgesAll_append, Decl.edgesAll, Hierarchy.declareAll_append,
    hedges, hfailures, before, behind, result, List.append_assoc, and_self]

theorem missing?_fill (c : ProgramPlace) (b b' : Body) :
    (c.fill b).missing? = (c.fill b').missing? := by
  simp only [Program.missing?, fill, Siblings.around, Environment.missingAll?_append,
    Environment.missingAll?, c.place.missing?_fill _ b b', c.place.after_fill _ b b']

/-- What the pass finds out about a program and its body, if it does not end early. -/
theorem linkPass_fill (c : ProgramPlace) (b b' : Body) :
    (∃ place, (c.fill b).linkPass = .error place ∧ (c.fill b').linkPass = .error place) ∨
      (c.fill b).linkPass = .ok (c.fill b).link ∧ (c.fill b').linkPass = .ok (c.fill b').link := by
  rw [Program.linkPass_eq, Program.linkPass_eq, c.missing?_fill b' b]
  cases (c.fill b).missing? with
  | none => exact Or.inr ⟨rfl, rfl⟩
  | some place => exact Or.inl ⟨place, rfl, rfl⟩

/-- What checking finds in two programs that are linked without errors. -/
theorem typing_isolated (c : ProgramPlace) {b b' : Body} (hok : (c.fill b).link.errors = [])
    (hok' : (c.fill b').link.errors = []) :
    (∃ pre post,
      (c.fill b).link.program.typing.errors =
          pre ++ c.link.bodyTypeErrors (c.linkBody b) ++ post ∧
        (c.fill b').link.program.typing.errors =
          pre ++ c.link.bodyTypeErrors (c.linkBody b') ++ post) ∧
      (c.fill b).link.program.typing.bodyType = (c.fill b').link.program.typing.bodyType := by
  have hedges : (c.linkBody b').edges = (c.linkBody b).edges :=
    (edges_linkBody hok').trans (edges_linkBody hok).symm
  rcases c.link.typing_fill (c.linkBody b) with ⟨pre, post, bodyType, htyping⟩
  rw [c.link_fill, c.link_fill]
  have h := htyping (c.linkBody b) rfl
  have h' := htyping (c.linkBody b') hedges
  refine ⟨⟨pre.filterMap TypingFailure.error?, post.filterMap TypingFailure.error?, ?_, ?_⟩,
    h.2.trans h'.2.symm⟩
  · rw [Typing.errors, h.1, List.filterMap_append, List.filterMap_append, bodyTypeErrors]
  · rw [Typing.errors, h'.1, List.filterMap_append, List.filterMap_append, bodyTypeErrors]

/-- Two programs that differ in one body. The pass ends early on both or on neither. What stands in
`pre` and `post` are the errors of all the rest: of the other declarations, of the overrides and of
the body of the program. -/
theorem bodies_isolated (c : ProgramPlace) (b b' : Body) :
    (∃ place, (c.fill b).linkPass = .error place ∧ (c.fill b').linkPass = .error place) ∨
      ∃ l l', (c.fill b).linkPass = .ok l ∧ (c.fill b').linkPass = .ok l' ∧
        l.program = c.link.fill (c.linkBody b) ∧ l'.program = c.link.fill (c.linkBody b') ∧
        l.classes = l'.classes ∧
        (∃ pre post,
          l.errors = pre ++ c.bodyLinkErrors b ++ post ∧
            l'.errors = pre ++ c.bodyLinkErrors b' ++ post) ∧
        (l.errors = [] → l'.errors = [] →
          (∃ pre post,
            l.program.typing.errors =
                pre ++ c.link.bodyTypeErrors (c.linkBody b) ++ post ∧
              l'.program.typing.errors =
                pre ++ c.link.bodyTypeErrors (c.linkBody b') ++ post) ∧
            l.program.typing.bodyType = l'.program.typing.bodyType) := by
  rcases c.linkPass_fill b b' with hmissing | ⟨hlink, hlink'⟩
  · exact Or.inl hmissing
  rcases c.linkErrors_fill with ⟨pre, post, herrors⟩
  exact Or.inr ⟨_, _, hlink, hlink', c.link_fill b, c.link_fill b', c.classes_fill b b',
    ⟨pre, post, herrors b, herrors b'⟩, c.typing_isolated⟩

/-- The function inside the method `get` has no body yet, and the function before the class does not
return what it promises. -/
def unfinished : ProgramPlace :=
  let call (name : String) : Expr := .call Written.start (Written.ident name) [] none
  let box : ClassHeader :=
    { pos := Written.start
      id := Written.ident "Box"
      super := none
      fields := [{ id := Written.ident "v", ty := Written.type .int, offset := none }]
      binding := none
      layout := none
      superLayout := none }
  let promise : Decl :=
    .function (Written.header "promise" [] .bool) ⟨[], .int Written.start 1⟩ none
  { siblings := { before := [promise], after := [], result := call "promise" }
    place := .nested (.method box [] (Written.header "get" [] .int) none [])
      { before := [], after := [], result := call "help" }
      (.own (.function (Written.header "help" [] .int) none))
    pos := Written.start }

/-- A body that returns the field. -/
def reading : Body :=
  ⟨[], .name (Written.ident "v") none⟩

/-- A body with an error in a declaration and one in its result. -/
def confusing : Body :=
  ⟨[.var Written.start (Written.ident "t") (Written.type .bool)
    (.name (Written.ident "v") none) none], .null Written.start⟩

theorem bodies_isolated_unfinished :
    ∃ l l', (unfinished.fill reading).linkPass = .ok l ∧
      (unfinished.fill confusing).linkPass = .ok l' ∧ l.errors = [] ∧ l'.errors = [] ∧
      unfinished.link.bodyTypeErrors (unfinished.linkBody reading) = [] ∧
      unfinished.link.bodyTypeErrors (unfinished.linkBody confusing) =
        [⟨Written.start, .wrongValue "t" .bool .int⟩,
          ⟨Written.start, .wrongResult "help" .int .null⟩] ∧
      ∃ pre post,
        l.program.typing.errors = pre ++ post ∧
          l'.program.typing.errors =
            pre ++ unfinished.link.bodyTypeErrors (unfinished.linkBody confusing) ++ post := by
  have hreading : (unfinished.fill reading).link.errors = [] := by decide
  have hconfusing : (unfinished.fill confusing).link.errors = [] := by decide
  have hnone : unfinished.link.bodyTypeErrors (unfinished.linkBody reading) = [] := by decide
  have hmissing : (unfinished.fill reading).missing? = none := by decide
  have hlink : (unfinished.fill reading).linkPass = .ok (unfinished.fill reading).link := by
    rw [Program.linkPass_eq, hmissing]
  have hlink' : (unfinished.fill confusing).linkPass = .ok (unfinished.fill confusing).link := by
    rw [Program.linkPass_eq, unfinished.missing?_fill confusing reading, hmissing]
  rcases bodies_isolated unfinished reading confusing with
    ⟨place, hfails, _⟩ | ⟨l, l', h, h', _, _, _, _, htyping⟩
  · cases hlink.symm.trans hfails
  cases hlink.symm.trans h
  cases hlink'.symm.trans h'
  rcases htyping hreading hconfusing with ⟨⟨pre, post, hfirst, hsecond⟩, _⟩
  rw [hnone, List.append_nil] at hfirst
  exact ⟨_, _, hlink, hlink', hreading, hconfusing, hnone, by decide, pre, post, hfirst, hsecond⟩

end ProgramPlace

end ClassLet
