import ClassLet.Proofs.Lexical.Points
import ClassLet.Proofs.Written

/-!
# Linking resolves names lexically

If linking refuses no declaration, it leaves at every use and at every declaration the note of
lexical resolution, and it reports exactly those names as unknown that refer to nothing.

Main statement: `Program.link_lexical`.
-/

namespace ClassLet

/-- The notes are the expected ones, and the errors report the unresolved names among them. -/
structure Agrees (found expected : List Note) (errors : List LinkError) : Prop where
  notes : found = expected
  unresolved : errors.filterMap LinkError.unresolved? = expected.filterMap Note.unresolved?

namespace Agrees

variable {found found' expected expected' : List Note} {errors errors' : List LinkError}

theorem silent (h : errors.filterMap LinkError.unresolved? = []) : Agrees [] [] errors :=
  ⟨rfl, h⟩

theorem nil : Agrees [] [] [] :=
  silent rfl

theorem append (h : Agrees found expected errors) (h' : Agrees found' expected' errors') :
    Agrees (found ++ found') (expected ++ expected') (errors ++ errors') where
  notes := by rw [h.notes, h'.notes]
  unresolved := by
    rw [List.filterMap_append, List.filterMap_append, h.unresolved, h'.unresolved]

/-- Errors that are none of names, in front of others. -/
theorem behind (h : errors.filterMap LinkError.unresolved? = [])
    (h' : Agrees found expected errors') : Agrees found expected (errors ++ errors') :=
  (silent h).append h'

/-- Errors that are none of names, behind others. -/
theorem before (h : Agrees found expected errors)
    (h' : errors'.filterMap LinkError.unresolved? = []) :
    Agrees found expected (errors ++ errors') := by
  have hboth := h.append (silent h')
  rwa [List.append_nil, List.append_nil] at hboth

/-- Notes at declarations are never unresolved. -/
theorem places (h : found = expected) (hplaces : ∀ note ∈ expected, note.unresolved? = none) :
    Agrees found expected [] where
  notes := h
  unresolved := (List.filterMap_eq_nil_iff.mpr hplaces).symm

theorem place (id : Ident) {b b' : Option Binding} (h : b = b') :
    Agrees [.place id b] [.place id b'] [] := by
  subst h
  exact ⟨rfl, rfl⟩

end Agrees

/-!
# Expressions
-/

namespace Expr

variable {lex : Lexical} {i : Nat} {env : Environment}

theorem use_agrees (h : lex.Matches i env) (id : Ident) :
    Agrees [.use id (env.resolve id).toOption] [.use id (lex.resolve id)]
      (errorOf (env.resolve id)) where
  notes := by rw [(h.resolve id).1]
  unresolved := (h.resolve id).2

/-- The receiver of a method call is looked up before the method. -/
theorem receiver_agrees (h : lex.Matches i env) (object method : Ident) :
    Agrees [.use object (env.resolve object).toOption] [.use object (lex.resolve object)]
      (errorOf (env.resolve object >>= fun receiver =>
        env.methodEntry object method receiver.binding.ty)) := by
  have huse := use_agrees h object
  refine ⟨huse.notes, huse.unresolved ▸ ?_⟩
  cases env.resolve object with
  | error e => rfl
  | ok receiver =>
      show (errorOf (env.methodEntry object method receiver.binding.ty)).filterMap _ = []
      unfold Environment.methodEntry
      split
      · rfl
      · split <;> rfl

mutual

theorem agrees (h : lex.Matches i env) :
    ∀ e : Expr, Agrees (e.link env).notes (e.lexicalNotes lex) (e.linkErrors env)
  | .int .. => Agrees.nil
  | .bool .. => Agrees.nil
  | .null _ => Agrees.nil
  | .missing _ => Agrees.nil
  | .name id _ => use_agrees h id
  | .call _ callee args _ => (use_agrees h callee).append (agreesAll h args)
  | .methodCall pos object method args receiver entry => by
      have hboth := (receiver_agrees h object method).append (agreesAll h args)
      unfold link linkErrors lexicalNotes
      cases hresolve : env.resolve object with
      | error e =>
          rw [hresolve] at hboth
          exact hboth
      | ok receiver =>
          rw [hresolve] at hboth
          exact hboth
  | .construct pos className args target => by
      have hsilent :
          (errorOf (env.constructed className)).filterMap LinkError.unresolved? = [] := by
        unfold Environment.constructed
        split <;> rfl
      exact Agrees.behind hsilent (agreesAll h args)
  | .ifElse _ condition whenTrue whenFalse =>
      ((agrees h condition).append (agrees h whenTrue)).append (agrees h whenFalse)
  | .not _ operand => agrees h operand
  | .binary _ _ left right => (agrees h left).append (agrees h right)
  | .print _ operand => agrees h operand
termination_by structural e => e

theorem agreesAll (h : lex.Matches i env) :
    ∀ es : List Expr,
      Agrees (notesAll (linkAll env es)) (lexicalNotesAll lex es) (linkErrorsAll env es)
  | [] => Agrees.nil
  | e :: es => (agrees h e).append (agreesAll h es)
termination_by structural es => es

end

end Expr

/-!
# Declarations
-/

/-- The places of parameters are counted from the base of the frame upwards. -/
theorem Header.notes_link (header : Header) (depth : Nat) :
    (header.link depth).notes = header.lexicalNotes depth := by
  apply List.ext_getElem
  · simp [notes, link, lexicalNotes, Environment.paramPlaces]
  · intro j _ _
    simp only [notes, link, lexicalNotes, Environment.paramPlaces, List.getElem_map,
      List.getElem_zip, List.getElem_mapIdx]
    rfl

theorem Header.agrees {lex : Lexical} {i : Nat} {env : Environment} (h : lex.Matches i env)
    (header : Header) :
    Agrees (header.link env.frameLevel).notes (header.lexicalNotes (lex.depth + 1)) [] := by
  rw [h.frameLevel]
  refine Agrees.places (header.notes_link _) ?_
  intro note hnote
  rcases List.mem_mapIdx.mp hnote with ⟨j, hj, rfl⟩
  rfl

theorem paramErrors_nil {env : Environment} {params : List Param}
    (h : UsesOnly (env.paramErrors params)) : env.paramErrors params = [] :=
  h.eq_nil ScopeStack.duplicates_refused

theorem addErrors_nil {env : Environment} {id : Ident} {ty : Ty}
    (h : UsesOnly (env.addErrors id ty)) : env.addErrors id ty = [] :=
  errorOf_eq_nil_iff.mpr (h.ok fun _ => ScopeStack.declare_refused)

theorem Lexical.Matches.after {lex : Lexical} {i : Nat} {env : Environment} (h : lex.Matches i env)
    {d : Decl} (huses : UsesOnly (d.linkErrors env)) :
    (lex.after i d).Matches (i + 1) (env.after d) := by
  cases d with
  | var pos id ty init binding =>
      simp only [Decl.linkErrors, UsesOnly.append_iff] at huses
      exact h.add (addErrors_nil huses.2)
  | function header body binding =>
      simp only [Decl.linkErrors, UsesOnly.append_iff] at huses
      exact h.add (addErrors_nil huses.1.1.2)
  | classDef header methods =>
      by_cases hlevel : env.scopes.level = 0
      · simp only [Decl.linkErrors, hlevel, if_true, UsesOnly.append_iff] at huses
        simp only [Environment.after, hlevel, if_true]
        exact h.addClass (ClassAccepted.of_usesOnly huses.1).1
      · simp only [Decl.linkErrors, hlevel, if_false] at huses
        exact absurd (huses _ List.mem_cons_self) Bool.false_ne_true

theorem Lexical.Matches.afterAll {lex : Lexical} {i : Nat} {env : Environment}
    (h : lex.Matches i env) (ds : List Decl) (huses : UsesOnly (Decl.linkErrorsAll env ds)) :
    ∃ j, (lex.afterAll i ds).Matches j (env.afterAll ds) := by
  induction ds generalizing lex i env with
  | nil => exact ⟨i, h⟩
  | cons d ds ih =>
      simp only [Decl.linkErrorsAll, UsesOnly.append_iff] at huses
      exact ih (h.after huses.1) huses.2

mutual

theorem Decl.agrees {lex : Lexical} {i : Nat} {env : Environment} (h : lex.Matches i env) :
    ∀ d : Decl, UsesOnly (d.linkErrors env) →
      Agrees (d.link env).notes (d.lexicalNotes lex i) (d.linkErrors env)
  | .var pos id ty init binding, huses => by
      simp only [Decl.linkErrors, UsesOnly.append_iff] at huses
      unfold Decl.linkErrors
      rw [addErrors_nil huses.2]
      exact ((init.agrees h).before (env.typeErrors_unresolved ty)).append
        (Agrees.place id (congrArg some (h.place ty.ty)))
  | .function header body binding, huses => by
      simp only [Decl.linkErrors, UsesOnly.append_iff] at huses
      have hname := addErrors_nil huses.1.1.2
      have hparams := paramErrors_nil huses.1.2
      have hinner := h.add hname
      have hbody := Body.agrees (hinner.enter hparams) body huses.2
      simp only [Decl.linkErrors, hname, hparams, List.append_nil]
      exact Agrees.behind (env.headerErrors_unresolved header)
        ((Agrees.place header.id (congrArg some (h.place (.arrow header.signature)))).append
          ((Header.agrees hinner header).append hbody))
  | .classDef header methods, huses => by
      by_cases hlevel : env.scopes.level = 0
      · simp only [Decl.linkErrors, hlevel, if_true, UsesOnly.append_iff] at huses
        rcases ClassAccepted.of_usesOnly huses.1 with ⟨haccepted, hsilent⟩
        have hmethods := Method.agreesAll (h.insideClass haccepted)
          (env.plan header methods).methodPlaces methods huses.2
        simp only [Decl.link, Decl.linkErrors, hlevel, if_true]
        exact Agrees.behind hsilent
          ((Agrees.place header.id (congrArg some (h.classPlace haccepted))).append hmethods)
      · simp only [Decl.linkErrors, hlevel, if_false] at huses
        exact absurd (huses _ List.mem_cons_self) Bool.false_ne_true
termination_by structural d => d

theorem Body.agrees {lex : Lexical} {env : Environment} (h : lex.Matches 0 env) :
    ∀ b : Body, UsesOnly (b.linkErrors env) →
      Agrees (b.link env).notes (b.lexicalNotes lex) (b.linkErrors env)
  | ⟨locals, result⟩, huses => by
      simp only [Body.linkErrors, UsesOnly.append_iff] at huses
      rcases h.afterAll locals huses.1 with ⟨j, hafter⟩
      exact (Decl.agreesAll h locals huses.1).append (result.agrees hafter)
termination_by structural b => b

theorem Decl.agreesAll {lex : Lexical} {i : Nat} {env : Environment} (h : lex.Matches i env) :
    ∀ ds : List Decl, UsesOnly (Decl.linkErrorsAll env ds) →
      Agrees (Decl.notesAll (Decl.linkAll env ds)) (Decl.lexicalNotesAll lex i ds)
        (Decl.linkErrorsAll env ds)
  | [], _ => Agrees.nil
  | d :: ds, huses => by
      simp only [Decl.linkErrorsAll, UsesOnly.append_iff] at huses
      exact (Decl.agrees h d huses.1).append (Decl.agreesAll (h.after huses.1) ds huses.2)
termination_by structural ds => ds

theorem Method.agreesAll {lex : Lexical} {i : Nat} {env : Environment} (h : lex.Matches i env)
    (places : List (Except LinkError Nat)) :
    ∀ ms : List Method, UsesOnly (Method.linkErrorsAll env ms) →
      Agrees (Method.notesAll (Method.linkAll env places ms)) (Method.lexicalNotesAll lex ms)
        (Method.linkErrorsAll env ms)
  | [], _ => Agrees.nil
  | ⟨header, body, slot⟩ :: ms, huses => by
      simp only [Method.linkErrorsAll, Method.linkErrors, UsesOnly.append_iff] at huses
      have hparams := paramErrors_nil huses.1.1
      simp only [Method.linkErrorsAll, Method.linkErrors, hparams]
      exact ((Header.agrees h header).append (Body.agrees (h.enter hparams) body huses.1.2)).append
        (Method.agreesAll h places.tail ms huses.2)
termination_by structural ms => ms

end

/-!
# Programs
-/

namespace Program

theorem link_lexical {p : Program} (h : UsesOnly p.link.errors) :
    p.link.program.notes = p.lexicalNotes ∧
      p.link.errors.filterMap LinkError.unresolved? =
        p.lexicalNotes.filterMap Note.unresolved? ∧
      (p.link.errors = [] → ∀ id target, .use id target ∈ p.lexicalNotes → target.isSome) := by
  have huses := UsesOnly.append_iff.mp h
  rcases Lexical.Matches.start.afterAll p.decls huses.1 with ⟨j, hafter⟩
  have hall := (Decl.agreesAll Lexical.Matches.start p.decls huses.1).append (p.body.agrees hafter)
  refine ⟨hall.notes, hall.unresolved, ?_⟩
  intro hok id target huse
  have hnone : p.link.errors.filterMap LinkError.unresolved? = [] := by
    rw [hok]
    rfl
  rw [show p.link.errors.filterMap LinkError.unresolved? =
    p.lexicalNotes.filterMap Note.unresolved? from hall.unresolved] at hnone
  cases target with
  | some r => rfl
  | none =>
      have hunresolved := List.filterMap_eq_nil_iff.mp hnone _ huse
      cases hunresolved

/-- A method reads a field, a parameter and a variable, and a function has one of its own; one name
is unknown. -/
def nesting : Program :=
  let read (name : String) : Expr := .name (Written.ident name) none
  let sum (left right : Expr) : Expr := .binary Written.start .add left right
  { decls := [
      .var Written.start (Written.ident "x") (Written.type .int) (.int Written.start 1) none,
      Written.classOf "Base" none [("f", .int)] [],
      Written.classOf "Leaf" (some "Base") []
        [Written.method "m" [("a", .int)] .int ⟨[], sum (read "f") (sum (read "a") (read "x"))⟩],
      .function (Written.header "g" [] .int)
        ⟨[.function (Written.header "h" [] .int) ⟨[], read "y"⟩ none],
          .call Written.start (Written.ident "h") [] none⟩ none]
    body := read "x"
    pos := Written.start }

theorem link_lexical_nesting :
    UsesOnly nesting.link.errors ∧
      nesting.link.program.notes = nesting.lexicalNotes ∧
      nesting.link.errors.filterMap LinkError.unresolved? = [Written.ident "y"] ∧
      .use (Written.ident "f") (some ⟨⟨1, .int, -1⟩, 2⟩) ∈ nesting.link.program.notes ∧
      .use (Written.ident "x") (some ⟨⟨0, .int, -2⟩, 2⟩) ∈ nesting.link.program.notes ∧
      .use (Written.ident "h") (some ⟨⟨1, .arrow ⟨[], .int⟩, -2⟩, 1⟩) ∈
        nesting.link.program.notes := by
  have huses : UsesOnly nesting.link.errors := by
    unfold UsesOnly
    decide
  rcases link_lexical huses with ⟨hnotes, hunresolved, _⟩
  rw [hnotes, hunresolved]
  exact ⟨huses, rfl, by decide, by decide, by decide, by decide⟩

end Program

end ClassLet
