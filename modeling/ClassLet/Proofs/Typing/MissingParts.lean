import ClassLet.Proofs.Linkage.Places
import ClassLet.Proofs.Missing
import ClassLet.Proofs.Typing.TypedExpressions

/-!
# Checking trees with missing parts

After linking without errors all notes are there, so checking gives up without an error only at a
missing part. It looks at all parts of a tree in turn: if it finds no error, it has met a missing
part or there is none.

Main statements: `Program.bodyType_link` and `Program.isIncomplete_link`.
-/

namespace ClassLet

/-- The check succeeds only if no part is missing and gives up only if one is. -/
def Typed.Meets {α : Type} (found : Typed α) (missing : Bool) : Prop :=
  (∀ a, found = .ok a → missing = false) ∧ (found = .error .incomplete → missing = true)

namespace Typed.Meets

variable {α β : Type} {found : Typed α} {f : α → Typed β} {a b : Bool}

theorem ok (x : α) : Meets (.ok x : Typed α) false :=
  ⟨fun _ _ => rfl, fun h => (nomatch h)⟩

theorem incomplete : Meets (.error .incomplete : Typed α) true :=
  ⟨fun _ h => (nomatch h), fun _ => rfl⟩

theorem of_proper (h : found.Proper) : Meets found false :=
  ⟨fun _ _ => rfl, fun hincomplete => absurd hincomplete h⟩

theorem bind (h : Meets found a) (h' : ∀ x, found = .ok x → Meets (f x) b) :
    Meets (found >>= f) (a || b) := by
  cases hfound : found with
  | ok x =>
      have hrest := h' x hfound
      have ha := h.1 x hfound
      subst ha
      exact hrest
  | error failure =>
      constructor
      · intro y hy
        cases hy
      · intro hincomplete
        cases hincomplete
        rw [h.2 hfound]
        rfl

/-- A check that looks at no parts before others that do. -/
theorem after (h : found.Proper) (h' : ∀ x, found = .ok x → Meets (f x) b) :
    Meets (found >>= f) b :=
  bind (of_proper h) h'

/-- A check that looks at no parts behind others that do. -/
theorem before (h : Meets found a) (h' : ∀ x, (f x).Proper) : Meets (found >>= f) a := by
  have hbind := bind h fun x _ => of_proper (h' x)
  rwa [Bool.or_false] at hbind

end Typed.Meets

/-!
# Expressions
-/

namespace Expr

open Typed.Meets

mutual

theorem type_link (h : Hierarchy) {env : Environment} (henv : env.Regular) :
    ∀ e : Expr, e.linkErrors env = [] → ((e.link env).type h).Meets e.hasMissing
  | .int .., _ => ok _
  | .bool .., _ => ok _
  | .null _, _ => ok _
  | .missing _, _ => incomplete
  | .name id target, hok => by
      rcases Environment.resolve_ok hok with ⟨b, _, hresolve⟩
      unfold link type hasMissing
      rw [hresolve]
      exact of_proper (b.ty.readAs_proper id)
  | .call pos callee args target, hok => by
      simp only [linkErrors, List.append_eq_nil_iff] at hok
      rcases Environment.resolve_ok hok.1 with ⟨b, _, hresolve⟩
      unfold link type hasMissing
      rw [hresolve]
      refine after (Typed.Proper.noted rfl) ?_
      intro target hnoted
      cases hnoted
      refine after (b.ty.calledAs_proper pos callee.name) ?_
      intro signature _
      refine after (Typed.Proper.require _ _ _) ?_
      intro _ hcount
      exact before (checkArgs_link h henv _ _ _ args (requireCount_ok hcount) hok.2) fun _ =>
        Typed.Proper.ok _
  | .methodCall pos object method args receiver entry, hok => by
      simp only [linkErrors, List.append_eq_nil_iff] at hok
      unfold link
      cases hresolve : env.resolve object with
      | error e =>
          rw [hresolve] at hok
          cases hok.1
      | ok r =>
          rw [hresolve] at hok
          rcases Environment.methodEntry_ok hok.1 with ⟨_, _, member, _, _, _, _, hentry⟩
          unfold type hasMissing
          rw [hentry]
          refine after (Typed.Proper.noted rfl) ?_
          intro noted hnoted
          cases hnoted
          refine after (member.ty.calledAs_proper pos method.name) ?_
          intro signature _
          refine after (Typed.Proper.require _ _ _) ?_
          intro _ hcount
          exact before (checkArgs_link h henv _ _ _ args (requireCount_ok hcount) hok.2) fun _ =>
            Typed.Proper.ok _
  | .construct pos className args target, hok => by
      simp only [linkErrors, List.append_eq_nil_iff] at hok
      rcases Environment.constructed_ok hok.1 with ⟨table, htable, hconstructed⟩
      rcases henv.bound _ _ htable with ⟨b, hb⟩
      unfold link type hasMissing
      rw [hconstructed, hb]
      refine after (Typed.Proper.noted rfl) ?_
      intro noted hnoted
      cases hnoted
      refine after (b.ty.constructedAs_proper pos className.name) ?_
      intro layout _
      refine after (Typed.Proper.require _ _ _) ?_
      intro _ hcount
      exact before (checkArgs_link h henv _ _ _ args (requireCount_ok hcount) hok.2) fun _ =>
        Typed.Proper.ok _
  | .ifElse pos condition whenTrue whenFalse, hok => by
      simp only [linkErrors, List.append_eq_nil_iff] at hok
      unfold link type hasMissing
      rw [Bool.or_assoc]
      refine bind (type_link h henv condition hok.1.1) ?_
      intro found _
      refine after (Typed.Proper.require _ _ _) ?_
      intro _ _
      refine bind (type_link h henv whenTrue hok.1.2) ?_
      intro left _
      refine before (type_link h henv whenFalse hok.2) ?_
      intro right
      split
      · exact Typed.Proper.ok _
      · exact Typed.Proper.reject _ _
  | .not pos operand, hok => by
      simp only [linkErrors] at hok
      unfold link type hasMissing
      exact before (type_link h henv operand hok) fun _ =>
        (Typed.Proper.require _ _ _).bind fun _ => Typed.Proper.ok _
  | .binary pos op left right, hok => by
      simp only [linkErrors, List.append_eq_nil_iff] at hok
      unfold link type hasMissing
      refine bind (type_link h henv left hok.1) ?_
      intro l _
      exact before (type_link h henv right hok.2) fun r => h.binaryType_proper pos op l r
  | .print _ operand, hok => by
      simp only [linkErrors] at hok
      unfold link type hasMissing
      exact type_link h henv operand hok
termination_by structural e => e

theorem checkArgs_link (h : Hierarchy) {env : Environment} (henv : env.Regular) (callee : Callee) :
    ∀ (index : Nat) (tys : List Ty) (args : List Expr), args.length = tys.length →
      linkErrorsAll env args = [] →
      (checkArgs h callee index tys (linkAll env args)).Meets (hasMissingAll args)
  | index, [], [], _, _ => ok _
  | index, ty :: tys, arg :: args, hlength, hok => by
      simp only [linkErrorsAll, List.append_eq_nil_iff] at hok
      unfold linkAll checkArgs hasMissingAll
      refine bind (type_link h henv arg hok.1) ?_
      intro found _
      refine after (Typed.Proper.require _ _ _) ?_
      intro _ _
      exact checkArgs_link h henv callee (index + 1) tys args (Nat.succ.inj hlength) hok.2
termination_by structural _ _ args => args

end

end Expr

/-!
# Declarations
-/

/-- If the failures are no errors, there is one only where a part is missing. -/
def FailuresMeet (failures : List TypingFailure) (missing : Bool) : Prop :=
  ErrorFree failures → failures.any TypingFailure.isIncomplete = missing

namespace FailuresMeet

variable {xs ys : List TypingFailure} {a b : Bool}

theorem nil : FailuresMeet [] false :=
  fun _ => rfl

theorem append (h : FailuresMeet xs a) (h' : FailuresMeet ys b) :
    FailuresMeet (xs ++ ys) (a || b) := by
  intro hfree
  rw [ErrorFree.append_iff] at hfree
  rw [List.any_append, h hfree.1, h' hfree.2]

theorem before (h : FailuresMeet xs a) (h' : FailuresMeet ys false) :
    FailuresMeet (xs ++ ys) a := by
  have happend := h.append h'
  rwa [Bool.or_false] at happend

theorem flatMap {α : Type} {f : α → List TypingFailure} (h : ∀ x, FailuresMeet (f x) false) :
    ∀ zs : List α, FailuresMeet (zs.flatMap f) false
  | [] => nil
  | z :: zs => (h z).append (flatMap h zs)

theorem of_meets {α : Type} {found : Typed α} (h : found.Meets a) :
    FailuresMeet (failureOf found) a := by
  intro hfree
  cases hfound : found with
  | ok x =>
      rw [h.1 x hfound]
      rfl
  | error failure =>
      cases failure with
      | error e =>
          rw [hfound] at hfree
          exact nomatch hfree _ List.mem_cons_self
      | incomplete =>
          rw [h.2 hfound]
          rfl

end FailuresMeet

/-- Comparing members with inherited ones looks at no expression. -/
theorem ClassHeader.overrideFailures_meet (header : ClassHeader) (h : Hierarchy)
    (methods : List Method) : FailuresMeet (header.overrideFailures h methods) false := by
  unfold ClassHeader.overrideFailures
  split
  · apply FailuresMeet.before
    · refine FailuresMeet.flatMap (fun f => FailuresMeet.of_meets (Typed.Meets.of_proper ?_)) _
      unfold ClassHeader.checkField
      split
      · exact Typed.Proper.ok _
      · exact Typed.Proper.require _ _ _
    · refine FailuresMeet.flatMap (fun m => FailuresMeet.of_meets (Typed.Meets.of_proper ?_)) _
      unfold ClassHeader.checkMethod
      split
      · exact Typed.Proper.require _ _ _
      · exact Typed.Proper.ok _
  · exact FailuresMeet.nil

theorem checkInit_link (h : Hierarchy) {env : Environment} (henv : env.Regular) (pos : Position)
    (id : Ident) (ty : Ty) {init : Expr} (hok : init.linkErrors env = []) :
    (checkInit h pos id ty (init.link env)).Meets init.hasMissing :=
  Typed.Meets.before (init.type_link h henv hok) fun _ => Typed.Proper.require _ _ _

theorem checkResult_link (h : Hierarchy) {env : Environment} (henv : env.Regular)
    (header : Header) {result : Expr} (hok : result.linkErrors env = []) :
    (checkResult h header (result.link env)).Meets result.hasMissing :=
  Typed.Meets.before (result.type_link h henv hok) fun _ => Typed.Proper.require _ _ _

mutual

theorem Decl.typingFailures_meet (h : Hierarchy) {env : Environment} (henv : env.Regular) :
    ∀ d : Decl, d.linkErrors env = [] → FailuresMeet ((d.link env).typingFailures h) d.hasMissing
  | .var pos id ty init binding, hok => by
      simp only [Decl.linkErrors, List.append_eq_nil_iff] at hok
      unfold Decl.link Decl.typingFailures Decl.hasMissing
      exact FailuresMeet.of_meets (checkInit_link h henv pos id ty.ty hok.1.1)
  | .function header body binding, hok => by
      simp only [Decl.linkErrors, List.append_eq_nil_iff] at hok
      unfold Decl.link Decl.typingFailures Decl.hasMissing
      exact Body.typingFailures_meet h ((henv.add hok.1.1.2).enter hok.1.2) _ body hok.2
  | .classDef header methods, hok => by
      by_cases hlevel : env.scopes.level = 0
      · simp only [Decl.linkErrors, hlevel, if_true, List.append_eq_nil_iff] at hok
        simp only [Decl.link, hlevel, if_true]
        unfold Decl.typingFailures Decl.hasMissing
        exact (Method.typingFailuresAll_meet _
          (Environment.Regular.insideClass (henv.atTop hlevel) hok.1) _ methods hok.2).before
          (ClassHeader.overrideFailures_meet _ _ _)
      · simp [Decl.linkErrors, hlevel] at hok

theorem Body.typingFailures_meet (h : Hierarchy) {env : Environment} (henv : env.Regular)
    (header : Header) : ∀ b : Body, b.linkErrors env = [] →
      FailuresMeet ((b.link env).typingFailures h header) b.hasMissing
  | ⟨locals, result⟩, hok => by
      simp only [Body.linkErrors, List.append_eq_nil_iff] at hok
      unfold Body.link Body.typingFailures Body.hasMissing
      exact (Decl.typingFailuresAll_meet h henv locals hok.1).append
        (FailuresMeet.of_meets (checkResult_link _ (henv.afterAll locals hok.1) header hok.2))

theorem Decl.typingFailuresAll_meet (h : Hierarchy) {env : Environment} (henv : env.Regular) :
    ∀ ds : List Decl, Decl.linkErrorsAll env ds = [] →
      FailuresMeet (Decl.typingFailuresAll h (Decl.linkAll env ds)) (Decl.hasMissingAll ds)
  | [], _ => FailuresMeet.nil
  | d :: ds, hok => by
      simp only [Decl.linkErrorsAll, List.append_eq_nil_iff] at hok
      unfold Decl.linkAll Decl.typingFailuresAll Decl.hasMissingAll
      exact (Decl.typingFailures_meet h henv d hok.1).append
        (Decl.typingFailuresAll_meet _ (henv.after hok.1) ds hok.2)

theorem Method.typingFailuresAll_meet (h : Hierarchy) {env : Environment} (henv : env.Regular)
    (places : List (Except LinkError Nat)) :
    ∀ ms : List Method, Method.linkErrorsAll env ms = [] →
      FailuresMeet (Method.typingFailuresAll h (Method.linkAll env places ms))
        (Method.hasMissingAll ms)
  | [], _ => FailuresMeet.nil
  | ⟨header, body, slot⟩ :: ms, hok => by
      simp only [Method.linkErrorsAll, Method.linkErrors, List.append_eq_nil_iff] at hok
      unfold Method.linkAll Method.typingFailuresAll Method.hasMissingAll Method.hasMissing
      unfold Method.link Method.typingFailures
      exact (Body.typingFailures_meet h (henv.enter hok.1.1) _ body hok.1.2).append
        (Method.typingFailuresAll_meet _ henv places.tail ms hok.2)

end

/-!
# Programs
-/

namespace Program

variable {p : Program}

theorem linkErrors_nil (h : p.link.errors = []) :
    Decl.linkErrorsAll Environment.start p.decls = [] ∧
      p.body.linkErrors (Environment.start.afterAll p.decls) = [] := by
  simpa only [link, List.append_eq_nil_iff] using h

/-- The type of the body is found unless a part of it is missing. -/
theorem bodyType_link (hlinks : p.link.errors = []) (htypes : p.link.program.typing.errors = []) :
    p.link.program.typing.bodyType.isSome = !p.body.hasMissing := by
  rcases linkErrors_nil hlinks with ⟨hdecls, hbody⟩
  have hmeets := p.body.type_link (Hierarchy.empty.declareAll (Decl.edgesAll p.link.program.decls))
    (Environment.Regular.start.afterAll p.decls hdecls) hbody
  have hfree := (ErrorFree.append_iff.mp (Typing.errorFree htypes)).2
  change (Except.toOption ((p.body.link _).type _)).isSome = _
  cases hfound : (p.body.link (Environment.start.afterAll p.decls)).type
      (Hierarchy.empty.declareAll (Decl.edgesAll p.link.program.decls)) with
  | ok ty =>
      rw [hmeets.1 ty hfound]
      rfl
  | error failure =>
      cases failure with
      | error e =>
          change ErrorFree (failureOf ((p.body.link _).type _)) at hfree
          rw [hfound] at hfree
          exact nomatch hfree _ List.mem_cons_self
      | incomplete =>
          rw [hmeets.2 hfound]
          rfl

/-- Checking passes over a part exactly if one is missing. -/
theorem isIncomplete_link (hlinks : p.link.errors = [])
    (htypes : p.link.program.typing.errors = []) :
    p.link.program.typing.isIncomplete = p.hasMissing := by
  rcases linkErrors_nil hlinks with ⟨hdecls, hbody⟩
  have hinner := Environment.Regular.start.afterAll p.decls hdecls
  have hmeets := (Decl.typingFailuresAll_meet Hierarchy.empty Environment.Regular.start p.decls
    hdecls).append (FailuresMeet.of_meets (p.body.type_link
      (Hierarchy.empty.declareAll (Decl.edgesAll p.link.program.decls)) hinner hbody))
  exact hmeets (Typing.errorFree htypes)

end Program

end ClassLet
