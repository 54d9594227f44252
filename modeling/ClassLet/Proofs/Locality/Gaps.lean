import ClassLet.Proofs.Locality.MethodOutlines

/-!
# Leaving out parts of a program

A part of a program that is not there adds no diagnostic: the errors of a program from which
expressions have been taken out, at whatever places, are some of the errors of the whole program,
in the same order. All other nodes are given the notes that they have in the whole program.

Main statement: `Program.diagnostics_without`.
-/

namespace ClassLet

/-!
# Programs with gaps

A part is named by its way from the root, each step being the number of a part among the parts of
the node above. Any set of expressions can be left out, since each has a way of its own.
-/

/-- Where the parts stand that are left out, and the position that is noted for each. -/
def Gaps :=
  List Nat → Option Position

namespace Gaps

/-- The gaps inside a part, seen from there. -/
def inside (gaps : Gaps) (part : Nat) : Gaps :=
  fun way => gaps (part :: way)

/-- The expression, unless it is left out as a whole. -/
def keep (gaps : Gaps) (e : Expr) : Expr :=
  match gaps [] with
  | some pos => .missing pos
  | none => e

end Gaps

namespace Expr

mutual

def without (gaps : Gaps) : Expr → Expr
  | .int pos value => gaps.keep (.int pos value)
  | .bool pos value => gaps.keep (.bool pos value)
  | .null pos => gaps.keep (.null pos)
  | .missing pos => gaps.keep (.missing pos)
  | .name id target => gaps.keep (.name id target)
  | .call pos callee args target => gaps.keep (.call pos callee (withoutAll gaps 0 args) target)
  | .methodCall pos object method args receiver entry =>
      gaps.keep (.methodCall pos object method (withoutAll gaps 0 args) receiver entry)
  | .construct pos className args target =>
      gaps.keep (.construct pos className (withoutAll gaps 0 args) target)
  | .ifElse pos condition whenTrue whenFalse =>
      gaps.keep (.ifElse pos (condition.without (gaps.inside 0)) (whenTrue.without (gaps.inside 1))
        (whenFalse.without (gaps.inside 2)))
  | .not pos operand => gaps.keep (.not pos (operand.without (gaps.inside 0)))
  | .binary pos op left right =>
      gaps.keep (.binary pos op (left.without (gaps.inside 0)) (right.without (gaps.inside 1)))
  | .print pos operand => gaps.keep (.print pos (operand.without (gaps.inside 0)))

def withoutAll (gaps : Gaps) (part : Nat) : List Expr → List Expr
  | [] => []
  | e :: es => e.without (gaps.inside part) :: withoutAll gaps (part + 1) es

end

end Expr

mutual

def Decl.without (gaps : Gaps) : Decl → Decl
  | .var pos id ty init binding => .var pos id ty (init.without gaps) binding
  | .function header body binding => .function header (body.without gaps) binding
  | .classDef header methods => .classDef header (Method.withoutAll gaps 0 methods)

def Body.without (gaps : Gaps) : Body → Body
  | ⟨locals, result⟩ =>
      ⟨Decl.withoutAll (gaps.inside 0) 0 locals, result.without (gaps.inside 1)⟩

def Method.without (gaps : Gaps) : Method → Method
  | ⟨header, body, slot⟩ => ⟨header, body.without gaps, slot⟩

def Decl.withoutAll (gaps : Gaps) (part : Nat) : List Decl → List Decl
  | [] => []
  | d :: ds => d.without (gaps.inside part) :: Decl.withoutAll gaps (part + 1) ds

def Method.withoutAll (gaps : Gaps) (part : Nat) : List Method → List Method
  | [] => []
  | m :: ms => m.without (gaps.inside part) :: Method.withoutAll gaps (part + 1) ms

end

def Program.without (gaps : Gaps) (p : Program) : Program :=
  { p with
    decls := Decl.withoutAll (gaps.inside 0) 0 p.decls
    body := p.body.without (gaps.inside 1) }

theorem Method.withoutAll_sameOutline (gaps : Gaps) (part : Nat) (ms : List Method) :
    List.Forall₂ Method.SameOutline (Method.withoutAll gaps part ms) ms := by
  induction ms generalizing part with
  | nil => exact List.Forall₂.nil
  | cons m ms ih =>
      cases m
      exact List.Forall₂.cons ⟨rfl, rfl⟩ (ih _)

/-!
# Linking
-/

namespace Expr

theorem link_keep (env : Environment) (gaps : Gaps) (e : Expr) :
    (gaps.keep e).link env = gaps.keep (e.link env) := by
  unfold Gaps.keep
  cases gaps [] <;> rfl

mutual

theorem link_without (env : Environment) (gaps : Gaps) :
    ∀ e : Expr, (e.without gaps).link env = (e.link env).without gaps
  | .int .. => link_keep env gaps _
  | .bool .. => link_keep env gaps _
  | .null _ => link_keep env gaps _
  | .missing _ => link_keep env gaps _
  | .name .. => link_keep env gaps _
  | .call pos callee args target => by
      rw [without, link_keep, link, link, without, linkAll_without env gaps 0 args]
  | .methodCall pos object method args receiver entry => by
      rw [without, link_keep, link, link]
      cases env.resolve object <;> simp only [without, linkAll_without env gaps 0 args]
  | .construct pos className args target => by
      rw [without, link_keep, link, link, without, linkAll_without env gaps 0 args]
  | .ifElse pos condition whenTrue whenFalse => by
      rw [without, link_keep, link, link, without, link_without env _ condition,
        link_without env _ whenTrue, link_without env _ whenFalse]
  | .not pos operand => by
      rw [without, link_keep, link, link, without, link_without env _ operand]
  | .binary pos op left right => by
      rw [without, link_keep, link, link, without, link_without env _ left,
        link_without env _ right]
  | .print pos operand => by
      rw [without, link_keep, link, link, without, link_without env _ operand]

theorem linkAll_without (env : Environment) (gaps : Gaps) (part : Nat) :
    ∀ es : List Expr, linkAll env (withoutAll gaps part es) = withoutAll gaps part (linkAll env es)
  | [] => rfl
  | e :: es => by
      rw [withoutAll, linkAll, linkAll, withoutAll, link_without env _ e,
        linkAll_without env gaps (part + 1) es]

end

/-- Nothing is wrong with a gap. -/
theorem linkErrors_keep (env : Environment) (gaps : Gaps) (e : Expr) :
    ((gaps.keep e).linkErrors env).Sublist (e.linkErrors env) := by
  unfold Gaps.keep
  cases gaps [] with
  | some pos => exact List.nil_sublist _
  | none => exact List.Sublist.refl _

mutual

theorem linkErrors_without (env : Environment) (gaps : Gaps) :
    ∀ e : Expr, ((e.without gaps).linkErrors env).Sublist (e.linkErrors env)
  | .int .. => linkErrors_keep env gaps _
  | .bool .. => linkErrors_keep env gaps _
  | .null _ => linkErrors_keep env gaps _
  | .missing _ => linkErrors_keep env gaps _
  | .name .. => linkErrors_keep env gaps _
  | .call pos callee args target => by
      refine (linkErrors_keep env gaps _).trans ?_
      exact (List.Sublist.refl _).append (linkErrorsAll_without env gaps 0 args)
  | .methodCall pos object method args receiver entry => by
      refine (linkErrors_keep env gaps _).trans ?_
      exact (List.Sublist.refl _).append (linkErrorsAll_without env gaps 0 args)
  | .construct pos className args target => by
      refine (linkErrors_keep env gaps _).trans ?_
      exact (List.Sublist.refl _).append (linkErrorsAll_without env gaps 0 args)
  | .ifElse pos condition whenTrue whenFalse => by
      refine (linkErrors_keep env gaps _).trans ?_
      exact ((linkErrors_without env _ condition).append
        (linkErrors_without env _ whenTrue)).append (linkErrors_without env _ whenFalse)
  | .not pos operand =>
      (linkErrors_keep env gaps _).trans (linkErrors_without env _ operand)
  | .binary pos op left right => by
      refine (linkErrors_keep env gaps _).trans ?_
      exact (linkErrors_without env _ left).append (linkErrors_without env _ right)
  | .print pos operand =>
      (linkErrors_keep env gaps _).trans (linkErrors_without env _ operand)

theorem linkErrorsAll_without (env : Environment) (gaps : Gaps) (part : Nat) :
    ∀ es : List Expr,
      (linkErrorsAll env (withoutAll gaps part es)).Sublist (linkErrorsAll env es)
  | [] => List.Sublist.refl _
  | e :: es =>
      (linkErrors_without env _ e).append (linkErrorsAll_without env gaps (part + 1) es)

end

end Expr

namespace Environment

/-- Gaps hide no declaration. -/
theorem after_without (env : Environment) (gaps : Gaps) (d : Decl) :
    env.after (d.without gaps) = env.after d := by
  cases d with
  | var pos id ty init binding => rfl
  | function header body binding => rfl
  | classDef header methods =>
      exact after_class_congr (Method.withoutAll_sameOutline gaps 0 methods) env header

theorem afterAll_without (env : Environment) (gaps : Gaps) (part : Nat) (ds : List Decl) :
    env.afterAll (Decl.withoutAll gaps part ds) = env.afterAll ds := by
  induction ds generalizing env part with
  | nil => rfl
  | cons d ds ih => rw [Decl.withoutAll, afterAll_cons, afterAll_cons, after_without, ih]

end Environment

mutual

theorem Decl.link_without (env : Environment) (gaps : Gaps) :
    ∀ d : Decl, (d.without gaps).link env = (d.link env).without gaps
  | .var pos id ty init binding => by
      rw [Decl.without, Decl.link, Decl.link, Decl.without, Expr.link_without]
  | .function header body binding => by
      rw [Decl.without, Decl.link, Decl.link, Decl.without, Body.link_without _ gaps body]
  | .classDef header methods => by
      have hplan := Environment.plan_congr (Method.withoutAll_sameOutline gaps 0 methods) env header
      rw [Decl.without, Decl.link, Decl.link, hplan]
      split
      · simp only [Decl.without, Method.linkAll_without _ _ gaps 0 methods]
      · rw [Decl.without]

theorem Body.link_without (env : Environment) (gaps : Gaps) :
    ∀ b : Body, (b.without gaps).link env = (b.link env).without gaps
  | ⟨locals, result⟩ => by
      rw [Body.without, Body.link, Body.link, Body.without, env.afterAll_without,
        Decl.linkAll_without env _ 0 locals, Expr.link_without]

theorem Method.link_without (env : Environment) (place : Option Nat) (gaps : Gaps) :
    ∀ m : Method, (m.without gaps).link env place = (m.link env place).without gaps
  | ⟨header, body, slot⟩ => by
      rw [Method.without, Method.link, Method.link, Method.without, Body.link_without _ gaps body]

theorem Decl.linkAll_without (env : Environment) (gaps : Gaps) (part : Nat) :
    ∀ ds : List Decl,
      Decl.linkAll env (Decl.withoutAll gaps part ds) =
        Decl.withoutAll gaps part (Decl.linkAll env ds)
  | [] => rfl
  | d :: ds => by
      rw [Decl.withoutAll, Decl.linkAll, Decl.linkAll, Decl.withoutAll, env.after_without,
        Decl.link_without env _ d, Decl.linkAll_without (env.after d) gaps (part + 1) ds]

theorem Method.linkAll_without (env : Environment) (places : List (Except LinkError Nat))
    (gaps : Gaps) (part : Nat) :
    ∀ ms : List Method,
      Method.linkAll env places (Method.withoutAll gaps part ms) =
        Method.withoutAll gaps part (Method.linkAll env places ms)
  | [] => rfl
  | m :: ms => by
      rw [Method.withoutAll, Method.linkAll, Method.linkAll, Method.withoutAll,
        Method.link_without env _ _ m, Method.linkAll_without env places.tail gaps (part + 1) ms]

end

mutual

theorem Decl.linkErrors_without (env : Environment) (gaps : Gaps) :
    ∀ d : Decl, ((d.without gaps).linkErrors env).Sublist (d.linkErrors env)
  | .var pos id ty init binding => by
      rw [Decl.without, Decl.linkErrors, Decl.linkErrors]
      exact ((Expr.linkErrors_without env gaps init).append_right _).append_right _
  | .function header body binding => by
      rw [Decl.without, Decl.linkErrors, Decl.linkErrors]
      exact (Body.linkErrors_without _ gaps body).append_left _
  | .classDef header methods => by
      have hsame := Method.withoutAll_sameOutline gaps 0 methods
      rw [Decl.without, Decl.linkErrors, Decl.linkErrors, Environment.plan_congr hsame env header,
        ClassHeader.linkErrors_congr hsame header env]
      split
      · exact (Method.linkErrorsAll_without _ gaps 0 methods).append_left _
      · exact List.Sublist.refl _

theorem Body.linkErrors_without (env : Environment) (gaps : Gaps) :
    ∀ b : Body, ((b.without gaps).linkErrors env).Sublist (b.linkErrors env)
  | ⟨locals, result⟩ => by
      rw [Body.without, Body.linkErrors, Body.linkErrors, env.afterAll_without]
      exact (Decl.linkErrorsAll_without env _ 0 locals).append (Expr.linkErrors_without _ _ result)

theorem Method.linkErrors_without (env : Environment) (gaps : Gaps) :
    ∀ m : Method, ((m.without gaps).linkErrors env).Sublist (m.linkErrors env)
  | ⟨header, body, slot⟩ => by
      rw [Method.without, Method.linkErrors, Method.linkErrors]
      exact (Body.linkErrors_without _ gaps body).append_left _

theorem Decl.linkErrorsAll_without (env : Environment) (gaps : Gaps) (part : Nat) :
    ∀ ds : List Decl,
      (Decl.linkErrorsAll env (Decl.withoutAll gaps part ds)).Sublist (Decl.linkErrorsAll env ds)
  | [] => List.Sublist.refl _
  | d :: ds => by
      rw [Decl.withoutAll, Decl.linkErrorsAll, Decl.linkErrorsAll, env.after_without]
      exact (Decl.linkErrors_without env _ d).append
        (Decl.linkErrorsAll_without _ gaps (part + 1) ds)

theorem Method.linkErrorsAll_without (env : Environment) (gaps : Gaps) (part : Nat) :
    ∀ ms : List Method,
      (Method.linkErrorsAll env (Method.withoutAll gaps part ms)).Sublist
        (Method.linkErrorsAll env ms)
  | [] => List.Sublist.refl _
  | m :: ms => by
      rw [Method.withoutAll, Method.linkErrorsAll, Method.linkErrorsAll]
      exact (Method.linkErrors_without env _ m).append
        (Method.linkErrorsAll_without env gaps (part + 1) ms)

end

/-!
# Checking
-/

/-- The first check gives up, or it comes to what the second one comes to. -/
def Typed.Approximates {α : Type} (found' found : Typed α) : Prop :=
  found' = .error .incomplete ∨ found' = found

namespace Typed.Approximates

variable {α β : Type} {found' found : Typed α}

theorem refl (found : Typed α) : found.Approximates found :=
  Or.inr rfl

theorem bind {f' f : α → Typed β} (h : found'.Approximates found)
    (hrest : ∀ x, (f' x).Approximates (f x)) : (found' >>= f').Approximates (found >>= f) := by
  rcases h with rfl | rfl
  · exact Or.inl rfl
  · cases found' with
    | error failure => exact Or.inr rfl
    | ok x => exact hrest x

/-- What comes behind is the same in both. -/
theorem before {f : α → Typed β} (h : found'.Approximates found) :
    (found' >>= f).Approximates (found >>= f) :=
  h.bind fun x => refl (f x)

/-- What comes before is the same in both. -/
theorem after {f' f : α → Typed β} (found : Typed α) (hrest : ∀ x, (f' x).Approximates (f x)) :
    (found >>= f').Approximates (found >>= f) :=
  (refl found).bind hrest

end Typed.Approximates

namespace Expr

open Typed.Approximates

theorem type_keep (h : Hierarchy) (gaps : Gaps) {e : Expr} {found : Typed Ty}
    (he : (e.type h).Approximates found) : ((gaps.keep e).type h).Approximates found := by
  unfold Gaps.keep
  cases gaps [] with
  | some pos => exact Or.inl rfl
  | none => exact he

theorem length_withoutAll (gaps : Gaps) (part : Nat) (es : List Expr) :
    (withoutAll gaps part es).length = es.length := by
  induction es generalizing part with
  | nil => rfl
  | cons e es ih => rw [withoutAll, List.length_cons, List.length_cons, ih]

/-- Where errors are reported by the position of a part, the part is there. -/
theorem pos_without (h : Hierarchy) (gaps : Gaps) (e : Expr) :
    (e.without gaps).type h = .error .incomplete ∨ (e.without gaps).pos = e.pos := by
  have hkeep : ∀ e' : Expr,
      (gaps.keep e').type h = .error .incomplete ∨ (gaps.keep e').pos = e'.pos := by
    intro e'
    unfold Gaps.keep
    cases gaps [] with
    | some pos => exact Or.inl rfl
    | none => exact Or.inr rfl
  cases e <;> exact hkeep _

mutual

theorem type_without (h : Hierarchy) (gaps : Gaps) :
    ∀ e : Expr, ((e.without gaps).type h).Approximates (e.type h)
  | .int .. => type_keep h gaps (refl _)
  | .bool .. => type_keep h gaps (refl _)
  | .null _ => type_keep h gaps (refl _)
  | .missing _ => type_keep h gaps (refl _)
  | .name .. => type_keep h gaps (refl _)
  | .call pos callee args target => by
      refine type_keep h gaps ?_
      unfold type Typed.requireCount
      rw [length_withoutAll]
      exact after _ fun _ => after _ fun _ => after _ fun _ =>
        (checkArgs_without h gaps _ _ _ 0 args).before
  | .methodCall pos object method args receiver entry => by
      refine type_keep h gaps ?_
      unfold type Typed.requireCount
      rw [length_withoutAll]
      exact after _ fun _ => after _ fun _ => after _ fun _ =>
        (checkArgs_without h gaps _ _ _ 0 args).before
  | .construct pos className args target => by
      refine type_keep h gaps ?_
      unfold type Typed.requireCount
      rw [length_withoutAll]
      exact after _ fun _ => after _ fun _ => after _ fun _ =>
        (checkArgs_without h gaps _ _ _ 0 args).before
  | .ifElse pos condition whenTrue whenFalse => by
      refine type_keep h gaps ?_
      unfold type
      rcases pos_without h (gaps.inside 0) condition with hgap | hpos
      · rw [hgap]
        exact Or.inl rfl
      · rw [hpos]
        exact (type_without h _ condition).bind fun _ => after _ fun _ =>
          (type_without h _ whenTrue).bind fun _ => (type_without h _ whenFalse).before
  | .not pos operand => by
      refine type_keep h gaps ?_
      unfold type
      exact (type_without h _ operand).before
  | .binary pos op left right => by
      refine type_keep h gaps ?_
      unfold type
      exact (type_without h _ left).bind fun _ => (type_without h _ right).before
  | .print pos operand => by
      refine type_keep h gaps ?_
      unfold type
      exact type_without h _ operand
termination_by structural e => e

theorem checkArgs_without (h : Hierarchy) (gaps : Gaps) (callee : Callee) (index : Nat)
    (tys : List Ty) (part : Nat) :
    ∀ args : List Expr, (checkArgs h callee index tys (withoutAll gaps part args)).Approximates
      (checkArgs h callee index tys args)
  | [] => refl _
  | arg :: args => by
      cases tys with
      | nil => exact refl _
      | cons ty tys =>
          unfold withoutAll checkArgs
          rcases pos_without h (gaps.inside part) arg with hgap | hpos
          · rw [hgap]
            exact Or.inl rfl
          · rw [hpos]
            exact (type_without h _ arg).bind fun _ => after _ fun _ =>
              checkArgs_without h gaps callee (index + 1) tys (part + 1) args
termination_by structural args => args

end

end Expr

/-!
# Failures of declarations
-/

mutual

theorem Decl.edges_without (gaps : Gaps) : ∀ d : Decl, (d.without gaps).edges = d.edges
  | .var .. => rfl
  | .function header body binding => by
      rw [Decl.without, Decl.edges, Decl.edges, Body.edges_without gaps body]
  | .classDef header methods => by
      rw [Decl.without, Decl.edges, Decl.edges, Method.edgesAll_without gaps 0 methods]

theorem Body.edges_without (gaps : Gaps) : ∀ b : Body, (b.without gaps).edges = b.edges
  | ⟨locals, result⟩ => by
      rw [Body.without, Body.edges, Body.edges, Decl.edgesAll_without _ 0 locals]

theorem Method.edges_without (gaps : Gaps) : ∀ m : Method, (m.without gaps).edges = m.edges
  | ⟨header, body, slot⟩ => by
      rw [Method.without, Method.edges, Method.edges, Body.edges_without gaps body]

theorem Decl.edgesAll_without (gaps : Gaps) (part : Nat) :
    ∀ ds : List Decl, Decl.edgesAll (Decl.withoutAll gaps part ds) = Decl.edgesAll ds
  | [] => rfl
  | d :: ds => by
      rw [Decl.withoutAll, Decl.edgesAll, Decl.edgesAll, Decl.edges_without _ d,
        Decl.edgesAll_without gaps (part + 1) ds]

theorem Method.edgesAll_without (gaps : Gaps) (part : Nat) :
    ∀ ms : List Method, Method.edgesAll (Method.withoutAll gaps part ms) = Method.edgesAll ms
  | [] => rfl
  | m :: ms => by
      rw [Method.withoutAll, Method.edgesAll, Method.edgesAll, Method.edges_without _ m,
        Method.edgesAll_without gaps (part + 1) ms]

end

/-- The errors among the first failures are some of those among the second ones, in order. -/
def FewerErrors (xs ys : List TypingFailure) : Prop :=
  (xs.filterMap TypingFailure.error?).Sublist (ys.filterMap TypingFailure.error?)

namespace FewerErrors

theorem refl (xs : List TypingFailure) : FewerErrors xs xs :=
  List.Sublist.refl _

theorem append {xs xs' ys ys' : List TypingFailure} (h : FewerErrors xs ys)
    (h' : FewerErrors xs' ys') : FewerErrors (xs ++ xs') (ys ++ ys') := by
  unfold FewerErrors
  rw [List.filterMap_append, List.filterMap_append]
  exact List.Sublist.append h h'

theorem of_approximates {α : Type} {found' found : Typed α} (h : found'.Approximates found) :
    FewerErrors (failureOf found') (failureOf found) := by
  rcases h with rfl | rfl
  · exact List.nil_sublist _
  · exact refl _

end FewerErrors

mutual

theorem Decl.typingFailures_without (h : Hierarchy) (gaps : Gaps) :
    ∀ d : Decl, FewerErrors ((d.without gaps).typingFailures h) (d.typingFailures h)
  | .var pos id ty init binding => by
      rw [Decl.without, Decl.typingFailures, Decl.typingFailures]
      exact FewerErrors.of_approximates (init.type_without h gaps).before
  | .function header body binding => by
      rw [Decl.without, Decl.typingFailures, Decl.typingFailures]
      exact Body.typingFailures_without h header gaps body
  | .classDef header methods => by
      rw [Decl.without, Decl.typingFailures, Decl.typingFailures, Method.edgesAll_without,
        ClassHeader.overrideFailures_congr (Method.withoutAll_sameOutline gaps 0 methods)]
      exact (Method.typingFailuresAll_without _ gaps 0 methods).append (FewerErrors.refl _)

theorem Body.typingFailures_without (h : Hierarchy) (header : Header) (gaps : Gaps) :
    ∀ b : Body, FewerErrors ((b.without gaps).typingFailures h header) (b.typingFailures h header)
  | ⟨locals, result⟩ => by
      rw [Body.without, Body.typingFailures, Body.typingFailures, Decl.edgesAll_without]
      exact (Decl.typingFailuresAll_without h _ 0 locals).append
        (FewerErrors.of_approximates (result.type_without _ _).before)

theorem Method.typingFailures_without (h : Hierarchy) (gaps : Gaps) :
    ∀ m : Method, FewerErrors ((m.without gaps).typingFailures h) (m.typingFailures h)
  | ⟨header, body, slot⟩ => by
      rw [Method.without, Method.typingFailures, Method.typingFailures]
      exact Body.typingFailures_without h header gaps body

theorem Decl.typingFailuresAll_without (h : Hierarchy) (gaps : Gaps) (part : Nat) :
    ∀ ds : List Decl, FewerErrors (Decl.typingFailuresAll h (Decl.withoutAll gaps part ds))
      (Decl.typingFailuresAll h ds)
  | [] => FewerErrors.refl _
  | d :: ds => by
      rw [Decl.withoutAll, Decl.typingFailuresAll, Decl.typingFailuresAll, Decl.edges_without]
      exact (Decl.typingFailures_without h _ d).append
        (Decl.typingFailuresAll_without _ gaps (part + 1) ds)

theorem Method.typingFailuresAll_without (h : Hierarchy) (gaps : Gaps) (part : Nat) :
    ∀ ms : List Method, FewerErrors (Method.typingFailuresAll h (Method.withoutAll gaps part ms))
      (Method.typingFailuresAll h ms)
  | [] => FewerErrors.refl _
  | m :: ms => by
      rw [Method.withoutAll, Method.typingFailuresAll, Method.typingFailuresAll,
        Method.edges_without]
      exact (Method.typingFailures_without h _ m).append
        (Method.typingFailuresAll_without _ gaps (part + 1) ms)

end

/-!
# Programs
-/

namespace Program

theorem link_without (p : Program) (gaps : Gaps) :
    (p.without gaps).link.program = p.link.program.without gaps := by
  simp only [link, without, Decl.linkAll_without, Expr.link_without, Environment.afterAll_without]

theorem linkErrors_without (p : Program) (gaps : Gaps) :
    (p.without gaps).link.errors.Sublist p.link.errors := by
  simp only [link, without, Environment.afterAll_without]
  exact (Decl.linkErrorsAll_without _ _ 0 p.decls).append (p.body.linkErrors_without _ _)

theorem typing_without (p : Program) (gaps : Gaps) :
    (p.without gaps).typing.errors.Sublist p.typing.errors ∧
      ((p.without gaps).typing.bodyType = none ∨
        (p.without gaps).typing.bodyType = p.typing.bodyType) := by
  have hbody := p.body.type_without (Hierarchy.empty.declareAll (Decl.edgesAll p.decls))
    (gaps.inside 1)
  simp only [typing, without, Decl.edgesAll_without]
  constructor
  · exact (Decl.typingFailuresAll_without _ _ 0 p.decls).append (FewerErrors.of_approximates hbody)
  · rcases hbody with hgap | hsame
    · exact Or.inl (by rw [hgap]; rfl)
    · exact Or.inr (by rw [hsame])

/-- The third part says that the notes of all nodes that are left are the same. -/
theorem diagnostics_without (p : Program) (gaps : Gaps) :
    (p.without gaps).link.errors.Sublist p.link.errors ∧
      (p.without gaps).link.classes = p.link.classes ∧
      (p.without gaps).link.program = p.link.program.without gaps ∧
      (p.without gaps).link.program.typing.errors.Sublist p.link.program.typing.errors ∧
      ((p.without gaps).link.program.typing.bodyType = none ∨
        (p.without gaps).link.program.typing.bodyType = p.link.program.typing.bodyType) := by
  have hclasses : (p.without gaps).link.classes = p.link.classes := by
    simp only [link, without, Environment.afterAll_without]
  have htyping := p.link.program.typing_without gaps
  rw [← link_without] at htyping
  exact ⟨p.linkErrors_without gaps, hclasses, p.link_without gaps, htyping.1, htyping.2⟩

end Program

end ClassLet
