import ClassLet.Proofs.Generation.ExpressionCode
import ClassLet.Typing.Expression

/-!
# Complete trees

Generating code needs every note that linking leaves at a use, and no part of the tree may be
missing. Checking a tree without gaps finds a type or a genuine error.

Main statements: `Expr.generate_complete` and `Expr.type_proper`.
-/

namespace ClassLet

namespace Expr

mutual

/-- Nothing is missing and every use has its notes. -/
def Complete : Expr → Prop
  | .int .. => True
  | .bool .. => True
  | .null _ => True
  | .missing _ => False
  | .name _ target => target.isSome
  | .call _ _ args target => target.isSome ∧ CompleteAll args
  | .methodCall _ _ _ args receiver entry => receiver.isSome ∧ entry.isSome ∧ CompleteAll args
  | .construct _ _ args target => target.isSome ∧ CompleteAll args
  | .ifElse _ condition whenTrue whenFalse =>
      condition.Complete ∧ whenFalse.Complete ∧ whenTrue.Complete
  | .not _ operand => operand.Complete
  | .binary _ _ left right => left.Complete ∧ right.Complete
  | .print _ operand => operand.Complete
termination_by structural e => e

def CompleteAll : List Expr → Prop
  | [] => True
  | e :: es => e.Complete ∧ CompleteAll es
termination_by structural es => es

end

end Expr

/-!
# Generation
-/

/-- The generator succeeds only if the proposition holds. -/
def Gen.Needs {α : Type} (g : Gen α) (holds : Prop) : Prop :=
  ∀ e r, g.run e = .ok r → holds

namespace Gen.Needs

variable {α β : Type} {g : Gen α} {f : α → Gen β} {P Q : Prop}

theorem trivial (g : Gen α) : Needs g True :=
  fun _ _ _ => True.intro

theorem first (h : Needs g P) : Needs (g >>= f) P := by
  intro e r hrun
  rcases Gen.bind_ok hrun with ⟨a, e₁, hg, _⟩
  exact h e _ hg

theorem later (h : ∀ a, Needs (f a) P) : Needs (g >>= f) P := by
  intro e r hrun
  rcases Gen.bind_ok hrun with ⟨a, e₁, _, hf⟩
  exact h a e₁ _ hf

theorem both (h : Needs g P) (h' : ∀ a, Needs (f a) Q) : Needs (g >>= f) (P ∧ Q) :=
  fun e r hrun => ⟨h.first e r hrun, later h' e r hrun⟩

theorem noted (note : Option α) (pos : Position) (cause : CodeFault) :
    Needs (Gen.noted note pos cause) (note.isSome = true) := by
  intro e r hrun
  cases note with
  | none => cases hrun
  | some a => rfl

end Gen.Needs

namespace Expr

open Gen.Needs

mutual

theorem generate_complete (ctx : CodeContext) :
    ∀ e : Expr, (e.generate ctx).Needs e.Complete
  | .int .. => by
      unfold Complete
      exact Gen.Needs.trivial _
  | .bool .. => by
      unfold Complete
      exact Gen.Needs.trivial _
  | .null _ => by
      unfold Complete
      exact Gen.Needs.trivial _
  | .missing pos => by
      unfold generate
      apply later
      intro _ e r hrun
      cases hrun
  | .name id target => by
      unfold generate Complete
      apply later
      intro _
      exact first (noted target _ _)
  | .call pos callee args target => by
      unfold generate Complete
      apply later
      intro _
      apply both (noted target _ _)
      intro _
      apply later
      intro _
      exact first (generateReversed_complete ctx args)
  | .methodCall pos object method args receiver entry => by
      unfold generate Complete
      apply later
      intro _
      apply both (noted receiver _ _)
      intro _
      apply both (noted entry _ _)
      intro _
      apply later
      intro _
      exact first (generateReversed_complete ctx args)
  | .construct pos className args target => by
      unfold generate Complete
      apply later
      intro _
      apply both (noted target _ _)
      intro _
      exact first (generateAll_complete ctx args)
  | .ifElse pos condition whenTrue whenFalse => by
      unfold generate Complete
      apply later
      intro _
      apply later
      intro _
      apply later
      intro _
      apply both (generate_complete ctx condition)
      intro _
      apply later
      intro _
      apply later
      intro _
      apply both (generate_complete ctx whenFalse)
      intro _
      apply later
      intro _
      apply later
      intro _
      exact first (generate_complete ctx whenTrue)
  | .not pos operand => by
      unfold generate Complete
      apply later
      intro _
      exact first (generate_complete ctx operand)
  | .binary pos op left right => by
      unfold generate Complete
      cases op.isLogical with
      | true =>
          rw [if_pos rfl]
          apply later
          intro _
          apply later
          intro _
          apply later
          intro _
          apply both (generate_complete ctx left)
          intro _
          apply later
          intro _
          apply later
          intro _
          exact first (generate_complete ctx right)
      | false =>
          rw [if_neg Bool.false_ne_true]
          apply later
          intro _
          apply both (generate_complete ctx left)
          intro _
          exact first (generate_complete ctx right)
  | .print pos operand => by
      unfold generate Complete
      apply later
      intro _
      exact first (generate_complete ctx operand)
termination_by structural e => e

theorem generateAll_complete (ctx : CodeContext) :
    ∀ es : List Expr, (generateAll ctx es).Needs (CompleteAll es)
  | [] => by
      unfold CompleteAll
      exact Gen.Needs.trivial _
  | e :: es => by
      unfold generateAll CompleteAll
      apply both (generate_complete ctx e)
      intro _
      exact generateAll_complete ctx es
termination_by structural es => es

theorem generateReversed_complete (ctx : CodeContext) :
    ∀ es : List Expr, (generateReversed ctx es).Needs (CompleteAll es)
  | [] => by
      unfold CompleteAll
      exact Gen.Needs.trivial _
  | e :: es => by
      unfold generateReversed CompleteAll
      intro emitter r hrun
      exact ⟨later (fun _ => generate_complete ctx e) emitter r hrun,
        first (generateReversed_complete ctx es) emitter r hrun⟩
termination_by structural es => es

end

end Expr

/-!
# Types
-/

/-- A type or a genuine error. -/
def Typed.Proper {α : Type} (found : Typed α) : Prop :=
  found ≠ .error .incomplete

namespace Typed.Proper

variable {α β : Type} {found : Typed α} {f : α → Typed β}

theorem ok (a : α) : Proper (.ok a : Typed α) :=
  fun h => nomatch h

theorem reject (pos : Position) (cause : TypeFault) : Proper (Typed.reject pos cause : Typed α) :=
  fun h => nomatch h

theorem require (holds : Bool) (pos : Position) (cause : TypeFault) :
    Proper (Typed.require holds pos cause) := by
  unfold Typed.require
  split
  · exact ok ()
  · exact reject pos cause

theorem noted {note : Option α} (h : note.isSome = true) : Proper (Typed.noted note) := by
  cases note with
  | none => cases h
  | some a => exact ok a

theorem bind (h : Proper found) (h' : ∀ a, Proper (f a)) : Proper (found >>= f) := by
  cases found with
  | ok a => exact h' a
  | error failure =>
      intro hfailure
      cases hfailure
      exact h rfl

/-- A check without errors of a tree without gaps succeeds. -/
theorem errorFree (h : Proper found) (hfree : ∀ e, found ≠ .error (.error e)) :
    ∃ a, found = .ok a := by
  cases found with
  | ok a => exact ⟨a, rfl⟩
  | error failure =>
      cases failure with
      | error e => exact absurd rfl (hfree e)
      | incomplete => exact absurd rfl h

end Typed.Proper

theorem Hierarchy.binaryType_proper (h : Hierarchy) (pos : Position) (op : BinaryOp)
    (left right : Ty) : (h.binaryType pos op left right).Proper := by
  cases op <;> exact Typed.Proper.bind (Typed.Proper.require _ _ _) fun _ => Typed.Proper.ok _

namespace Ty

theorem readAs_proper (ty : Ty) (id : Ident) : (ty.readAs id).Proper := by
  cases ty <;> first | exact Typed.Proper.ok _ | exact Typed.Proper.reject _ _

theorem calledAs_proper (ty : Ty) (pos : Position) (name : String) :
    (ty.calledAs pos name).Proper := by
  cases ty <;> first | exact Typed.Proper.ok _ | exact Typed.Proper.reject _ _

theorem constructedAs_proper (ty : Ty) (pos : Position) (name : String) :
    (ty.constructedAs pos name).Proper := by
  cases ty <;> first | exact Typed.Proper.ok _ | exact Typed.Proper.reject _ _

end Ty

namespace Expr

open Typed.Proper

mutual

theorem type_proper (h : Hierarchy) : ∀ e : Expr, e.Complete → (e.type h).Proper
  | .int .., _ => by
      unfold type
      exact Typed.Proper.ok _
  | .bool .., _ => by
      unfold type
      exact Typed.Proper.ok _
  | .null _, _ => by
      unfold type
      exact Typed.Proper.ok _
  | .missing _, hcomplete => by
      unfold Complete at hcomplete
      exact hcomplete.elim
  | .name id target, hcomplete => by
      unfold Complete at hcomplete
      unfold type
      exact bind (noted hcomplete) fun target => target.binding.ty.readAs_proper id
  | .call pos callee args target, hcomplete => by
      unfold Complete at hcomplete
      unfold type
      apply bind (noted hcomplete.1)
      intro target
      apply bind (target.binding.ty.calledAs_proper pos callee.name)
      intro signature
      apply bind (require _ _ _)
      intro _
      apply bind (checkArgs_proper h _ _ _ args hcomplete.2)
      intro _
      exact Typed.Proper.ok _
  | .methodCall pos object method args receiver entry, hcomplete => by
      unfold Complete at hcomplete
      unfold type
      apply bind (noted hcomplete.2.1)
      intro entry
      apply bind (entry.ty.calledAs_proper pos method.name)
      intro signature
      apply bind (require _ _ _)
      intro _
      apply bind (checkArgs_proper h _ _ _ args hcomplete.2.2)
      intro _
      exact Typed.Proper.ok _
  | .construct pos className args target, hcomplete => by
      unfold Complete at hcomplete
      unfold type
      apply bind (noted hcomplete.1)
      intro target
      apply bind (target.ty.constructedAs_proper pos className.name)
      intro layout
      apply bind (require _ _ _)
      intro _
      apply bind (checkArgs_proper h _ _ _ args hcomplete.2)
      intro _
      exact Typed.Proper.ok _
  | .ifElse pos condition whenTrue whenFalse, hcomplete => by
      unfold Complete at hcomplete
      unfold type
      apply bind (type_proper h condition hcomplete.1)
      intro found
      apply bind (require _ _ _)
      intro _
      apply bind (type_proper h whenTrue hcomplete.2.2)
      intro left
      apply bind (type_proper h whenFalse hcomplete.2.1)
      intro right
      split
      · exact Typed.Proper.ok _
      · exact reject _ _
  | .not pos operand, hcomplete => by
      unfold Complete at hcomplete
      unfold type
      apply bind (type_proper h operand hcomplete)
      intro found
      apply bind (require _ _ _)
      intro _
      exact Typed.Proper.ok _
  | .binary pos op left right, hcomplete => by
      unfold Complete at hcomplete
      unfold type
      apply bind (type_proper h left hcomplete.1)
      intro l
      apply bind (type_proper h right hcomplete.2)
      intro r
      exact h.binaryType_proper pos op l r
  | .print _ operand, hcomplete => by
      unfold Complete at hcomplete
      unfold type
      exact type_proper h operand hcomplete
termination_by structural e => e

theorem checkArgs_proper (h : Hierarchy) (callee : Callee) :
    ∀ (index : Nat) (tys : List Ty) (args : List Expr), CompleteAll args →
      (checkArgs h callee index tys args).Proper
  | index, [], args, _ => by
      unfold checkArgs
      exact Typed.Proper.ok _
  | index, ty :: tys, [], _ => by
      unfold checkArgs
      exact Typed.Proper.ok _
  | index, ty :: tys, arg :: args, hcomplete => by
      unfold CompleteAll at hcomplete
      unfold checkArgs
      apply bind (type_proper h arg hcomplete.1)
      intro found
      apply bind (require _ _ _)
      intro _
      exact checkArgs_proper h callee (index + 1) tys args hcomplete.2
termination_by structural _ _ args => args

end

end Expr

end ClassLet
