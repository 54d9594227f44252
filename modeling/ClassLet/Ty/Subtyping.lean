import ClassLet.Ty
import ClassLet.Ty.Hierarchy

/-!
# Subtyping

A type is below another one when its values may be used in place of the other's. Arrows are
compared position by position, their results in the same direction and their parameters in the
opposite one; both directions are therefore decided by one recursion.

Main statements: `isSubtype_arrow` states the rule for signatures, and `compare_above` that
comparing upwards is comparing downwards with the types exchanged.
-/

namespace ClassLet

/-- On which side of the comparison the smaller type stands. -/
inductive Direction where
  | below
  | above
deriving DecidableEq, Repr, Inhabited

namespace Direction

def flip : Direction → Direction
  | below => above
  | above => below

@[simp]
theorem flip_flip (d : Direction) : d.flip.flip = d := by
  cases d <;> rfl

end Direction

namespace Hierarchy

/-- Subtyping between types that are no signatures. -/
def isBelow (h : Hierarchy) : Ty → Ty → Bool
  | .bool, .bool => true
  | .bool, .int => true
  | .int, .int => true
  | .null, .null => true
  | .null, .ref _ => true
  | .ref sub, .ref super => (h.ancestors sub).contains super
  | .layout sub, .layout super => sub.name == super.name
  | _, _ => false

mutual

def compare (h : Hierarchy) (d : Direction) : Ty → Ty → Bool
  | .arrow s, .arrow t => h.compareSignatures d s t
  | .method s, .method t => h.compareSignatures d s t
  | s, t =>
      match d with
      | .below => h.isBelow s t
      | .above => h.isBelow t s
termination_by structural t => t

def compareSignatures (h : Hierarchy) (d : Direction) : Signature → Signature → Bool
  | ⟨ps, r⟩, ⟨qs, s⟩ => h.compare d r s && h.compareAll d.flip ps qs
termination_by structural t => t

def compareAll (h : Hierarchy) (d : Direction) : List Ty → List Ty → Bool
  | [], [] => true
  | t :: ts, u :: us => h.compare d t u && h.compareAll d ts us
  | _, _ => false
termination_by structural t => t

end

def isSubtype (h : Hierarchy) (sub super : Ty) : Bool :=
  h.compare .below sub super

/-- The smallest type above both, found on the way from the first one to its root. -/
def commonSupertype? (h : Hierarchy) (a b : Ty) : Option Ty :=
  if h.isSubtype a b then
    some b
  else if h.isSubtype b a then
    some a
  else
    match a with
    | .ref name => ((h.ancestors name).find? fun c => h.isSubtype b (.ref c)).map Ty.ref
    | _ => none

/-!
# The two directions
-/

mutual

theorem compare_flip (h : Hierarchy) (d : Direction) :
    ∀ t u : Ty, h.compare d.flip t u = h.compare d u t
  | .int, u => by cases u <;> cases d <;> simp [compare, Direction.flip]
  | .bool, u => by cases u <;> cases d <;> simp [compare, Direction.flip]
  | .null, u => by cases u <;> cases d <;> simp [compare, Direction.flip]
  | .ref a, u => by cases u <;> cases d <;> simp [compare, Direction.flip]
  | .arrow s, u => by
      cases u with
      | arrow t => simp [compare, compareSignatures_flip h d s t]
      | _ => cases d <;> simp [compare, Direction.flip]
  | .method s, u => by
      cases u with
      | method t => simp [compare, compareSignatures_flip h d s t]
      | _ => cases d <;> simp [compare, Direction.flip]
  | .layout a, u => by cases u <;> cases d <;> simp [compare, Direction.flip]

theorem compareSignatures_flip (h : Hierarchy) (d : Direction) :
    ∀ s t : Signature, h.compareSignatures d.flip s t = h.compareSignatures d t s
  | ⟨ps, r⟩, ⟨qs, s⟩ => by
      rw [compareSignatures, compareSignatures, compare_flip h d r s,
        compareAll_flip h d.flip ps qs]

theorem compareAll_flip (h : Hierarchy) (d : Direction) :
    ∀ ts us : List Ty, h.compareAll d.flip ts us = h.compareAll d us ts
  | [], us => by cases us <;> simp [compareAll]
  | t :: ts, us => by
      cases us with
      | nil => simp [compareAll]
      | cons u us => simp [compareAll, compare_flip h d t u, compareAll_flip h d ts us]

end

theorem compare_above (h : Hierarchy) (t u : Ty) : h.compare .above t u = h.isSubtype u t :=
  compare_flip h .below t u

theorem isSubtype_arrow (h : Hierarchy) (s t : Signature) :
    h.isSubtype (.arrow s) (.arrow t) =
      (h.isSubtype s.result t.result && h.compareAll .below t.params s.params) := by
  cases s
  cases t
  simp [isSubtype, compare, compareSignatures, compareAll_flip h .below]

end Hierarchy

end ClassLet
