import ClassLet.Ty

/-!
# Where names live

A declared name is bound to a place: the nesting level of the region that declares it, its type
and an offset. The offset counts from the base of the declaring frame, upwards for parameters and
downwards for local declarations, and downwards from the object for fields; the offset of a method
is its slot in the dispatch table.
-/

namespace ClassLet

structure Binding where
  level : Nat
  ty : Ty
  offset : Int
deriving DecidableEq, Inhabited

/-- The use of a name at some nesting level, linked to the place of the name. -/
structure Resolution where
  binding : Binding
  useLevel : Nat
deriving DecidableEq, Inhabited

namespace Resolution

/-- How many access links lead from the frame of the use to the frame of the declaration. -/
def distance (r : Resolution) : Nat :=
  r.useLevel - r.binding.level

end Resolution

/-!
# Places in a frame
-/

/-- The offset of the first local declaration of a frame; the others lie below. -/
def Frame.firstLocal : Int := -2

/-- The offset of the first parameter of a frame; the others lie above. -/
def Frame.firstParam : Int := 1

/-- Class members live one level inside the top-level region. -/
def objectLevel : Nat := 1

end ClassLet
