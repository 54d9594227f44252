/-!
# Positions in a program text

A position says where a node of a program starts. Every diagnostic carries one and names it as
`line:column`.
-/

namespace ClassLet

structure Position where
  line : Nat
  column : Nat
  length : Nat
deriving DecidableEq, Repr, Inhabited

namespace Position

/-- Covers only the start of a line. -/
def startOf (line : Nat) : Position :=
  { line, column := 1, length := 0 }

def text (p : Position) : String :=
  s!"{p.line}:{p.column}"

end Position

/-!
# Things found at a position
-/

/-- A cause together with the place it was found at. -/
structure Located (cause : Type) where
  pos : Position
  cause : cause
deriving DecidableEq, Repr, Inhabited

namespace Located

def map {α β : Type} (f : α → β) (found : Located α) : Located β :=
  { pos := found.pos, cause := f found.cause }

@[simp]
theorem map_pos {α β : Type} (f : α → β) (found : Located α) :
    (found.map f).pos = found.pos :=
  rfl

@[simp]
theorem map_cause {α β : Type} (f : α → β) (found : Located α) :
    (found.map f).cause = f found.cause :=
  rfl

end Located

end ClassLet
