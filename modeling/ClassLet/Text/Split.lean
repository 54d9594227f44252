import ClassLet.Text.Blank

/-!
# Lines and words

Texts are split at separators into the pieces between them; `n` separators give `n + 1` pieces,
some of which may be empty.

Main statement: `splitAll_append`, the pieces of a text without separators followed by a separator
are that text and the pieces of the rest.
-/

namespace ClassLet

def extendFirst (c : Char) : List (List Char) → List (List Char)
  | [] => [[c]]
  | piece :: pieces => (c :: piece) :: pieces

def splitAll (separates : Char → Bool) (text : List Char) : List (List Char) :=
  text.foldr (fun c pieces => if separates c then [] :: pieces else extendFirst c pieces) [[]]

def splitLines (text : List Char) : List (List Char) :=
  splitAll (· == '\n') text

/-- The non-empty pieces between blanks. -/
def words (text : List Char) : List (List Char) :=
  (splitAll isBlank text).filter fun piece => !piece.isEmpty

/-- Takes the blanks off both ends. -/
def trim (text : List Char) : List Char :=
  ((text.dropWhile isBlank).reverse.dropWhile isBlank).reverse

@[simp]
theorem splitAll_nil (separates : Char → Bool) : splitAll separates [] = [[]] :=
  rfl

theorem splitAll_cons (separates : Char → Bool) (c : Char) (text : List Char) :
    splitAll separates (c :: text) =
      if separates c then [] :: splitAll separates text
      else extendFirst c (splitAll separates text) :=
  rfl

theorem splitAll_append (separates : Char → Bool) (piece rest : List Char) (c : Char)
    (hpiece : ∀ x ∈ piece, separates x = false) (hc : separates c = true) :
    splitAll separates (piece ++ c :: rest) = piece :: splitAll separates rest := by
  induction piece with
  | nil => simp [splitAll_cons, hc]
  | cons x piece ih =>
      have hx : separates x = false := hpiece x (by simp)
      rw [List.cons_append, splitAll_cons, hx, ih fun y hy => hpiece y (by simp [hy])]
      rfl

end ClassLet
