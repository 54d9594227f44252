/-!
# Decimal numbers

Whole numbers are written in decimal without leading zeros, and are read with an optional sign and
any number of digits.

Main statement: `parse?_text`, every number is read back from its text.
-/

namespace ClassLet

namespace Decimal

def text : Int → List Char
  | .ofNat n => Nat.toDigits 10 n
  | .negSucc n => '-' :: Nat.toDigits 10 (n + 1)

def digits? (cs : List Char) : Option Nat :=
  if cs.isEmpty || !cs.all Char.isDigit then none else some (Nat.ofDigitChars 10 cs 0)

def parse? : List Char → Option Int
  | '-' :: cs => (digits? cs).map fun n => -(n : Int)
  | '+' :: cs => (digits? cs).map Int.ofNat
  | cs => (digits? cs).map Int.ofNat

/-- A number that fits into a cell. -/
def parseCell? (cs : List Char) : Option Int32 :=
  (parse? cs).bind fun n =>
    if Int32.minValue.toInt ≤ n ∧ n ≤ Int32.maxValue.toInt then some (Int32.ofInt n) else none

theorem digits?_toDigits (n : Nat) : digits? (Nat.toDigits 10 n) = some n := by
  have hne : (Nat.toDigits 10 n).isEmpty = false := by
    simp
  have hall : (Nat.toDigits 10 n).all Char.isDigit = true := by
    simpa using fun c hc => Nat.isDigit_of_mem_toDigits (by decide) (by decide) hc
  simp [digits?, hne, hall, Nat.ofDigitChars_toDigits]

theorem parse?_toDigits (n : Nat) : parse? (Nat.toDigits 10 n) = some (n : Int) := by
  have hdigits := digits?_toDigits n
  have hall : ∀ c ∈ Nat.toDigits 10 n, c.isDigit = true := fun c hc =>
    Nat.isDigit_of_mem_toDigits (by decide) (by decide) hc
  revert hdigits hall
  cases Nat.toDigits 10 n with
  | nil => simp [digits?]
  | cons c cs =>
      intro hdigits hall
      have hc : c.isDigit = true := hall c (by simp)
      unfold parse?
      split
      · rename_i heq
        simp only [List.cons.injEq] at heq
        rw [heq.1] at hc
        exact absurd hc (by decide)
      · rename_i heq
        simp only [List.cons.injEq] at heq
        rw [heq.1] at hc
        exact absurd hc (by decide)
      · rw [hdigits]
        rfl

theorem parse?_text (n : Int) : parse? (text n) = some n := by
  cases n with
  | ofNat n => exact parse?_toDigits n
  | negSucc n =>
      simp only [text, parse?, digits?_toDigits]
      rfl

end Decimal

end ClassLet
