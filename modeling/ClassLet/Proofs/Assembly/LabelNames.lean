import ClassLet.Proofs.Assembly.Reading

/-!
# Names of generated labels

Labels inside the code of an expression and labels of the bodies of functions and methods are
numbered, each kind on its own.

Main statements: `labelText_inj`, `functionText_inj` and `labelText_ne_functionText`: no two of
them have the same name.
-/

namespace ClassLet

def labelText (n : Nat) : String :=
  s!"label{n}"

/-- The label of the body of a function or method. -/
def functionText (n : Nat) : String :=
  s!"function{n}"

def IsFunctionLabel (name : String) : Prop :=
  ∃ n, name = functionText n

theorem toList_labelText (n : Nat) :
    (labelText n).toList = "label".toList ++ Nat.toDigits 10 n := by
  simp [labelText, toString, Nat.repr]

theorem toList_functionText (n : Nat) :
    (functionText n).toList = "function".toList ++ Nat.toDigits 10 n := by
  simp [functionText, toString, Nat.repr]

theorem toDigits_inj {n k : Nat} (h : Nat.toDigits 10 n = Nat.toDigits 10 k) : n = k := by
  have := congrArg Decimal.digits? h
  simpa [Decimal.digits?_toDigits] using this

theorem labelText_inj {n k : Nat} (h : labelText n = labelText k) : n = k := by
  have hchars := congrArg String.toList h
  rw [toList_labelText, toList_labelText] at hchars
  exact toDigits_inj (List.append_cancel_left hchars)

theorem functionText_inj {n k : Nat} (h : functionText n = functionText k) : n = k := by
  have hchars := congrArg String.toList h
  rw [toList_functionText, toList_functionText] at hchars
  exact toDigits_inj (List.append_cancel_left hchars)

theorem labelText_ne_functionText (n k : Nat) : labelText n ≠ functionText k := by
  intro h
  have hchars := congrArg String.toList h
  rw [toList_labelText, toList_functionText] at hchars
  have hhead := congrArg List.head? hchars
  exact absurd hhead (by simp)

theorem not_isFunctionLabel_labelText (n : Nat) : ¬IsFunctionLabel (labelText n) := by
  rintro ⟨k, h⟩
  exact labelText_ne_functionText n k h

/-!
# Labels as operands
-/

theorem isLabelChar_of_isDigit {c : Char} (h : c.isDigit = true) : isLabelChar c = true := by
  simp [isLabelChar, Char.isAlphanum, h]

/-- A word followed by a number can be the name of a label. -/
theorem labelText_of_word {name : String} {first : Char} {word : List Char} {n : Nat}
    (hname : name.toList = (first :: word) ++ Nat.toDigits 10 n)
    (hfirst : first.isDigit = false ∧ first ≠ '-' ∧ first ≠ '+')
    (hword : ∀ c ∈ first :: word, isLabelChar c = true) : LabelText name where
  nonempty := by
    rw [hname]
    simp
  chars := by
    intro c hc
    rw [hname, List.mem_append] at hc
    rcases hc with hc | hc
    · exact hword c hc
    · exact isLabelChar_of_isDigit (Nat.isDigit_of_mem_toDigits (by decide) (by decide) hc)
  notNumber := by
    have hparse : Decimal.parse? (first :: (word ++ Nat.toDigits 10 n)) = none := by
      unfold Decimal.parse?
      split
      · rename_i h
        exact absurd (List.cons.inj h).1 hfirst.2.1
      · rename_i h
        exact absurd (List.cons.inj h).1 hfirst.2.2
      · simp [Decimal.digits?, hfirst.1]
    rw [hname, List.cons_append, Decimal.parseCell?, hparse]
    rfl

theorem labelText_isLabelText (n : Nat) : LabelText (labelText n) :=
  labelText_of_word (toList_labelText n) (by decide) (List.all_eq_true.mp (by decide))

theorem functionText_isLabelText (n : Nat) : LabelText (functionText n) :=
  labelText_of_word (toList_functionText n) (by decide) (List.all_eq_true.mp (by decide))

end ClassLet
