import ClassLet.Assembly.Encoding

/-!
# Texts without blanks

A text is solid if it has at least one character, no blank and no colon. Mnemonics, numbers and the
names of labels are solid, and a line that is made of them is read back as it was written.

Main statements: `solidText_mnemonic` and `trim_eq_self`.
-/

namespace ClassLet

/-- A character that neither separates words nor ends a label. -/
def isSolid (c : Char) : Bool :=
  !isBlank c && c != ':'

/-- At least one character, and all of them solid. -/
structure SolidText (text : List Char) : Prop where
  nonempty : text ≠ []
  solid : ∀ c ∈ text, isSolid c = true

/-!
# Solid characters
-/

theorem not_blank_of_isSolid {c : Char} (h : isSolid c = true) : isBlank c = false := by
  simp only [isSolid, Bool.and_eq_true, Bool.not_eq_true'] at h
  exact h.1

theorem isSolid_of_isAlphanum {c : Char} (h : c.isAlphanum = true) : isSolid c = true := by
  have hrange : (48 ≤ c.toNat ∧ c.toNat ≤ 57) ∨ (65 ≤ c.toNat ∧ c.toNat ≤ 90) ∨
      (97 ≤ c.toNat ∧ c.toNat ≤ 122) := by
    change ((decide (c.val ≥ 'A'.val ∧ c.val ≤ 'Z'.val) ||
      (decide (c.val ≥ 'a'.val) && decide (c.val ≤ 'z'.val))) || c.isDigit) = true at h
    simp only [Char.isDigit, Bool.or_eq_true, Bool.and_eq_true, decide_eq_true_eq, ge_iff_le,
      UInt32.le_iff_toNat_le] at h
    simp only [Char.toNat]
    have hA : ('A' : Char).val.toNat = 65 := rfl
    have hZ : ('Z' : Char).val.toNat = 90 := rfl
    have ha : ('a' : Char).val.toNat = 97 := rfl
    have hz : ('z' : Char).val.toNat = 122 := rfl
    have h0 : ('0' : Char).val.toNat = 48 := rfl
    have h9 : ('9' : Char).val.toNat = 57 := rfl
    omega
  have hcolon : c ≠ ':' := by
    rintro rfl
    have : (':' : Char).toNat = 58 := rfl
    omega
  have hblank : isBlank c = false := by
    simp only [isBlank, blankRanges, List.any_cons, List.any_nil, Bool.or_false,
      Bool.or_eq_false_iff, Bool.and_eq_false_iff, decide_eq_false_iff_not]
    omega
  simp [isSolid, hblank, hcolon]

theorem isSolid_of_isLabelChar {c : Char} (h : isLabelChar c = true) : isSolid c = true := by
  simp only [isLabelChar, Bool.or_eq_true, beq_iff_eq] at h
  rcases h with h | rfl
  · exact isSolid_of_isAlphanum h
  · decide

theorem isSolid_of_isDigit {c : Char} (h : c.isDigit = true) : isSolid c = true :=
  isSolid_of_isAlphanum (by simp [Char.isAlphanum, h])

/-!
# Solid texts
-/

theorem solidText_mnemonic (op : Opcode) : SolidText op.mnemonic.toList := by
  cases op <;> exact ⟨by decide, List.all_eq_true.mp (by decide)⟩

/-!
# Blanks at the ends
-/

theorem dropWhile_head {text : List Char} (h : ∀ c, text.head? = some c → isBlank c = false) :
    text.dropWhile isBlank = text := by
  cases text with
  | nil => rfl
  | cons c text => simp [h c rfl]

theorem trim_eq_self {text : List Char} (hhead : ∀ c, text.head? = some c → isBlank c = false)
    (hlast : ∀ c, text.getLast? = some c → isBlank c = false) : trim text = text := by
  have hback : text.reverse.dropWhile isBlank = text.reverse := by
    apply dropWhile_head
    intro c hc
    rw [List.head?_reverse] at hc
    exact hlast c hc
  rw [trim, dropWhile_head hhead, hback, List.reverse_reverse]

theorem SolidText.last_solid {text : List Char} (h : SolidText text) (rest : List Char) :
    ∀ c, (rest ++ text).getLast? = some c → isSolid c = true := by
  intro c hc
  rw [List.getLast?_append] at hc
  cases hlast : text.getLast? with
  | none => exact absurd (List.getLast?_eq_none_iff.mp hlast) h.nonempty
  | some d =>
      rw [hlast, Option.some_or, Option.some.injEq] at hc
      subst hc
      exact h.solid d (List.mem_of_getLast? hlast)

end ClassLet
