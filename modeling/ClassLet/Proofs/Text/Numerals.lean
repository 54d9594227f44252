import ClassLet.Proofs.Text.SolidText

/-!
# Numerals

A numeral is a number written with decimal digits, maybe behind a sign. Leading zeros do not matter.

Main statement: `parseCell?_eq_some_iff`, exactly the numerals of cell values are read as cells.
-/

namespace ClassLet

namespace Decimal

/-- At least one character, all of them digits. -/
structure Digits (text : List Char) : Prop where
  nonempty : text ≠ []
  digits : ∀ c ∈ text, c.isDigit = true

inductive Numeral : List Char → Int → Prop where
  | plain {ds : List Char} :
      Digits ds →
      Numeral ds (Nat.ofDigitChars 10 ds 0)
  | plus {ds : List Char} :
      Digits ds →
      Numeral ('+' :: ds) (Nat.ofDigitChars 10 ds 0)
  | minus {ds : List Char} :
      Digits ds →
      Numeral ('-' :: ds) (-Nat.ofDigitChars 10 ds 0)

theorem digits?_eq_some_iff {text : List Char} {n : Nat} :
    digits? text = some n ↔ Digits text ∧ n = Nat.ofDigitChars 10 text 0 := by
  unfold digits?
  constructor
  · intro h
    split at h
    · cases h
    · rename_i hdigits
      simp only [Bool.or_eq_true, List.isEmpty_iff, Bool.not_eq_true', not_or,
        Bool.not_eq_false, List.all_eq_true] at hdigits
      exact ⟨⟨hdigits.1, hdigits.2⟩, (Option.some.inj h).symm⟩
  · intro h
    rcases h with ⟨⟨hnonempty, hdigits⟩, rfl⟩
    have hall : text.all Char.isDigit = true := List.all_eq_true.mpr hdigits
    simp [hnonempty, hall]

theorem parse?_plain {ds : List Char} (h : Digits ds) :
    parse? ds = some (Nat.ofDigitChars 10 ds 0 : Int) := by
  have hdigits : digits? ds = some (Nat.ofDigitChars 10 ds 0) := digits?_eq_some_iff.mpr ⟨h, rfl⟩
  unfold parse?
  split
  · exact absurd (h.digits '-' List.mem_cons_self) (by decide)
  · exact absurd (h.digits '+' List.mem_cons_self) (by decide)
  · rw [hdigits]
    rfl

theorem parse?_eq_some_iff {text : List Char} {n : Int} :
    parse? text = some n ↔ Numeral text n := by
  constructor
  · intro h
    unfold parse? at h
    split at h
    · rename_i ds
      cases hdigits : digits? ds with
      | none =>
          rw [hdigits] at h
          cases h
      | some k =>
          rw [hdigits] at h
          cases h
          rcases digits?_eq_some_iff.mp hdigits with ⟨hds, rfl⟩
          exact Numeral.minus hds
    · rcases Option.map_eq_some_iff.mp h with ⟨k, hdigits, rfl⟩
      rcases digits?_eq_some_iff.mp hdigits with ⟨hds, rfl⟩
      exact Numeral.plus hds
    · rcases Option.map_eq_some_iff.mp h with ⟨k, hdigits, rfl⟩
      rcases digits?_eq_some_iff.mp hdigits with ⟨hds, rfl⟩
      exact Numeral.plain hds
  · intro h
    cases h with
    | plain hds => exact parse?_plain hds
    | plus hds =>
        rw [parse?, digits?_eq_some_iff.mpr ⟨hds, rfl⟩]
        rfl
    | minus hds =>
        rw [parse?, digits?_eq_some_iff.mpr ⟨hds, rfl⟩]
        rfl

theorem parseCell?_eq_some_iff {text : List Char} {v : Int32} :
    parseCell? text = some v ↔ Numeral text v.toInt := by
  rw [← parse?_eq_some_iff, parseCell?, Option.bind_eq_some_iff]
  constructor
  · intro h
    rcases h with ⟨n, hparse, hrange⟩
    split at hrange
    · rename_i hbounds
      cases hrange
      rw [Int32.toInt_ofInt_of_le hbounds.1 (Int.lt_add_one_of_le hbounds.2)]
      exact hparse
    · cases hrange
  · intro h
    refine ⟨v.toInt, h, ?_⟩
    rw [if_pos ⟨Int32.minValue_le_toInt v, Int32.toInt_le v⟩, Int32.ofInt_toInt]

theorem parseCell?_eq_none_iff {text : List Char} :
    parseCell? text = none ↔ ∀ v : Int32, ¬Numeral text v.toInt := by
  rw [Option.eq_none_iff_forall_ne_some]
  simp only [ne_eq, parseCell?_eq_some_iff]

theorem numeral_text (n : Int) : Numeral (text n) n :=
  parse?_eq_some_iff.mp (parse?_text n)

theorem Digits.solid {ds : List Char} (h : Digits ds) : ∀ c ∈ ds, isSolid c = true := by
  intro c hc
  exact isSolid_of_isDigit (h.digits c hc)

theorem Numeral.solidText {text : List Char} {n : Int} (h : Numeral text n) :
    SolidText text := by
  cases h with
  | plain hds => exact ⟨hds.nonempty, hds.solid⟩
  | plus hds => exact ⟨List.cons_ne_nil _ _, List.forall_mem_cons.mpr ⟨by decide, hds.solid⟩⟩
  | minus hds => exact ⟨List.cons_ne_nil _ _, List.forall_mem_cons.mpr ⟨by decide, hds.solid⟩⟩

end Decimal

end ClassLet
