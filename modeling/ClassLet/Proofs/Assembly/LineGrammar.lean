import ClassLet.Proofs.Text.Pieces

/-!
# The grammar of a line

A line of assembly text is blank, defines a label or holds an instruction; it is malformed
otherwise. Which of these it is, and what is wrong with it, is said by its words and by whether it
ends in a colon.

Main statements: `AssemblyLine.parse_eq_ok_iff` and `AssemblyLine.parse_of_malformed`.
-/

namespace ClassLet

/-- The last character that is not blank is a colon. -/
def EndsInColon (text : List Char) : Prop :=
  ∃ before right, text = before ++ ':' :: right ∧ Blanks right

namespace AssemblyLine

/-- The text is a line of the grammar. -/
inductive ReadsAs : List Char → AssemblyLine → Prop where
  | blank {text : List Char} :
      Blanks text →
      ReadsAs text .blank
  | label {before name right : List Char} :
      Trims before name →
      Blanks right →
      ReadsAs (before ++ ':' :: right) (.label (String.ofList name))
  | bare {text : List Char} {op : Opcode} :
      ¬EndsInColon text →
      HasWords text [op.mnemonic.toList] →
      op.hasOperand = false →
      ReadsAs text (.instruction op none)
  | applied {text operand : List Char} {op : Opcode} :
      ¬EndsInColon text →
      HasWords text [op.mnemonic.toList, operand] →
      op.hasOperand = true →
      ReadsAs text (.instruction op (some (String.ofList operand)))

/-- The text is no line of the grammar; the error names the line by its number. -/
inductive Malformed (number : Nat) : List Char → AssemblyError → Prop where
  | unknown {text mnemonic : List Char} {rest : List (List Char)} :
      ¬EndsInColon text →
      HasWords text (mnemonic :: rest) →
      (∀ op : Opcode, op.mnemonic.toList ≠ mnemonic) →
      Malformed number text (.unknownInstruction number (String.ofList mnemonic))
  | missing {text : List Char} {op : Opcode} :
      ¬EndsInColon text →
      HasWords text [op.mnemonic.toList] →
      op.hasOperand = true →
      Malformed number text (.operandMissing number op.mnemonic)
  | unexpected {text operand : List Char} {op : Opcode} :
      ¬EndsInColon text →
      HasWords text [op.mnemonic.toList, operand] →
      op.hasOperand = false →
      Malformed number text (.operandUnexpected number op.mnemonic)
  | extra {text operand extra : List Char} {rest : List (List Char)} {op : Opcode} :
      ¬EndsInColon text →
      HasWords text (op.mnemonic.toList :: operand :: extra :: rest) →
      Malformed number text (.operandInvalid number (String.ofList extra))

end AssemblyLine

/-!
# Colons
-/

theorem trim_concat {c : Char} (hc : isBlank c = false) (text : List Char) :
    trim (text ++ [c]) = text.dropWhile isBlank ++ [c] := by
  rw [trim, List.dropWhile_append]
  split
  · rename_i hempty
    rw [List.isEmpty_iff] at hempty
    simp [hempty, hc]
  · simp [hc]

theorem trim_colon {before right : List Char} (hright : Blanks right) :
    trim (before ++ ':' :: right) = before.dropWhile isBlank ++ [':'] := by
  rw [← List.singleton_append, ← List.append_assoc, trim_append_blanks hright]
  exact trim_concat (c := ':') (by decide) before

theorem endsInColon_iff {text : List Char} :
    EndsInColon text ↔ (trim text).getLast? = some ':' := by
  constructor
  · intro h
    rcases h with ⟨before, right, rfl, hright⟩
    rw [trim_colon hright, List.getLast?_concat]
  · intro h
    have htrims := trims_trim text
    generalize trim text = inner at h htrims
    cases htrims with
    | intro hleft hhead hlast hright =>
        rename_i left right
        rcases List.getLast?_eq_some_iff.mp h with ⟨before, rfl⟩
        exact ⟨left ++ before, right, by simp, hright⟩

theorem not_endsInColon_of_solid (before : List Char) {text : List Char} (h : SolidText text) :
    ¬EndsInColon (before ++ text) := by
  intro hcolon
  rcases hcolon with ⟨front, right, hsplit, hright⟩
  rcases List.eq_nil_or_concat right with rfl | ⟨rest, c, rfl⟩
  · have hlast := h.last_solid before ':'
    rw [hsplit, List.getLast?_concat] at hlast
    exact absurd (hlast rfl) (by decide)
  · have hlast := h.last_solid before c
    rw [hsplit, List.concat_eq_append, ← List.cons_append, ← List.append_assoc,
      List.getLast?_concat] at hlast
    have hblank := hright c (by simp)
    rw [not_blank_of_isSolid (hlast rfl)] at hblank
    cases hblank

theorem trim_dropWhile (text : List Char) : trim (text.dropWhile isBlank) = trim text := by
  have hblanks := trim_blanks_append (blanks_takeWhile text) (text.dropWhile isBlank)
  rw [List.takeWhile_append_dropWhile] at hblanks
  exact hblanks.symm

/-!
# Lines of solid texts
-/

namespace AssemblyLine.ReadsAs

theorem solid_label {name : List Char} (h : SolidText name) :
    ReadsAs (name ++ [':']) (.label (String.ofList name)) := by
  have htrims : Trims name name := trims_iff.mpr h.isWord.trim_eq
  exact label htrims Blanks.nil

theorem solid_bare {op : Opcode} (hop : op.hasOperand = false) :
    ReadsAs op.mnemonic.toList (.instruction op none) := by
  have hmnemonic := solidText_mnemonic op
  exact bare (not_endsInColon_of_solid [] hmnemonic) hmnemonic.isWord.hasWords hop

theorem solid_applied {op : Opcode} {operand : List Char} (hop : op.hasOperand = true)
    (h : SolidText operand) :
    ReadsAs (op.mnemonic.toList ++ ' ' :: operand)
      (.instruction op (some (String.ofList operand))) := by
  have hcolon := not_endsInColon_of_solid (op.mnemonic.toList ++ [' ']) h
  rw [List.append_assoc] at hcolon
  exact applied hcolon ((solidText_mnemonic op).isWord.hasWords_pair h.isWord) hop

end AssemblyLine.ReadsAs

/-!
# Reading a line
-/

theorem Opcode.ofMnemonic?_eq_none {mnemonic : String} (h : ∀ op : Opcode, op.mnemonic ≠ mnemonic) :
    ofMnemonic? mnemonic = none := by
  apply List.find?_eq_none.mpr
  intro op _
  simpa using h op

namespace AssemblyLine

variable {number : Nat} {text : List Char} {line : AssemblyLine} {err : AssemblyError}

theorem parse_label {before right : List Char} (hright : Blanks right) :
    parse number (before ++ ':' :: right) = .ok (.label (String.ofList (trim before))) := by
  have hcolon : (trim (before ++ ':' :: right)).getLast? = some ':' :=
    endsInColon_iff.mp ⟨before, right, rfl, hright⟩
  rw [parse, if_pos hcolon, trim_colon hright, List.dropLast_concat, trim_dropWhile]

theorem parse_words {ws : List (List Char)} (hcolon : ¬EndsInColon text)
    (hwords : HasWords text ws) :
    parse number text = ofWords number (ws.map String.ofList) := by
  rw [endsInColon_iff] at hcolon
  rw [parse, if_neg hcolon, words_trim, hwords.words]

theorem parse_of_readsAs (h : ReadsAs text line) : parse number text = .ok line := by
  cases h with
  | blank hblanks =>
      have hcolon : ¬EndsInColon text := by
        intro h
        rcases h with ⟨before, right, rfl, _⟩
        exact absurd (hblanks ':' (by simp)) (by decide)
      exact parse_words hcolon (HasWords.none hblanks)
  | label htrims hright => rw [parse_label hright, htrims.trim]
  | bare hcolon hwords hoperand =>
      rw [parse_words hcolon hwords]
      simp [ofWords, Opcode.ofMnemonic?_mnemonic, hoperand]
  | applied hcolon hwords hoperand =>
      rw [parse_words hcolon hwords]
      simp [ofWords, Opcode.ofMnemonic?_mnemonic, hoperand]

theorem parse_of_malformed (h : Malformed number text err) : parse number text = .error err := by
  cases h with
  | unknown hcolon hwords hunknown =>
      rename_i mnemonic rest
      have hnone : Opcode.ofMnemonic? (String.ofList mnemonic) = none := by
        apply Opcode.ofMnemonic?_eq_none
        intro op heq
        exact hunknown op (by rw [heq, String.toList_ofList])
      rw [parse_words hcolon hwords]
      simp [ofWords, hnone]
  | missing hcolon hwords hoperand =>
      rw [parse_words hcolon hwords]
      simp [ofWords, Opcode.ofMnemonic?_mnemonic, hoperand]
  | unexpected hcolon hwords hoperand =>
      rw [parse_words hcolon hwords]
      simp [ofWords, Opcode.ofMnemonic?_mnemonic, hoperand]
  | extra hcolon hwords =>
      rw [parse_words hcolon hwords]
      simp [ofWords, Opcode.ofMnemonic?_mnemonic]

/-- Every text is a line of the grammar or has a fault. -/
theorem readsAs_or_malformed (number : Nat) (text : List Char) :
    (∃ line, ReadsAs text line) ∨ ∃ err, Malformed number text err := by
  by_cases hcolon : EndsInColon text
  · rcases hcolon with ⟨before, right, rfl, hright⟩
    exact Or.inl ⟨_, ReadsAs.label (trims_trim before) hright⟩
  have hwords := hasWords_words text
  generalize words text = ws at hwords
  cases ws with
  | nil =>
      cases hwords with
      | none hblanks => exact Or.inl ⟨_, ReadsAs.blank hblanks⟩
  | cons mnemonic rest =>
      by_cases hknown : ∃ op : Opcode, op.mnemonic.toList = mnemonic
      · rcases hknown with ⟨op, rfl⟩
        cases rest with
        | nil =>
            cases hoperand : op.hasOperand with
            | true => exact Or.inr ⟨_, Malformed.missing hcolon hwords hoperand⟩
            | false => exact Or.inl ⟨_, ReadsAs.bare hcolon hwords hoperand⟩
        | cons operand rest =>
            cases rest with
            | nil =>
                cases hoperand : op.hasOperand with
                | true => exact Or.inl ⟨_, ReadsAs.applied hcolon hwords hoperand⟩
                | false => exact Or.inr ⟨_, Malformed.unexpected hcolon hwords hoperand⟩
            | cons extra rest => exact Or.inr ⟨_, Malformed.extra hcolon hwords⟩
      · rw [not_exists] at hknown
        exact Or.inr ⟨_, Malformed.unknown hcolon hwords hknown⟩

theorem parse_eq_ok_iff : parse number text = .ok line ↔ ReadsAs text line := by
  constructor
  · intro hparse
    rcases readsAs_or_malformed number text with ⟨line', hreads⟩ | ⟨err, hmalformed⟩
    · rw [parse_of_readsAs hreads, Except.ok.injEq] at hparse
      exact hparse ▸ hreads
    · rw [parse_of_malformed hmalformed] at hparse
      cases hparse
  · exact parse_of_readsAs

end AssemblyLine

end ClassLet
