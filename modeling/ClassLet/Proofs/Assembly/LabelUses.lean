import ClassLet.Proofs.Assembly.Reading

/-!
# Uses of a label

Whatever stands before a colon becomes the name of a label, but an operand is first read as a
number and must else consist of label characters. What a jump to a defined label becomes, if it is
added at the end of an accepted text, is therefore a question of the name.

Main statement: `jump_to_label`.
-/

namespace ClassLet

/-!
# One line at the end
-/

/-- The text with one line more. -/
def withLine (text line : List Char) : List Char :=
  match text.getLast? with
  | none => line
  | some c => if c = '\n' then text ++ line else text ++ '\n' :: line

theorem withLine_append (before rest line : List Char) :
    withLine (before ++ '\n' :: rest) line = before ++ '\n' :: withLine rest line := by
  rcases List.eq_nil_or_concat rest with rfl | ⟨rest, c, rfl⟩
  · simp [withLine]
  · have hlast : (before ++ '\n' :: (rest ++ [c])).getLast? = some c := by
      rw [← List.cons_append, ← List.append_assoc, List.getLast?_concat]
    simp only [withLine, List.concat_eq_append, hlast, List.getLast?_concat]
    split
    · simp
    · simp

/-- The line is the last one; it takes the place of an empty last line. -/
theorem HasLines.withLine {text line : List Char} {pieces : List (List Char)}
    (h : HasLines text pieces) (hline : '\n' ∉ line) :
    ∃ before, HasLines (ClassLet.withLine text line) (before ++ [line]) ∧
      (pieces = before ∨ pieces = before ++ [[]]) := by
  induction h with
  | @last text htext =>
      rcases List.eq_nil_or_concat text with rfl | ⟨text, c, rfl⟩
      · exact ⟨[], HasLines.last hline, Or.inr rfl⟩
      · have hc : c ≠ '\n' := by
          intro heq
          exact htext (by simp [heq])
        refine ⟨[text ++ [c]], ?_, Or.inl (by rw [List.concat_eq_append])⟩
        rw [ClassLet.withLine, List.concat_eq_append, List.getLast?_concat]
        simp only [hc, if_false]
        rw [List.concat_eq_append] at htext
        exact HasLines.cons htext (HasLines.last hline)
  | @cons piece rest pieces hpiece _ ih =>
      rcases ih with ⟨before, hrest, hbefore⟩
      refine ⟨piece :: before, ?_, ?_⟩
      · rw [withLine_append]
        exact HasLines.cons hpiece hrest
      · rcases hbefore with rfl | rfl
        · exact Or.inl rfl
        · exact Or.inr rfl

theorem HasLines.newline_not_mem {text : List Char} {pieces : List (List Char)}
    (h : HasLines text pieces) : ∀ piece ∈ pieces, '\n' ∉ piece := by
  induction h with
  | last hline => exact List.forall_mem_singleton.mpr hline
  | cons hline _ ih => exact List.forall_mem_cons.mpr ⟨hline, ih⟩

/-!
# The lines read
-/

/-- Lines that differ in blank ones at most. -/
structure SameCode (xs ys : List AssemblyLine) : Prop where
  size : linesSize xs = linesSize ys
  drafts : draftsFrom 1 xs = draftsFrom 1 ys
  names : definedNames xs = definedNames ys
  definedAt : ∀ name a, DefinedAt xs name a ↔ DefinedAt ys name a

theorem SameCode.refl (lines : List AssemblyLine) : SameCode lines lines where
  size := rfl
  drafts := rfl
  names := rfl
  definedAt := fun _ _ => Iff.rfl

theorem SameCode.blank (lines : List AssemblyLine) : SameCode lines (lines ++ [.blank]) where
  size := by
    rw [linesSize_append]
    rfl
  drafts := by
    simp [draftsFrom_append, draftsFrom]
  names := by
    rw [definedNames_append]
    exact (List.append_nil _).symm
  definedAt := by
    intro name a
    rw [definedAt_concat]
    simp

theorem AssemblyLine.ReadsAs.unique {text : List Char} {line line' : AssemblyLine}
    (h : AssemblyLine.ReadsAs text line) (h' : AssemblyLine.ReadsAs text line') : line = line' := by
  have hparse : AssemblyLine.parse 0 text = .ok line := AssemblyLine.parse_of_readsAs h
  rw [AssemblyLine.parse_of_readsAs h', Except.ok.injEq] at hparse
  exact hparse.symm

theorem readsAs_unique {pieces : List (List Char)} {xs ys : List AssemblyLine}
    (hxs : List.Forall₂ AssemblyLine.ReadsAs pieces xs)
    (hys : List.Forall₂ AssemblyLine.ReadsAs pieces ys) : xs = ys :=
  List.right_unique_forall₂' (fun _ _ _ h h' => h.unique h') hxs hys

section LastLine

variable {text : List Char} {lines : List AssemblyLine}

theorem ReadsText.unique {lines' : List AssemblyLine} (h : ReadsText text lines)
    (h' : ReadsText text lines') : lines = lines' := by
  rcases h.pieces with ⟨pieces, hpieces, hreads⟩
  rcases h'.pieces with ⟨pieces', hpieces', hreads'⟩
  rw [← hpieces.splitLines, hpieces'.splitLines] at hreads
  exact readsAs_unique hreads hreads'

theorem DefinedAt.unique {name : String} {a a' : Nat} (h : ReadsText text lines)
    (ha : DefinedAt lines name a) (ha' : DefinedAt lines name a') : a = a' := by
  rcases Draft.read_of_readsText h with ⟨d, _, hholds⟩
  have hfind := (hholds.labels name a).mpr ha
  rw [(hholds.labels name a').mpr ha', Option.some.injEq] at hfind
  exact hfind.symm

/-- The lines of a text with one line more. -/
theorem ReadsText.withLine (h : ReadsText text lines) {line : List Char} (hline : '\n' ∉ line) :
    ∃ before, SameCode before lines ∧ ∀ lines', ReadsText (ClassLet.withLine text line) lines' ↔
      ∃ l, AssemblyLine.ReadsAs line l ∧ lines' = before ++ [l] ∧ (definedNames lines').Nodup := by
  rcases h.pieces with ⟨pieces, hpieces, hreads⟩
  rcases hpieces.withLine hline with ⟨init, hinit, hcases⟩
  have hbefore : ∃ before, SameCode before lines ∧
      List.Forall₂ AssemblyLine.ReadsAs init before := by
    rcases hcases with rfl | rfl
    · exact ⟨lines, SameCode.refl lines, hreads⟩
    · rcases forall₂_append_left hreads with ⟨before, back, rfl, hbefore, hback⟩
      cases hback with
      | cons hblank hnil =>
          cases hnil
          rw [← (AssemblyLine.ReadsAs.blank Blanks.nil).unique hblank]
          exact ⟨before, SameCode.blank before, hbefore⟩
  rcases hbefore with ⟨before, hsame, hbefore⟩
  refine ⟨before, hsame, ?_⟩
  intro lines'
  constructor
  · intro h'
    rcases h'.pieces with ⟨pieces', hpieces', hreads'⟩
    rw [← hpieces'.splitLines, hinit.splitLines] at hreads'
    rcases forall₂_append_left hreads' with ⟨front, back, rfl, hfront, hback⟩
    cases hback with
    | @cons _ l _ _ hl hnil =>
        cases hnil
        rw [readsAs_unique hfront hbefore] at h' ⊢
        exact ⟨l, hl, rfl, h'.labels⟩
  · intro h'
    rcases h' with ⟨l, hl, rfl, hlabels⟩
    exact ⟨⟨_, hinit, List.rel_append hbefore (List.Forall₂.cons hl List.Forall₂.nil)⟩, hlabels⟩

/-- The name of a label is free of newlines and has no blanks at its ends. -/
theorem ReadsText.label_name (h : ReadsText text lines) {name : String} {a : Nat}
    (ha : DefinedAt lines name a) : '\n' ∉ name.toList ∧ trim name.toList = name.toList := by
  rcases h.pieces with ⟨pieces, hpieces, hreads⟩
  rcases ha with ⟨before, after, rfl, _⟩
  rcases forall₂_append_left hreads.flip with ⟨front, back, rfl, _, hback⟩
  cases hback with
  | @cons _ piece _ _ hpiece _ =>
      have hnewline := hpieces.newline_not_mem piece (List.mem_append_right _ List.mem_cons_self)
      change AssemblyLine.ReadsAs piece (.label name) at hpiece
      cases hpiece with
      | label htrims _ =>
          rw [String.toList_ofList]
          cases htrims with
          | intro _ hhead hlast _ =>
              constructor
              · intro hmem
                exact hnewline (by simp [hmem])
              · exact trim_eq_self hhead hlast

end LastLine

/-!
# The added jump
-/

/-- The text with a jump to the label at its end. -/
def withJump (text name : String) : String :=
  String.ofList (withLine text.toList ('b' :: ' ' :: name.toList))

theorem jump_readsAs {name : String} (h : SolidText name.toList) :
    AssemblyLine.ReadsAs ('b' :: ' ' :: name.toList) (.instruction .jump (some name)) := by
  have hoperand : Opcode.jump.hasOperand = true := rfl
  have hreads := AssemblyLine.ReadsAs.solid_applied hoperand h
  rw [String.ofList_toList] at hreads
  exact hreads

theorem words_jump (name : List Char) : words ('b' :: ' ' :: name) = ['b'] :: words name := by
  have hb : IsWord ['b'] := (solidText_mnemonic .jump).isWord
  have hblank : ∀ c, (' ' :: name).head? = some c → isBlank c = true := by
    intro c hc
    cases hc
    decide
  have hsplit := words_word_append hb hblank
  rwa [words_cons_blank (by decide)] at hsplit

/-- Without blanks at its ends, a text that has one word is that word. -/
theorem HasWords.eq_of_trim {text word : List Char} (h : HasWords text [word])
    (htrim : trim text = text) : IsWord text ∧ word = text := by
  cases h with
  | word hblanks hword _ hrest =>
      cases hrest with
      | none hright =>
          rw [trim_blanks_append hblanks, trim_append_blanks hright, hword.trim_eq] at htrim
          rw [← htrim]
          exact ⟨hword, rfl⟩

/-- A line that starts like a jump and holds an operand is a jump to what stands behind. -/
theorem operand_of_jump {name : List Char} {op : Opcode} {operand : String}
    (h : AssemblyLine.ReadsAs ('b' :: ' ' :: name) (.instruction op (some operand)))
    (htrim : trim name = name) : IsWord name ∧ operand = String.ofList name := by
  generalize htext : 'b' :: ' ' :: name = text at h
  cases h with
  | @applied _ operand _ _ hwords _ =>
      have hsplit := words_jump name
      rw [htext, hwords.words, List.cons.injEq] at hsplit
      rcases (hasWords_iff.mpr hsplit.2.symm).eq_of_trim htrim with ⟨hword, heq⟩
      exact ⟨hword, congrArg String.ofList heq⟩

theorem OperandValue.congr {xs ys : List AssemblyLine} {operand : String} {v : Int32}
    (hvalue : OperandValue xs operand v)
    (h : ∀ name a, DefinedAt xs name a ↔ DefinedAt ys name a) : OperandValue ys operand v := by
  cases hvalue with
  | number hv => exact OperandValue.number hv
  | label hnumber hchars ha => exact OperandValue.label hnumber hchars ((h _ _).mp ha)

theorem EncodedAs.congr {xs ys : List AssemblyLine} {draft : DraftInstruction}
    {i : StoredInstruction} (hi : EncodedAs xs draft i)
    (h : ∀ name a, DefinedAt xs name a ↔ DefinedAt ys name a) : EncodedAs ys draft i := by
  cases hi with
  | bare hop => exact EncodedAs.bare hop
  | applied hop hvalue => exact EncodedAs.applied hop (hvalue.congr h)

section Jump

variable {text : String} {capacity : Nat} {code : List Int32} {lines : List AssemblyLine}
  {name : String} {a : Nat} {v : Int32}

theorem definedAt_instruction {before : List AssemblyLine} (hsame : SameCode before lines)
    (op : Opcode) (operand : Option String) (k : String) (a : Nat) :
    DefinedAt (before ++ [.instruction op operand]) k a ↔ DefinedAt lines k a := by
  rw [definedAt_concat, hsame.definedAt]
  simp

theorem assemble_withJump (hcode : assemble text capacity = .ok code)
    (hlines : ReadsText text.toList lines) (ha : DefinedAt lines name a)
    (hsolid : SolidText name.toList) (hvalue : OperandValue lines name v) :
    assemble (withJump text name) (capacity + 2) = .ok (code ++ [Opcode.jump.cell, v]) := by
  have hnewline : '\n' ∉ 'b' :: ' ' :: name.toList := by
    simpa using (hlines.label_name ha).1
  rcases assemble_eq_ok hcode with ⟨lines', instructions, hlines', hfits, hencoded, rfl⟩
  rw [← hlines.unique hlines'] at hfits hencoded
  rcases hlines.withLine hnewline with ⟨before, hsame, hiff⟩
  have hreads : ReadsText (withJump text name).toList
      (before ++ [.instruction .jump (some name)]) := by
    rw [withJump, String.toList_ofList]
    refine (hiff _).mpr ⟨_, jump_readsAs hsolid, rfl, ?_⟩
    rw [nodup_definedNames_concat, hsame.names]
    exact ⟨hlines.labels, by simp⟩
  have hdefined : ∀ k a, DefinedAt lines k a ↔
      DefinedAt (before ++ [.instruction .jump (some name)]) k a :=
    fun k a => (definedAt_instruction hsame .jump (some name) k a).symm
  have hsize : linesSize (before ++ [.instruction .jump (some name)]) ≤ capacity + 2 := by
    rw [linesSize_append, hsame.size]
    exact Nat.add_le_add_right hfits 2
  have hall : List.Forall₂ (EncodedAs (before ++ [.instruction .jump (some name)]))
      (draftsFrom 1 (before ++ [.instruction .jump (some name)]))
      (instructions ++ [{ op := .jump, operand := some v }]) := by
    rw [draftsFrom_append, hsame.drafts]
    apply List.rel_append
    · exact hencoded.imp fun _ _ hi => hi.congr hdefined
    · exact List.Forall₂.cons ((EncodedAs.applied rfl hvalue).congr hdefined) List.Forall₂.nil
  rw [assemble_of_encoded hreads hsize hall, List.flatMap_append]
  rfl

theorem operandValue_of_withJump (hcode : assemble text capacity = .ok code)
    (hlines : ReadsText text.toList lines) (ha : DefinedAt lines name a)
    (hjump : assemble (withJump text name) (capacity + 2) = .ok (code ++ [Opcode.jump.cell, v])) :
    IsWord name.toList ∧ OperandValue lines name v := by
  rcases hlines.label_name ha with ⟨hname, htrim⟩
  have hnewline : '\n' ∉ 'b' :: ' ' :: name.toList := by
    simpa using hname
  rcases assemble_eq_ok hcode with ⟨lines', instructions, hlines', _, hencoded, rfl⟩
  rw [← hlines.unique hlines'] at hencoded
  rcases assemble_eq_ok hjump with ⟨lines'', instructions', hlines'', _, hencoded', hcells⟩
  rcases hlines.withLine hnewline with ⟨before, hsame, hiff⟩
  rw [withJump, String.toList_ofList] at hlines''
  rcases (hiff _).mp hlines'' with ⟨l, hl, rfl, _⟩
  -- The code has grown by two cells, so the last line holds an instruction with an operand.
  have hwidth : l.width = 2 := by
    have hsize := length_of_encoded hencoded'
    rw [← hcells, List.length_append, length_of_encoded hencoded, linesSize_append,
      hsame.size] at hsize
    have hl : linesSize [l] = l.width := Nat.add_zero _
    rw [hl] at hsize
    exact (Nat.add_left_cancel hsize).symm
  cases l with
  | blank => cases hwidth
  | label k => cases hwidth
  | instruction op operand =>
      rw [draftsFrom_append] at hencoded'
      rcases forall₂_append_left hencoded' with ⟨front, back, rfl, hfront, hback⟩
      cases hback with
      | cons hi hnil =>
          cases hnil
          cases hi with
          | bare hop =>
              rw [AssemblyLine.width, Opcode.width, hop] at hwidth
              cases hwidth
          | @applied _ _ operand v' _ hvalue =>
              rcases operand_of_jump hl htrim with ⟨hword, rfl⟩
              rw [String.ofList_toList] at hvalue
              have htail : [Opcode.jump.cell, v] = [op.cell, v'] := by
                rw [List.flatMap_append] at hcells
                exact (List.append_inj' hcells rfl).2
              simp only [List.cons.injEq, and_true] at htail
              rw [htail.2]
              exact ⟨hword, hvalue.congr (definedAt_instruction hsame op _)⟩

/-- What a jump to a defined label becomes. -/
theorem jump_to_label (hcode : assemble text capacity = .ok code)
    (hlines : ReadsText text.toList lines) (ha : DefinedAt lines name a) (v : Int32) :
    (assemble (withJump text name) (capacity + 2) = .ok (code ++ [Opcode.jump.cell, v]) ↔
      Decimal.Numeral name.toList v.toInt ∨ LabelText name ∧ v = Int32.ofNat a) ∧
    (isAddressable code.length = true → (Int32.ofNat a).toInt = a) := by
  constructor
  · constructor
    · intro hjump
      rcases operandValue_of_withJump hcode hlines ha hjump with ⟨hword, hvalue⟩
      cases hvalue with
      | number hv => exact Or.inl hv
      | label hnumber hchars ha' =>
          rw [ha'.unique hlines ha]
          exact Or.inr ⟨⟨hword.nonempty, hchars, Decimal.parseCell?_eq_none_iff.mpr hnumber⟩, rfl⟩
    · intro h
      rcases h with hv | ⟨hname, rfl⟩
      · exact assemble_withJump hcode hlines ha hv.solidText (OperandValue.number hv)
      · have hnumber := Decimal.parseCell?_eq_none_iff.mp hname.notNumber
        exact assemble_withJump hcode hlines ha hname.solid
          (OperandValue.label hnumber hname.chars ha)
  · intro hsize
    rcases assemble_eq_ok hcode with ⟨lines', instructions, hlines', _, hencoded, rfl⟩
    rw [← hlines.unique hlines'] at hencoded
    exact toInt_ofNat_of_addressable hsize (boundary_of_definedAt hencoded ha).1

end Jump

/-- Three labels at one address: a name, a number and neither of them. -/
def labelledText : String :=
  "push 5\nend:\n1:\n-:\n"

def labelledLines : List AssemblyLine :=
  [.instruction .push (some "5"), .label "end", .label "1", .label "-", .blank]

theorem labelledText_lines : ReadsText labelledText.toList labelledLines where
  pieces := by
    have hreads : ∀ {text line}, AssemblyLine.parse 0 text = .ok line →
        AssemblyLine.ReadsAs text line := AssemblyLine.parse_eq_ok_iff.mp
    refine ⟨["push 5".toList, "end:".toList, "1:".toList, "-:".toList, []],
      hasLines_iff.mpr (by decide +kernel), ?_⟩
    apply List.Forall₂.cons (hreads (by decide +kernel))
    apply List.Forall₂.cons (hreads (by decide +kernel))
    apply List.Forall₂.cons (hreads (by decide +kernel))
    apply List.Forall₂.cons (hreads (by decide +kernel))
    exact List.Forall₂.cons (hreads (by decide +kernel)) List.Forall₂.nil
  labels := by decide

theorem labelledText_defined : ∀ name ∈ ["end", "1", "-"], DefinedAt labelledLines name 2 := by
  intro name hname
  simp only [List.mem_cons, List.not_mem_nil, or_false] at hname
  rcases hname with rfl | rfl | rfl
  · exact ⟨[.instruction .push (some "5")], _, rfl, rfl⟩
  · exact ⟨[.instruction .push (some "5"), .label "end"], _, rfl, rfl⟩
  · exact ⟨[.instruction .push (some "5"), .label "end", .label "1"], _, rfl, rfl⟩

theorem jump_to_label_named :
    assemble labelledText 2 = .ok [Opcode.push.cell, 5] ∧
      ReadsText labelledText.toList labelledLines ∧ DefinedAt labelledLines "end" 2 ∧
      assemble (withJump labelledText "end") 4 =
        .ok ([Opcode.push.cell, 5] ++ [Opcode.jump.cell, 2]) := by
  have hcode : assemble labelledText 2 = .ok [Opcode.push.cell, 5] := by decide +kernel
  have hdefined := labelledText_defined "end" (by decide)
  have hname : LabelText "end" := ⟨by decide, List.all_eq_true.mp (by decide), by decide⟩
  exact ⟨hcode, labelledText_lines, hdefined,
    (jump_to_label hcode labelledText_lines hdefined 2).1.mpr (Or.inr ⟨hname, rfl⟩)⟩

/-- A number is not looked up, and other characters are refused. -/
theorem jump_missing_label :
    assemble labelledText 2 = .ok [Opcode.push.cell, 5] ∧
      ReadsText labelledText.toList labelledLines ∧
      DefinedAt labelledLines "1" 2 ∧ DefinedAt labelledLines "-" 2 ∧
      assemble (withJump labelledText "1") 4 =
        .ok [Opcode.push.cell, 5, Opcode.jump.cell, 1] ∧
      assemble (withJump labelledText "-") 4 = .error (.operandInvalid 5 "-") :=
  ⟨by decide +kernel, labelledText_lines, labelledText_defined "1" (by decide),
    labelledText_defined "-" (by decide), by decide +kernel, by decide +kernel⟩

end ClassLet
