import ClassLet.Machine
import ClassLet.Proofs.Assembly.FirstPass
import ClassLet.Proofs.Text.Numerals

/-!
# Accepted texts

A text is accepted if its lines are in order, the code fits and every operand has a value. The
code is then a sequence of whole instructions, those of the text, and every label is the address of
one of them or the end of the code. Else the fault that is reported is the first of the first group
that has one: the lines, the size, the operands.

Main statement: `assemble_exact`.
-/

namespace ClassLet

/-!
# Instructions in the code
-/

/-- An instruction as it stands in the code. -/
structure StoredInstruction where
  op : Opcode
  operand : Option Int32
deriving DecidableEq, Repr

namespace StoredInstruction

def cells (i : StoredInstruction) : List Int32 :=
  i.op.cell :: i.operand.toList

/-- The operation has an operand exactly if it takes one. -/
def Whole (i : StoredInstruction) : Prop :=
  i.operand.isSome = i.op.hasOperand

end StoredInstruction

/-- The instructions from the first cell to the last one, each as wide as its operation. -/
def disassemble? : List Int32 → Option (List StoredInstruction)
  | [] => some []
  | cell :: rest =>
      match Opcode.decode? cell with
      | none => none
      | some op =>
          if op.hasOperand then
            match rest with
            | [] => none
            | value :: rest => (disassemble? rest).map ({ op, operand := some value } :: ·)
          else
            (disassemble? rest).map ({ op, operand := none } :: ·)

/-- Both the cells before the address and those from it on are whole instructions. -/
def InstructionBoundary (code : List Int32) (a : Nat) : Prop :=
  a ≤ code.length ∧
    (disassemble? (code.take a)).isSome = true ∧ (disassemble? (code.drop a)).isSome = true

/-- An address within an addressable size is the value of its cell. -/
theorem toInt_ofNat_of_addressable {size a : Nat} (haddressable : isAddressable size = true)
    (ha : a ≤ size) : (Int32.ofNat a).toInt = a := by
  simp only [isAddressable, decide_eq_true_eq, Int32.toInt_maxValue] at haddressable
  exact Int32.toInt_ofNat_of_lt (by omega)

theorem disassemble?_cells {instructions : List StoredInstruction}
    (h : ∀ i ∈ instructions, i.Whole) :
    disassemble? (instructions.flatMap StoredInstruction.cells) = some instructions := by
  induction instructions with
  | nil => rfl
  | cons i instructions ih =>
      have hi := h i List.mem_cons_self
      have hrest := ih fun j hj => h j (List.mem_cons_of_mem i hj)
      rcases i with ⟨op, operand⟩
      cases operand with
      | none =>
          have hop : op.hasOperand = false := hi.symm
          simp [StoredInstruction.cells, disassemble?, Opcode.decode?_cell, hop, hrest]
      | some value =>
          have hop : op.hasOperand = true := hi.symm
          simp [StoredInstruction.cells, disassemble?, Opcode.decode?_cell, hop, hrest]

theorem boundary_of_whole {front back : List StoredInstruction} (hfront : ∀ i ∈ front, i.Whole)
    (hback : ∀ i ∈ back, i.Whole) :
    InstructionBoundary ((front ++ back).flatMap StoredInstruction.cells)
      (front.flatMap StoredInstruction.cells).length := by
  rw [List.flatMap_append]
  constructor
  · rw [List.length_append]
    exact Nat.le_add_right _ _
  · rw [List.take_left, List.drop_left, disassemble?_cells hfront, disassemble?_cells hback]
    exact ⟨rfl, rfl⟩

/-!
# Operands
-/

/-- A number, or a defined label. -/
def Usable (lines : List AssemblyLine) (operand : String) : Prop :=
  (∃ v : Int32, Decimal.Numeral operand.toList v.toInt) ∨
    (∀ c ∈ operand.toList, isLabelChar c = true) ∧ operand ∈ definedNames lines

/-- The number that the operand is, or else the address of the label that it names. -/
inductive OperandValue (lines : List AssemblyLine) (operand : String) : Int32 → Prop where
  | number {v : Int32} :
      Decimal.Numeral operand.toList v.toInt →
      OperandValue lines operand v
  | label {a : Nat} :
      (∀ v : Int32, ¬Decimal.Numeral operand.toList v.toInt) →
      (∀ c ∈ operand.toList, isLabelChar c = true) →
      DefinedAt lines operand a →
      OperandValue lines operand (Int32.ofNat a)

inductive OperandFault (lines : List AssemblyLine) (number : Nat) (operand : String) :
    AssemblyError → Prop where
  | invalid :
      (∀ v : Int32, ¬Decimal.Numeral operand.toList v.toInt) →
      ¬(∀ c ∈ operand.toList, isLabelChar c = true) →
      OperandFault lines number operand (.operandInvalid number operand)
  | undefined :
      (∀ v : Int32, ¬Decimal.Numeral operand.toList v.toInt) →
      (∀ c ∈ operand.toList, isLabelChar c = true) →
      operand ∉ definedNames lines →
      OperandFault lines number operand (.labelUndefined operand)

section Operands

variable {lines : List AssemblyLine} {operand : String} {number : Nat}

theorem operandValue_or_fault (lines : List AssemblyLine) (number : Nat) (operand : String) :
    (∃ v, OperandValue lines operand v) ∨ ∃ err, OperandFault lines number operand err := by
  by_cases hnumber : ∃ v : Int32, Decimal.Numeral operand.toList v.toInt
  · rcases hnumber with ⟨v, hv⟩
    exact Or.inl ⟨v, OperandValue.number hv⟩
  rw [not_exists] at hnumber
  by_cases hchars : ∀ c ∈ operand.toList, isLabelChar c = true
  · by_cases hdefined : operand ∈ definedNames lines
    · rcases mem_definedNames_iff.mp hdefined with ⟨a, ha⟩
      exact Or.inl ⟨_, OperandValue.label hnumber hchars ha⟩
    · exact Or.inr ⟨_, OperandFault.undefined hnumber hchars hdefined⟩
  · exact Or.inr ⟨_, OperandFault.invalid hnumber hchars⟩

theorem OperandFault.not_usable {err : AssemblyError} (h : OperandFault lines number operand err) :
    ¬Usable lines operand := by
  intro husable
  cases h with
  | invalid hnumber hchars =>
      rcases husable with ⟨v, hv⟩ | ⟨hall, _⟩
      · exact hnumber v hv
      · exact hchars hall
  | undefined hnumber hchars hdefined =>
      rcases husable with ⟨v, hv⟩ | ⟨_, hmem⟩
      · exact hnumber v hv
      · exact hdefined hmem

theorem usable_iff : Usable lines operand ↔ ∃ v, OperandValue lines operand v := by
  constructor
  · intro h
    rcases operandValue_or_fault lines 0 operand with hvalue | ⟨err, hfault⟩
    · exact hvalue
    · exact absurd h hfault.not_usable
  · intro h
    rcases h with ⟨v, hvalue⟩
    cases hvalue with
    | number hv => exact Or.inl ⟨v, hv⟩
    | label _ hchars ha => exact Or.inr ⟨hchars, mem_definedNames_iff.mpr ⟨_, ha⟩⟩

variable {labels : NameMap Nat} (hlabels : ∀ name a, labels.find? name = some a ↔
  DefinedAt lines name a)

include hlabels

theorem operandCell_of_value {v : Int32} (h : OperandValue lines operand v) :
    DraftInstruction.operandCell labels number operand = .ok v := by
  unfold DraftInstruction.operandCell
  cases h with
  | number hv => rw [Decimal.parseCell?_eq_some_iff.mpr hv]
  | label hnumber hchars ha =>
      rw [Decimal.parseCell?_eq_none_iff.mpr hnumber, (hlabels _ _).mpr ha]
      simp only [List.all_eq_true.mpr hchars, if_true]

theorem operandCell_of_fault {err : AssemblyError} (h : OperandFault lines number operand err) :
    DraftInstruction.operandCell labels number operand = .error err := by
  unfold DraftInstruction.operandCell
  cases h with
  | invalid hnumber hchars =>
      rw [← List.all_eq_true] at hchars
      rw [Decimal.parseCell?_eq_none_iff.mpr hnumber]
      simp only [hchars]
      rfl
  | undefined hnumber hchars hdefined =>
      have hnone : labels.find? operand = none := by
        apply Option.eq_none_iff_forall_ne_some.mpr
        intro a ha
        exact hdefined (mem_definedNames_iff.mpr ⟨a, (hlabels _ _).mp ha⟩)
      rw [Decimal.parseCell?_eq_none_iff.mpr hnumber, hnone]
      simp only [List.all_eq_true.mpr hchars, if_true]

end Operands

/-!
# Encoding
-/

/-- How an instruction of the text stands in the code. -/
inductive EncodedAs (lines : List AssemblyLine) : DraftInstruction → StoredInstruction → Prop where
  | bare {number : Nat} {op : Opcode} :
      op.hasOperand = false →
      EncodedAs lines { line := number, op, operand := none } { op, operand := none }
  | applied {number : Nat} {op : Opcode} {operand : String} {v : Int32} :
      op.hasOperand = true →
      OperandValue lines operand v →
      EncodedAs lines { line := number, op, operand := some operand } { op, operand := some v }

/-- The error is about the first operand that has no value. -/
def FirstOperandFault (lines : List AssemblyLine) (err : AssemblyError) : Prop :=
  ∃ before instructions number op operand after,
    draftsFrom 1 lines = before ++ { line := number, op, operand := some operand } :: after ∧
      List.Forall₂ (EncodedAs lines) before instructions ∧ OperandFault lines number operand err

section Encoding

variable {lines : List AssemblyLine}

theorem EncodedAs.whole {draft : DraftInstruction} {i : StoredInstruction}
    (h : EncodedAs lines draft i) : i.Whole := by
  cases h with
  | bare hop => exact hop.symm
  | applied hop _ => exact hop.symm

theorem whole_of_encoded {drafts : List DraftInstruction} {instructions : List StoredInstruction}
    (h : List.Forall₂ (EncodedAs lines) drafts instructions) : ∀ i ∈ instructions, i.Whole := by
  induction h with
  | nil => exact List.forall_mem_nil _
  | cons hi _ ih => exact List.forall_mem_cons.mpr ⟨hi.whole, ih⟩

/-- The code of the instructions takes the cells that are counted for the lines. -/
theorem length_of_encoded {names : List AssemblyLine} {number : Nat}
    {instructions : List StoredInstruction}
    (h : List.Forall₂ (EncodedAs names) (draftsFrom number lines) instructions) :
    (instructions.flatMap StoredInstruction.cells).length = linesSize lines := by
  induction lines generalizing number instructions with
  | nil =>
      cases h
      rfl
  | cons line lines ih =>
      cases line with
      | blank => simpa [linesSize, AssemblyLine.width] using ih h
      | label name => simpa [linesSize, AssemblyLine.width] using ih h
      | instruction op operand =>
          cases h with
          | @cons _ i _ rest hi hrest =>
              have hwidth : i.cells.length = op.width := by
                cases hi with
                | bare hop => simp [StoredInstruction.cells, Opcode.width, hop]
                | applied hop _ => simp [StoredInstruction.cells, Opcode.width, hop]
              rw [List.flatMap_cons, List.length_append, hwidth, ih hrest]
              rfl

theorem forall₂_append_left {α β : Type} {R : α → β → Prop} {xs ys : List α} {zs : List β}
    (h : List.Forall₂ R (xs ++ ys) zs) :
    ∃ front back, zs = front ++ back ∧ List.Forall₂ R xs front ∧ List.Forall₂ R ys back := by
  have hflip : List.Forall₂ (flip R) zs (xs ++ ys) := h.flip
  exact ⟨_, _, (List.take_append_drop xs.length zs).symm,
    (List.forall₂_take_append _ _ _ hflip).flip, (List.forall₂_drop_append _ _ _ hflip).flip⟩

/-- A label stands between the instructions before its definition and those after it. -/
theorem boundary_of_definedAt {instructions : List StoredInstruction}
    (h : List.Forall₂ (EncodedAs lines) (draftsFrom 1 lines) instructions) {name : String} {a : Nat}
    (ha : DefinedAt lines name a) :
    InstructionBoundary (instructions.flatMap StoredInstruction.cells) a := by
  have hsplit := h
  rcases ha with ⟨before, after, hlines, rfl⟩
  have hdrafts : draftsFrom 1 lines =
      draftsFrom 1 before ++ draftsFrom (1 + before.length) (.label name :: after) := by
    rw [hlines, draftsFrom_append]
  rw [hdrafts] at hsplit
  rcases forall₂_append_left hsplit with ⟨front, back, rfl, hfront, hback⟩
  rw [← length_of_encoded hfront]
  exact boundary_of_whole (whole_of_encoded hfront) (whole_of_encoded hback)

theorem mem_draftsFrom {number : Nat} {i : DraftInstruction} (h : i ∈ draftsFrom number lines) :
    AssemblyLine.instruction i.op i.operand ∈ lines := by
  induction lines generalizing number with
  | nil => cases h
  | cons line lines ih =>
      cases line with
      | blank => exact List.mem_cons_of_mem _ (ih h)
      | label name => exact List.mem_cons_of_mem _ (ih h)
      | instruction op operand =>
          rcases List.mem_cons.mp h with rfl | h
          · exact List.mem_cons_self
          · exact List.mem_cons_of_mem _ (ih h)

theorem exists_mem_draftsFrom (number : Nat) {op : Opcode} {operand : Option String}
    (h : AssemblyLine.instruction op operand ∈ lines) :
    ∃ line, { line, op, operand } ∈ draftsFrom number lines := by
  rcases List.append_of_mem h with ⟨before, after, rfl⟩
  rw [draftsFrom_append]
  exact ⟨_, List.mem_append_right _ List.mem_cons_self⟩

/-- The operations of the lines have an operand exactly if they take one. -/
theorem ReadsText.hasOperand {text : List Char} (h : ReadsText text lines) {op : Opcode}
    {operand : Option String} (hmem : AssemblyLine.instruction op operand ∈ lines) :
    operand.isSome = op.hasOperand := by
  rcases h.pieces with ⟨pieces, hpieces, hreads⟩
  clear h hpieces
  induction hreads with
  | nil => cases hmem
  | cons hline _ ih =>
      rcases List.mem_cons.mp hmem with rfl | hrest
      · cases hline with
        | bare _ _ hop => exact hop.symm
        | applied _ _ hop => exact hop.symm
      · exact ih hrest

/-- The instructions can be encoded, or there is a first one whose operand has no value. -/
theorem encoded_or_fault {text : List Char} (h : ReadsText text lines) :
    (∃ instructions, List.Forall₂ (EncodedAs lines) (draftsFrom 1 lines) instructions) ∨
      ∃ err, FirstOperandFault lines err := by
  suffices hall : ∀ (after before : List DraftInstruction) (instructions : List StoredInstruction),
      draftsFrom 1 lines = before ++ after →
      List.Forall₂ (EncodedAs lines) before instructions →
      (∃ instructions, List.Forall₂ (EncodedAs lines) (draftsFrom 1 lines) instructions) ∨
        ∃ err, FirstOperandFault lines err from
    hall (draftsFrom 1 lines) [] [] rfl List.Forall₂.nil
  intro after
  induction after with
  | nil =>
      intro before instructions hsplit hencoded
      rw [List.append_nil] at hsplit
      exact Or.inl ⟨instructions, hsplit ▸ hencoded⟩
  | cons draft after ih =>
      intro before instructions hsplit hencoded
      have hmem : draft ∈ draftsFrom 1 lines := by
        rw [hsplit]
        exact List.mem_append_right _ List.mem_cons_self
      have hoperand := h.hasOperand (mem_draftsFrom hmem)
      have hnext : ∀ i, EncodedAs lines draft i → _ := fun i hi =>
        ih (before ++ [draft]) (instructions ++ [i])
          (by rw [hsplit, List.append_assoc, List.singleton_append])
          (List.rel_append hencoded (List.Forall₂.cons hi List.Forall₂.nil))
      rcases draft with ⟨number, op, operand⟩
      cases operand with
      | none => exact hnext _ (EncodedAs.bare hoperand.symm)
      | some operand =>
          rcases operandValue_or_fault lines number operand with ⟨v, hv⟩ | ⟨err, hfault⟩
          · exact hnext _ (EncodedAs.applied hoperand.symm hv)
          · exact Or.inr ⟨err, before, instructions, number, op, operand, after, hsplit, hencoded,
              hfault⟩

theorem encoded_iff_usable {text : List Char} (h : ReadsText text lines) :
    (∃ instructions, List.Forall₂ (EncodedAs lines) (draftsFrom 1 lines) instructions) ↔
      ∀ op operand, AssemblyLine.instruction op (some operand) ∈ lines → Usable lines operand := by
  constructor
  · intro hencoded op operand hmem
    rcases hencoded with ⟨instructions, hencoded⟩
    rcases exists_mem_draftsFrom 1 hmem with ⟨number, hdraft⟩
    rcases List.append_of_mem hdraft with ⟨before, after, hsplit⟩
    rw [hsplit] at hencoded
    rcases forall₂_append_left hencoded with ⟨front, back, _, _, hback⟩
    cases hback with
    | cons hi _ =>
        cases hi with
        | applied _ hvalue => exact usable_iff.mpr ⟨_, hvalue⟩
  · intro husable
    rcases encoded_or_fault h with hencoded | ⟨err, before, _, number, op, operand, after, hsplit,
      _, hfault⟩
    · exact hencoded
    · have hmem : AssemblyLine.instruction op (some operand) ∈ lines :=
        mem_draftsFrom (i := { line := number, op, operand := some operand }) (by
          rw [hsplit]
          exact List.mem_append_right _ List.mem_cons_self)
      exact absurd (husable op operand hmem) hfault.not_usable

variable {labels : NameMap Nat} (hlabels : ∀ name a, labels.find? name = some a ↔
  DefinedAt lines name a)

include hlabels

theorem cells_of_encoded {draft : DraftInstruction} {i : StoredInstruction}
    (h : EncodedAs lines draft i) : draft.cells labels = .ok i.cells := by
  cases h with
  | bare _ => rfl
  | applied _ hvalue =>
      simp only [DraftInstruction.cells, operandCell_of_value hlabels hvalue]
      rfl

theorem mapM_cells_of_encoded {drafts : List DraftInstruction}
    {instructions : List StoredInstruction}
    (h : List.Forall₂ (EncodedAs lines) drafts instructions) :
    drafts.mapM (DraftInstruction.cells labels) =
      .ok (instructions.map StoredInstruction.cells) := by
  induction h with
  | nil => rfl
  | cons hi _ ih =>
      rw [List.mapM_cons, cells_of_encoded hlabels hi, ih]
      rfl

theorem mapM_cells_of_fault {err : AssemblyError} (h : FirstOperandFault lines err) :
    (draftsFrom 1 lines).mapM (DraftInstruction.cells labels) = .error err := by
  rcases h with ⟨before, instructions, number, op, operand, after, hsplit, hbefore, hfault⟩
  rw [hsplit, List.mapM_append, mapM_cells_of_encoded hlabels hbefore, List.mapM_cons,
    DraftInstruction.cells]
  simp only [operandCell_of_fault hlabels hfault]
  rfl

end Encoding

/-!
# The assembler
-/

section Assembler

variable {text : String} {capacity : Nat} {lines : List AssemblyLine} {err : AssemblyError}

/-- The errors of a text, in the order of their groups. -/
def AssemblyFault (text : List Char) (capacity : Nat) (err : AssemblyError) : Prop :=
  FirstLineFault text err ∨
    ∃ lines, ReadsText text lines ∧
      (capacity < linesSize lines ∧ err = .tooLarge (linesSize lines) capacity ∨
        linesSize lines ≤ capacity ∧ FirstOperandFault lines err)

theorem assemble_of_fault (h : AssemblyFault text.toList capacity err) :
    assemble text capacity = .error err := by
  unfold assemble assembleChars
  rcases h with hline | ⟨lines, hlines, hrest⟩
  · rw [Draft.read_of_fault hline]
    rfl
  · rcases Draft.read_of_readsText hlines with ⟨d, hread, hholds⟩
    rw [hread]
    show (if capacity < d.size then _ else _) = _
    rw [hholds.size]
    rcases hrest with ⟨hlarge, rfl⟩ | ⟨hfits, hfault⟩
    · rw [if_pos hlarge]
      rfl
    · rw [if_neg (Nat.not_lt.mpr hfits)]
      show (List.mapM _ _ >>= _) = _
      rw [hholds.instructions, mapM_cells_of_fault hholds.labels hfault]
      rfl

theorem assemble_of_encoded {instructions : List StoredInstruction}
    (hlines : ReadsText text.toList lines) (hfits : linesSize lines ≤ capacity)
    (hencoded : List.Forall₂ (EncodedAs lines) (draftsFrom 1 lines) instructions) :
    assemble text capacity = .ok (instructions.flatMap StoredInstruction.cells) := by
  unfold assemble assembleChars
  rcases Draft.read_of_readsText hlines with ⟨d, hread, hholds⟩
  rw [hread]
  show (if capacity < d.size then _ else _) = _
  rw [hholds.size, if_neg (Nat.not_lt.mpr hfits)]
  show (List.mapM _ _ >>= _) = _
  rw [hholds.instructions, mapM_cells_of_encoded hholds.labels hencoded, List.flatMap_def]
  rfl

theorem encoded_or_assemblyFault (text : List Char) (capacity : Nat) :
    (∃ lines instructions, ReadsText text lines ∧ linesSize lines ≤ capacity ∧
      List.Forall₂ (EncodedAs lines) (draftsFrom 1 lines) instructions) ∨
      ∃ err, AssemblyFault text capacity err := by
  rcases readsText_or_fault text with ⟨lines, hlines⟩ | ⟨err, hfault⟩
  · rcases Nat.lt_or_ge capacity (linesSize lines) with hlarge | hfits
    · exact Or.inr ⟨_, Or.inr ⟨lines, hlines, Or.inl ⟨hlarge, rfl⟩⟩⟩
    · rcases encoded_or_fault hlines with ⟨instructions, hencoded⟩ | ⟨err, hfault⟩
      · exact Or.inl ⟨lines, instructions, hlines, hfits, hencoded⟩
      · exact Or.inr ⟨err, Or.inr ⟨lines, hlines, Or.inr ⟨hfits, hfault⟩⟩⟩
  · exact Or.inr ⟨err, Or.inl hfault⟩

theorem assemble_eq_ok {code : List Int32} (h : assemble text capacity = .ok code) :
    ∃ lines instructions, ReadsText text.toList lines ∧ linesSize lines ≤ capacity ∧
      List.Forall₂ (EncodedAs lines) (draftsFrom 1 lines) instructions ∧
      code = instructions.flatMap StoredInstruction.cells := by
  rcases encoded_or_assemblyFault text.toList capacity with
    ⟨lines, instructions, hlines, hfits, hencoded⟩ | ⟨err, hfault⟩
  · rw [assemble_of_encoded hlines hfits hencoded, Except.ok.injEq] at h
    exact ⟨lines, instructions, hlines, hfits, hencoded, h.symm⟩
  · rw [assemble_of_fault hfault] at h
    cases h

theorem assemble_eq_error_iff :
    assemble text capacity = .error err ↔ AssemblyFault text.toList capacity err := by
  constructor
  · intro h
    rcases encoded_or_assemblyFault text.toList capacity with
      ⟨lines, instructions, hlines, hfits, hencoded⟩ | ⟨err', hfault⟩
    · rw [assemble_of_encoded hlines hfits hencoded] at h
      cases h
    · rw [assemble_of_fault hfault, Except.error.injEq] at h
      exact h ▸ hfault
  · exact assemble_of_fault

end Assembler

/-- Which texts are accepted, what their code is, and which error the others give. -/
theorem assemble_exact (text : String) (capacity : Nat) :
    ((∃ code, assemble text capacity = .ok code) ↔
      ∃ lines, ReadsText text.toList lines ∧ linesSize lines ≤ capacity ∧
        ∀ op operand, AssemblyLine.instruction op (some operand) ∈ lines →
          Usable lines operand) ∧
    (∀ code, assemble text capacity = .ok code →
      ∃ lines instructions, ReadsText text.toList lines ∧
        disassemble? code = some instructions ∧
        List.Forall₂ (EncodedAs lines) (draftsFrom 1 lines) instructions ∧
        ∀ name a, DefinedAt lines name a →
          InstructionBoundary code a ∧
          (isAddressable code.length = true → (Int32.ofNat a).toInt = a)) ∧
    ∀ err, assemble text capacity = .error err ↔ AssemblyFault text.toList capacity err := by
  refine ⟨?_, ?_, fun err => assemble_eq_error_iff⟩
  · constructor
    · intro h
      rcases h with ⟨code, hcode⟩
      rcases assemble_eq_ok hcode with ⟨lines, instructions, hlines, hfits, hencoded, _⟩
      exact ⟨lines, hlines, hfits, (encoded_iff_usable hlines).mp ⟨instructions, hencoded⟩⟩
    · intro h
      rcases h with ⟨lines, hlines, hfits, husable⟩
      rcases (encoded_iff_usable hlines).mpr husable with ⟨instructions, hencoded⟩
      exact ⟨_, assemble_of_encoded hlines hfits hencoded⟩
  · intro code hcode
    rcases assemble_eq_ok hcode with ⟨lines, instructions, hlines, _, hencoded, rfl⟩
    refine ⟨lines, instructions, hlines, disassemble?_cells (whole_of_encoded hencoded), hencoded,
      ?_⟩
    intro name a ha
    have hboundary := boundary_of_definedAt hencoded ha
    exact ⟨hboundary, fun hsize => toInt_ofNat_of_addressable hsize hboundary.1⟩

/-- Jumps to a label that comes later and to one that comes earlier; the last line is a label. -/
def crossedText : String :=
  "again:\n push  -3\n\n b end_1 \nb again\n end_1 : "

theorem assemble_exact_crossed :
    assemble crossedText 6 = .ok [Opcode.push.cell, -3, Opcode.jump.cell, 6, Opcode.jump.cell, 0] ∧
      (∃ lines instructions, ReadsText crossedText.toList lines ∧
        disassemble? [Opcode.push.cell, -3, Opcode.jump.cell, 6, Opcode.jump.cell, 0] =
          some instructions ∧
        List.Forall₂ (EncodedAs lines) (draftsFrom 1 lines) instructions ∧
        ∀ name a, DefinedAt lines name a →
          InstructionBoundary [Opcode.push.cell, -3, Opcode.jump.cell, 6, Opcode.jump.cell, 0] a ∧
          (isAddressable 6 = true → (Int32.ofNat a).toInt = a)) ∧
      AssemblyFault crossedText.toList 5 (.tooLarge 6 5) := by
  have hcode : assemble crossedText 6 =
      .ok [Opcode.push.cell, -3, Opcode.jump.cell, 6, Opcode.jump.cell, 0] := by decide +kernel
  have hlarge : assemble crossedText 5 = .error (.tooLarge 6 5) := by decide +kernel
  exact ⟨hcode, (assemble_exact crossedText 6).2.1 _ hcode,
    ((assemble_exact crossedText 5).2.2 _).mp hlarge⟩

end ClassLet
