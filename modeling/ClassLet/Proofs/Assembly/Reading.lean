import ClassLet.Proofs.Assembly.AcceptedTexts
import ClassLet.Proofs.Assembly.Placement

/-!
# Assembling the text of a listing

The text of a listing has one item a line. Its lines are those of the items, so the addresses that
the assembler finds for the labels are those of the listing, and so are the cells.

Main statement: `assemble_readable`, assembling the text of a readable listing gives its cells
exactly if they fit.
-/

namespace ClassLet

/-- The text can be the name of a label, and is no number. -/
structure LabelText (name : String) : Prop where
  nonempty : name.toList ≠ []
  chars : ∀ c ∈ name.toList, isLabelChar c = true
  notNumber : Decimal.parseCell? name.toList = none

/-- A listing whose labels can be told from numbers and are all defined. -/
structure Listing.Readable (l : Listing) : Prop extends l.Coherent where
  names : ∀ name ∈ labelNames l.items, LabelText name
  defined : ∀ i name, Item.instruction i ∈ l.items → i.operand = some (.label name) →
    name ∈ labelNames l.items

theorem LabelText.solid {name : String} (h : LabelText name) : SolidText name.toList where
  nonempty := h.nonempty
  solid := fun c hc => isSolid_of_isLabelChar (h.chars c hc)

/-!
# Single lines
-/

/-- The operands of the item can be read back. -/
def Item.Readable : Item → Prop
  | .instruction i => i.WellFormed ∧ ∀ name, i.operand = some (.label name) → LabelText name
  | .label name => LabelText name

theorem solidText_operand (operand : Operand) (h : ∀ name, operand = .label name → LabelText name) :
    SolidText operand.chars := by
  cases operand with
  | value v => exact (Decimal.numeral_text v.toInt).solidText
  | label name => exact (h name rfl).solid

/-- The line of an item, as it is read back. -/
def Item.line : Item → AssemblyLine
  | .instruction i => .instruction i.op (i.operand.map fun o => String.ofList o.chars)
  | .label name => .label name

theorem readsAs_item {item : Item} (h : item.Readable) :
    AssemblyLine.ReadsAs item.chars item.line := by
  cases item with
  | label name =>
      have hreads := AssemblyLine.ReadsAs.solid_label h.solid
      rw [String.ofList_toList] at hreads
      exact hreads
  | instruction i =>
      rcases i with ⟨op, operand, line⟩
      rcases h with ⟨hwell, hlabels⟩
      cases operand with
      | none => exact AssemblyLine.ReadsAs.solid_bare hwell.symm
      | some operand =>
          have hsolid := solidText_operand operand fun name hname =>
            hlabels name (congrArg some hname)
          exact AssemblyLine.ReadsAs.solid_applied hwell.symm hsolid

theorem not_newline_of_isSolid {c : Char} (h : isSolid c = true) : c ≠ '\n' := by
  rintro rfl
  exact absurd h (by decide)

theorem newline_not_mem_item {item : Item} (h : item.Readable) : '\n' ∉ item.chars := by
  have hsolid : ∀ {text : List Char}, SolidText text → '\n' ∉ text := fun htext hmem =>
    not_newline_of_isSolid (htext.solid _ hmem) rfl
  cases item with
  | label name => simpa [Item.chars] using hsolid h.solid
  | instruction i =>
      have hmnemonic := hsolid (solidText_mnemonic i.op)
      cases hoperand : i.operand with
      | none => simpa [Item.chars, Instruction.chars, hoperand] using hmnemonic
      | some operand =>
          have := hsolid (solidText_operand operand fun name hn =>
            h.2 name (hoperand.trans (congrArg some hn)))
          simpa [Item.chars, Instruction.chars, hoperand] using ⟨hmnemonic, this⟩

/-!
# All lines
-/

theorem linesSize_items (items : List Item) :
    linesSize (items.map Item.line) = cellCount items := by
  induction items with
  | nil => rfl
  | cons item items ih =>
      have hwidth : item.line.width = item.width := by
        cases item with
        | label name => rfl
        | instruction i => rfl
      show item.line.width + linesSize (items.map Item.line) = item.width + cellCount items
      rw [hwidth, ih]

theorem definedNames_items (items : List Item) :
    definedNames (items.map Item.line) = labelNames items := by
  unfold definedNames labelNames
  rw [List.filterMap_map]
  congr 1
  funext item
  cases item with
  | label name => rfl
  | instruction i => rfl

theorem addressFrom?_split {name : String} {items : List Item} {a b : Nat}
    (h : addressFrom? name a items = some b) :
    ∃ before after, items = before ++ .label name :: after ∧ b = a + cellCount before := by
  induction items generalizing a with
  | nil => cases h
  | cons item items ih =>
      cases item with
      | label k =>
          by_cases hk : k = name
          · subst hk
            rw [addressFrom?, if_pos rfl, Option.some.injEq] at h
            exact ⟨[], items, rfl, h.symm⟩
          · rw [addressFrom?, if_neg hk] at h
            rcases ih h with ⟨before, after, rfl, rfl⟩
            exact ⟨.label k :: before, after, rfl, by simp [Item.width]⟩
      | instruction i =>
          rcases ih h with ⟨before, after, rfl, rfl⟩
          exact ⟨.instruction i :: before, after, rfl, by simp [Item.width, Nat.add_assoc]⟩

namespace Listing

variable {l : Listing}

def lines (l : Listing) : List AssemblyLine :=
  l.items.map Item.line ++ [.blank]

theorem Readable.item (h : l.Readable) {item : Item} (hitem : item ∈ l.items) :
    item.Readable := by
  cases item with
  | label name => exact h.names name (List.mem_filterMap.mpr ⟨_, hitem, rfl⟩)
  | instruction i =>
      exact ⟨h.operands i hitem, fun name hname => h.names name (h.defined i name hitem hname)⟩

theorem Readable.readsText (h : l.Readable) : ReadsText l.text.toList l.lines where
  pieces := by
    refine ⟨l.items.map Item.chars ++ [[]], ?_, ?_⟩
    · have hended : ∀ line ∈ l.items.map Item.chars, '\n' ∉ line := by
        intro line hline
        rcases List.mem_map.mp hline with ⟨item, hitem, rfl⟩
        exact newline_not_mem_item (h.item hitem)
      have hlines := hasLines_ended hended
      rw [List.flatMap_map] at hlines
      rw [text, String.toList_ofList]
      exact hlines
    · apply List.rel_append
      · rw [List.forall₂_map_left_iff, List.forall₂_map_right_iff, List.forall₂_same]
        exact fun item hitem => readsAs_item (h.item hitem)
      · exact List.Forall₂.cons (AssemblyLine.ReadsAs.blank Blanks.nil) List.Forall₂.nil
  labels := by
    rw [lines, definedNames_append, definedNames_items]
    exact (List.append_nil (labelNames l.items)).symm ▸ h.labels

theorem definedAt_lines {name : String} {a : Nat} (h : l.address? name = some a) :
    DefinedAt l.lines name a := by
  rcases addressFrom?_split h with ⟨before, after, hitems, rfl⟩
  refine ⟨before.map Item.line, after.map Item.line ++ [.blank], ?_, ?_⟩
  · rw [lines, hitems]
    simp [Item.line]
  · rw [linesSize_items, Nat.zero_add]

/-- An instruction of the listing as it stands in the code. -/
def stored (l : Listing) (i : Instruction) : StoredInstruction :=
  { op := i.op, operand := i.operand.map l.operandCell }

theorem Readable.operandValue (h : l.Readable) {i : Instruction} {operand : Operand}
    (hi : .instruction i ∈ l.items) (hoperand : i.operand = some operand) :
    OperandValue l.lines (String.ofList operand.chars) (l.operandCell operand) := by
  cases operand with
  | value v =>
      apply OperandValue.number
      rw [String.toList_ofList]
      exact Decimal.numeral_text v.toInt
  | label name =>
      have hname := h.defined i name hi hoperand
      have htext := h.names name hname
      rcases addressFrom?_eq_some 0 hname with ⟨a, ha, _⟩
      have haddress : l.address? name = some a := ha
      rw [operandCell, target, haddress, Operand.chars, String.ofList_toList]
      exact OperandValue.label (Decimal.parseCell?_eq_none_iff.mp htext.notNumber) htext.chars
        (definedAt_lines haddress)

theorem encoded_items {names : List AssemblyLine} {items : List Item} (number : Nat)
    (hwell : ∀ i, .instruction i ∈ items → i.WellFormed)
    (hvalue : ∀ i operand, .instruction i ∈ items → i.operand = some operand →
      OperandValue names (String.ofList operand.chars) (l.operandCell operand)) :
    List.Forall₂ (EncodedAs names) (draftsFrom number (items.map Item.line))
      ((items.filterMap Item.instruction?).map l.stored) := by
  induction items generalizing number with
  | nil => exact List.Forall₂.nil
  | cons item items ih =>
      have hrest := ih (number + 1) (fun i hi => hwell i (List.mem_cons_of_mem _ hi))
        (fun i operand hi => hvalue i operand (List.mem_cons_of_mem _ hi))
      cases item with
      | label name => exact hrest
      | instruction i =>
          have hi := hwell i List.mem_cons_self
          have hoperand := fun operand => hvalue i operand List.mem_cons_self
          rcases i with ⟨op, operand, line⟩
          refine List.Forall₂.cons ?_ hrest
          cases operand with
          | none => exact EncodedAs.bare hi.symm
          | some operand => exact EncodedAs.applied hi.symm (hoperand operand rfl)

theorem Readable.encoded (h : l.Readable) :
    List.Forall₂ (EncodedAs l.lines) (draftsFrom 1 l.lines) (l.instructions.map l.stored) := by
  rw [lines, draftsFrom_append]
  simp only [draftsFrom, List.append_nil]
  exact encoded_items 1 h.operands fun i operand => h.operandValue

end Listing

/-!
# Cells
-/

theorem encode_eq_flatten (l : Listing) :
    l.encode = (l.instructions.map l.instructionCells).flatten := by
  have hall : ∀ items : List Item, items.flatMap l.itemCells =
      ((items.filterMap Item.instruction?).map l.instructionCells).flatten := by
    intro items
    induction items with
    | nil => rfl
    | cons item items ih =>
        cases item with
        | label name => simpa [List.filterMap_cons, Item.instruction?, Listing.itemCells] using ih
        | instruction i => simp [Item.instruction?, Listing.itemCells, ih]
  exact hall l.items

theorem Listing.mem_items_of_mem_instructions {l : Listing} {i : Instruction}
    (h : i ∈ l.instructions) : Item.instruction i ∈ l.items := by
  rcases List.mem_filterMap.mp h with ⟨item, hmem, hsome⟩
  cases item with
  | label name => cases hsome
  | instruction j =>
      cases hsome
      exact hmem

theorem codeSize_eq_cellCount (l : Listing) : l.codeSize = cellCount l.items := by
  have hall : ∀ items : List Item,
      (items.filterMap Item.instruction?).foldr (fun i size => i.op.width + size) 0 =
        cellCount items := by
    intro items
    induction items with
    | nil => rfl
    | cons item items ih =>
        cases item with
        | label name => simpa [List.filterMap_cons, Item.instruction?, Item.width] using ih
        | instruction i => simp [Item.instruction?, Item.width, ih]
  exact hall l.items

theorem assemble_readable {l : Listing} (h : l.Readable) (capacity : Nat) :
    assemble l.text capacity =
      if capacity < l.codeSize then .error (.tooLarge l.codeSize capacity) else .ok l.encode := by
  have hsize : linesSize l.lines = l.codeSize := by
    rw [Listing.lines, linesSize_append, linesSize_items, codeSize_eq_cellCount]
    rfl
  split
  · rename_i hlarge
    rw [← hsize] at hlarge ⊢
    exact assemble_of_fault (Or.inr ⟨l.lines, h.readsText, Or.inl ⟨hlarge, rfl⟩⟩)
  · rename_i hfits
    rw [← hsize, Nat.not_lt] at hfits
    rw [assemble_of_encoded h.readsText hfits h.encoded, encode_eq_flatten, List.flatMap_def,
      List.map_map]
    rfl

end ClassLet
