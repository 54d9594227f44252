import ClassLet.Proofs.Assembly.Reading

/-!
# Encoding without a detour over text

The cells of a listing can be read off its items: each instruction gives its operation and its
operand, and a label stands for the size of the instructions before its definition. Printing a
listing and assembling the text gives the same cells, or reports that they do not fit.

Main statement: `assemble_direct`.
-/

namespace ClassLet

/-!
# Cells of a listing
-/

namespace Listing

/-- The number of code cells of the instructions before the definition of a label. -/
def sizeBefore (l : Listing) (name : String) : Nat :=
  cellCount (l.items.takeWhile fun item => item ≠ .label name)

def directOperand (l : Listing) : Operand → Int32
  | .value v => v
  | .label name => Int32.ofNat (l.sizeBefore name)

def directCells (l : Listing) : List Int32 :=
  l.instructions.flatMap fun i => i.op.cell :: (i.operand.map l.directOperand).toList

end Listing

theorem cellCount_le_of_prefix {xs ys : List Item} (h : xs <+: ys) :
    cellCount xs ≤ cellCount ys := by
  rcases h with ⟨rest, rfl⟩
  rw [cellCount_append]
  exact Nat.le_add_right _ _

theorem addressFrom?_eq_sizeBefore {name : String} {items : List Item} (a : Nat)
    (h : name ∈ labelNames items) :
    addressFrom? name a items =
      some (a + cellCount (items.takeWhile fun item => item ≠ .label name)) := by
  induction items generalizing a with
  | nil => cases h
  | cons item items ih =>
      cases item with
      | instruction i =>
          have hrest : name ∈ labelNames items := h
          rw [addressFrom?, ih _ hrest, List.takeWhile_cons_of_pos (by simp), cellCount_cons,
            Item.width, Nat.add_assoc]
      | label n =>
          by_cases hn : n = name
          · rw [addressFrom?, if_pos hn, List.takeWhile_cons_of_neg (by simp [hn])]
            rfl
          · have hrest : name ∈ labelNames items := by
              rcases List.mem_cons.mp h with heq | hmem
              · exact absurd heq.symm hn
              · exact hmem
            rw [addressFrom?, if_neg hn, ih _ hrest, List.takeWhile_cons_of_pos (by simp [hn]),
              cellCount_cons, Item.width, Nat.zero_add]

namespace Listing

variable {l : Listing}

theorem target_eq_sizeBefore {name : String} (h : name ∈ labelNames l.items) :
    l.target name = Int32.ofNat (l.sizeBefore name) := by
  rw [target, address?, addressFrom?_eq_sizeBefore 0 h, Nat.zero_add]
  rfl

theorem sizeBefore_le (name : String) : l.sizeBefore name ≤ l.codeSize := by
  rw [codeSize_eq_cellCount]
  exact cellCount_le_of_prefix (List.takeWhile_prefix _)

/-- The address of a label is a number of cells if the code is addressable. -/
theorem toInt_directOperand_label (haddressable : isAddressable l.codeSize = true)
    (name : String) : (l.directOperand (.label name)).toInt = l.sizeBefore name :=
  toInt_ofNat_of_addressable haddressable (l.sizeBefore_le name)

theorem Readable.encode_eq_directCells (h : l.Readable) : l.encode = l.directCells := by
  rw [encode_eq_flatten, directCells, List.flatMap_def]
  congr 1
  refine List.map_congr_left fun i hi => ?_
  rw [instructionCells]
  cases hoperand : i.operand with
  | none => rfl
  | some operand =>
      cases operand with
      | value v => rfl
      | label name =>
          have hdefined := h.defined i name (mem_items_of_mem_instructions hi) hoperand
          simp only [Option.map_some, operandCell, directOperand, target_eq_sizeBefore hdefined]

end Listing

theorem assemble_direct {l : Listing} (h : l.Readable) (capacity : Nat) :
    assemble l.text capacity =
        (if capacity < l.codeSize then .error (.tooLarge l.codeSize capacity)
          else .ok l.directCells) ∧
      (isAddressable l.codeSize = true → ∀ name,
        (l.directOperand (.label name)).toInt = l.sizeBefore name) := by
  rw [assemble_readable h, h.encode_eq_directCells]
  exact ⟨rfl, Listing.toInt_directOperand_label⟩

/-- Jumps forwards, and pushes a number and an address that lies before. -/
def crossing : Listing where
  items := [
    .instruction { op := .jump, operand := some (.label "end_1"), line := 1 },
    .label "sub0",
    .instruction { op := .push, operand := some (.value (-5)), line := 2 },
    .label "end_1",
    .instruction { op := .push, operand := some (.label "sub0"), line := 0 },
    .instruction { op := .halt, operand := none, line := 3 }]

theorem crossing_readable : crossing.Readable where
  operands := by simp [crossing, Instruction.WellFormed, Opcode.hasOperand]
  labels := by decide
  names := by
    intro name hname
    have hcases : "sub0" = name ∨ "end_1" = name := by
      simpa [crossing, labelNames, Item.labelName?] using hname
    rcases hcases with rfl | rfl
    · exact ⟨by decide, List.all_eq_true.mp (by decide), by decide⟩
    · exact ⟨by decide, List.all_eq_true.mp (by decide), by decide⟩
  defined := by
    intro i name hi hoperand
    simp only [crossing, List.mem_cons, Item.instruction.injEq, reduceCtorEq, List.not_mem_nil,
      or_false, false_or] at hi
    rcases hi with rfl | rfl | rfl | rfl
    · cases hoperand
      decide
    · cases hoperand
    · cases hoperand
      decide
    · cases hoperand

theorem assemble_direct_crossing :
    crossing.Readable ∧ crossing.text = "b end_1\nsub0:\npush -5\nend_1:\npush sub0\nhalt\n" ∧
      assemble crossing.text 6 = .error (.tooLarge 7 6) ∧
      assemble crossing.text 7 = .ok [Opcode.jump.cell, 4, Opcode.push.cell, -5,
        Opcode.push.cell, 2, Opcode.halt.cell] :=
  ⟨crossing_readable, by decide, (assemble_direct crossing_readable 6).1,
    (assemble_direct crossing_readable 7).1⟩

end ClassLet
