import ClassLet.Assembly.Listing

/-!
# Where items are placed

The code cells of a listing are those of its instructions, one after the other; a label takes no
cell and stands for the number of cells before it. `CodeAt` says that given items are placed from
some cell on.

Main statements: `CodeAt.opcode`, `CodeAt.operand` and `CodeAt.address`, the cells and the labels of
placed items are where the items say.
-/

namespace ClassLet

theorem Opcode.width_pos (op : Opcode) : 0 < op.width := by
  unfold width
  split <;> decide

namespace Item

def width : Item → Nat
  | instruction i => i.op.width
  | label _ => 0

def labelName? : Item → Option String
  | instruction _ => none
  | label name => some name

/-- The item without the line it was generated for. -/
def plain : Item → Item
  | instruction i => instruction { i with line := 0 }
  | label name => label name

end Item

/-- The number of code cells of a list of items. -/
def cellCount (items : List Item) : Nat :=
  items.foldr (fun item count => item.width + count) 0

@[simp]
theorem cellCount_nil : cellCount [] = 0 :=
  rfl

@[simp]
theorem cellCount_cons (item : Item) (items : List Item) :
    cellCount (item :: items) = item.width + cellCount items :=
  rfl

@[simp]
theorem cellCount_append (xs ys : List Item) :
    cellCount (xs ++ ys) = cellCount xs + cellCount ys := by
  induction xs with
  | nil => simp
  | cons item xs ih => simp [ih, Nat.add_assoc]

/-- The labels that a list of items defines. -/
def labelNames (items : List Item) : List String :=
  items.filterMap Item.labelName?

@[simp]
theorem labelNames_append (xs ys : List Item) :
    labelNames (xs ++ ys) = labelNames xs ++ labelNames ys :=
  List.filterMap_append

/-!
# Addresses of labels
-/

/-- The first cell behind the definition of a label, in a list of items placed at a cell. -/
def addressFrom? (name : String) : Nat → List Item → Option Nat
  | _, [] => none
  | a, .label n :: rest => if n = name then some a else addressFrom? name a rest
  | a, .instruction i :: rest => addressFrom? name (a + i.op.width) rest

theorem addressFrom?_append {name : String} (xs ys : List Item) (a : Nat)
    (hxs : name ∉ labelNames xs) :
    addressFrom? name a (xs ++ ys) = addressFrom? name (a + cellCount xs) ys := by
  induction xs generalizing a with
  | nil => rfl
  | cons item xs ih =>
      cases item with
      | label n =>
          simp only [labelNames, List.filterMap_cons, Item.labelName?, List.mem_cons, not_or] at hxs
          have hne : ¬n = name := fun h => hxs.1 h.symm
          simp only [List.cons_append, addressFrom?, if_neg hne, cellCount_cons, Item.width,
            Nat.zero_add]
          exact ih a hxs.2
      | instruction i =>
          simp only [List.cons_append, addressFrom?, cellCount_cons, Item.width]
          rw [ih (a + i.op.width) hxs, Nat.add_assoc]

theorem addressFrom?_eq_some {name : String} {items : List Item} (a : Nat)
    (h : name ∈ labelNames items) :
    ∃ b, addressFrom? name a items = some b ∧ a ≤ b ∧ b ≤ a + cellCount items := by
  induction items generalizing a with
  | nil => cases h
  | cons item items ih =>
      cases item with
      | label n =>
          by_cases hn : n = name
          · exact ⟨a, by simp [addressFrom?, hn], Nat.le_refl a, Nat.le_add_right a _⟩
          · simp only [labelNames, List.filterMap_cons, Item.labelName?, List.mem_cons] at h
            rcases h with h | h
            · exact absurd h.symm hn
            · rcases ih a h with ⟨b, hb, hle, hle'⟩
              exact ⟨b, by simpa [addressFrom?, hn] using hb, hle, by simpa [Item.width] using hle'⟩
      | instruction i =>
          rcases ih (a + i.op.width) h with ⟨b, hb, hle, hle'⟩
          refine ⟨b, by simpa [addressFrom?] using hb, ?_, ?_⟩
          · omega
          · simp only [cellCount_cons, Item.width]
            omega

/-!
# Cells
-/

namespace Listing

def address? (l : Listing) (name : String) : Option Nat :=
  addressFrom? name 0 l.items

/-- The address of a label as a code cell holds it. -/
def target (l : Listing) (name : String) : Int32 :=
  Int32.ofNat ((l.address? name).getD 0)

def operandCell (l : Listing) : Operand → Int32
  | .value v => v
  | .label name => l.target name

def instructionCells (l : Listing) (i : Instruction) : List Int32 :=
  i.op.cell :: (i.operand.map l.operandCell).toList

def itemCells (l : Listing) : Item → List Int32
  | .instruction i => l.instructionCells i
  | .label _ => []

/-- The code cells of a listing. -/
def encode (l : Listing) : List Int32 :=
  l.items.flatMap l.itemCells

end Listing

/-- The instruction has an operand exactly if its operation takes one. -/
def Instruction.WellFormed (i : Instruction) : Prop :=
  i.operand.isSome = i.op.hasOperand

/-- The instructions of the listing have their operands, and its labels are different. -/
structure Listing.Coherent (l : Listing) : Prop where
  operands : ∀ i, Item.instruction i ∈ l.items → i.WellFormed
  labels : (labelNames l.items).Nodup

theorem Instruction.WellFormed.length_cells {i : Instruction} (h : i.WellFormed) (l : Listing) :
    (l.instructionCells i).length = i.op.width := by
  unfold WellFormed at h
  unfold Listing.instructionCells Opcode.width
  cases hoperand : i.operand with
  | none =>
      rw [hoperand] at h
      simp [← h]
  | some operand =>
      rw [hoperand] at h
      simp [← h]

theorem length_flatMap_itemCells (l : Listing) {items : List Item}
    (h : ∀ i, Item.instruction i ∈ items → i.WellFormed) :
    (items.flatMap l.itemCells).length = cellCount items := by
  induction items with
  | nil => rfl
  | cons item items ih =>
      have hrest := ih fun i hi => h i (List.mem_cons_of_mem _ hi)
      cases item with
      | label name => simpa [Listing.itemCells, Item.width] using hrest
      | instruction i =>
          have hlen := (h i List.mem_cons_self).length_cells l
          simp [Listing.itemCells, Item.width, hlen, hrest]

theorem Listing.Coherent.length_encode {l : Listing} (h : l.Coherent) :
    l.encode.length = cellCount l.items :=
  length_flatMap_itemCells l h.operands

/-!
# Placed items
-/

/-- The items, up to the lines they were generated for, are placed from the given cell on. -/
def CodeAt (l : Listing) (a : Nat) (items : List Item) : Prop :=
  ∃ pre placed post, l.items = pre ++ placed ++ post ∧ placed.map Item.plain = items ∧
    a = cellCount pre

@[simp]
theorem width_plain (item : Item) : item.plain.width = item.width := by
  cases item <;> rfl

theorem cellCount_plain (items : List Item) :
    cellCount (items.map Item.plain) = cellCount items := by
  induction items with
  | nil => rfl
  | cons item items ih => simp [ih]

namespace CodeAt

theorem left {l : Listing} {a : Nat} {xs ys : List Item} (h : CodeAt l a (xs ++ ys)) :
    CodeAt l a xs := by
  rcases h with ⟨pre, placed, post, hsplit, hplain, ha⟩
  rcases List.map_eq_append_iff.mp hplain with ⟨us, vs, rfl, hus, _⟩
  exact ⟨pre, us, vs ++ post, by simp [hsplit], hus, ha⟩

theorem right {l : Listing} {a : Nat} {xs ys : List Item} (h : CodeAt l a (xs ++ ys)) :
    CodeAt l (a + cellCount xs) ys := by
  rcases h with ⟨pre, placed, post, hsplit, hplain, ha⟩
  rcases List.map_eq_append_iff.mp hplain with ⟨us, vs, rfl, hus, hvs⟩
  refine ⟨pre ++ us, vs, post, by simp [hsplit], hvs, ?_⟩
  rw [ha, cellCount_append, ← hus, cellCount_plain]

theorem tail {l : Listing} {a : Nat} {item : Item} {rest : List Item}
    (h : CodeAt l a (item :: rest)) : CodeAt l (a + item.width) rest :=
  @right l a [item] rest h

/-- The first item with the items around it. -/
theorem head_split {l : Listing} {a : Nat} {item : Item} {rest : List Item}
    (h : CodeAt l a (item :: rest)) :
    ∃ pre placed post, l.items = pre ++ placed :: post ∧ placed.plain = item ∧
      a = cellCount pre := by
  rcases h with ⟨pre, placed, post, hsplit, hplain, ha⟩
  rcases List.map_eq_cons_iff.mp hplain with ⟨first, others, rfl, hfirst, _⟩
  exact ⟨pre, first, others ++ post, by simpa using hsplit, hfirst, ha⟩

end CodeAt

/-- The cells of an item, behind the cells of the items before it. -/
theorem Listing.Coherent.encode_split {l : Listing} (hl : l.Coherent) {pre post : List Item}
    {item : Item} (hsplit : l.items = pre ++ item :: post) (k : Nat) :
    l.encode[cellCount pre + k]? = (l.itemCells item ++ post.flatMap l.itemCells)[k]? := by
  have hoperands : ∀ i, Item.instruction i ∈ pre → i.WellFormed := fun i hi =>
    hl.operands i (by simp [hsplit, hi])
  have hlength := length_flatMap_itemCells l hoperands
  rw [Listing.encode, hsplit, List.flatMap_append, List.flatMap_cons,
    List.getElem?_append_right (by omega), hlength, Nat.add_sub_cancel_left]

theorem CodeAt.opcode {l : Listing} (hl : l.Coherent) {a : Nat} {i : Instruction} {rest : List Item}
    (h : CodeAt l a (.instruction i :: rest)) : l.encode[a]? = some i.op.cell := by
  rcases h.head_split with ⟨pre, placed, post, hsplit, hplain, rfl⟩
  cases placed with
  | label name => cases hplain
  | instruction j =>
      cases hplain
      rw [← Nat.add_zero (cellCount pre), hl.encode_split hsplit]
      simp [Listing.itemCells, Listing.instructionCells]

theorem CodeAt.operand {l : Listing} (hl : l.Coherent) {a : Nat} {op : Opcode} {operand : Operand}
    {line : Nat} {rest : List Item}
    (h : CodeAt l a (.instruction { op, operand := some operand, line } :: rest)) :
    l.encode[a + 1]? = some (l.operandCell operand) := by
  rcases h.head_split with ⟨pre, placed, post, hsplit, hplain, rfl⟩
  cases placed with
  | label name => cases hplain
  | instruction j =>
      simp only [Item.plain, Item.instruction.injEq, Instruction.mk.injEq] at hplain
      rw [hl.encode_split hsplit]
      simp [Listing.itemCells, Listing.instructionCells, hplain.2.1]

theorem CodeAt.address {l : Listing} (hl : l.Coherent) {a : Nat} {name : String}
    {rest : List Item} (h : CodeAt l a (.label name :: rest)) : l.address? name = some a := by
  rcases h.head_split with ⟨pre, placed, post, hsplit, hplain, rfl⟩
  cases placed with
  | instruction j => cases hplain
  | label n =>
      cases hplain
      have hnew : name ∉ labelNames pre := by
        intro hmem
        have hlabels := hl.labels
        rw [hsplit] at hlabels
        simp only [labelNames_append, List.nodup_append] at hlabels
        exact hlabels.2.2 name hmem name (by simp [labelNames, Item.labelName?]) rfl
      rw [Listing.address?, hsplit, addressFrom?_append _ _ _ hnew]
      simp [addressFrom?]

/-- Placed code ends within the listing. -/
theorem CodeAt.le_cellCount {l : Listing} {a : Nat} {items : List Item} (h : CodeAt l a items) :
    a + cellCount items ≤ cellCount l.items := by
  rcases h with ⟨pre, placed, post, hsplit, hplain, rfl⟩
  rw [hsplit, ← hplain, cellCount_plain, cellCount_append, cellCount_append]
  omega

end ClassLet
