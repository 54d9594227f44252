import ClassLet.Proofs.Generation.EmittedBodies
import ClassLet.Proofs.Machine.Configuration

/-!
# Code without jumps

What sequences of instructions that do not jump make of a configuration, and how many cells heap
and stack have together at most on the way. The sequences that build objects and dispatch tables
are of this kind.

Main statements: `Straight.append`, and one statement for each sequence.
-/

namespace ClassLet

theorem Effect.hasOperand {memorySize : Nat} {c c' : Config} {op : Opcode}
    (h : Effect memorySize c op c') : op.hasOperand = false := by
  cases h with
  | total htotal _ => cases op <;> first | rfl | cases htotal
  | _ => rfl

theorem Config.Reads.mono {memorySize : Nat} {c c' : Config} {address v : Int32}
    (h : c.Reads memorySize address v) (hheap : c.heap <+: c'.heap)
    (hstack : c.stack <:+ c'.stack) : c'.Reads memorySize address v := by
  cases h with
  | @heap i _ hi =>
      rcases hheap with ⟨more, hmore⟩
      refine heap ?_
      rw [← hmore, List.getElem?_append_left (List.getElem?_eq_some_iff.mp hi).1]
      exact hi
  | @stack above below _ hs =>
      rcases hstack with ⟨more, hmore⟩
      have hsplit : c'.stack = (more ++ above) ++ v :: below := by
        rw [← hmore, hs, List.append_assoc]
      exact stack hsplit

namespace Item

@[simp]
theorem width_label (name : String) : (Item.label name).width = 0 :=
  rfl

@[simp]
theorem width_bare (op : Opcode) : (Item.bare op).width = op.width :=
  rfl

@[simp]
theorem width_push (v : Int32) : (Item.push v).width = 2 :=
  rfl

@[simp]
theorem width_pushLabel (name : String) : (Item.pushLabel name).width = 2 :=
  rfl

@[simp]
theorem width_jump (op : Opcode) (name : String) : (Item.jump op name).width = op.width :=
  rfl

end Item

/-- The cells that heap and stack have together. -/
def Config.cells (c : Config) : Nat :=
  c.heap.length + c.stack.length

/-- The items, none of which jumps, make the second configuration of the first one. Wherever they
are, the instruction pointer goes from one to the next; it is left out here. Behind each of them
heap and stack have at most `limit` cells together. -/
inductive Straight (im : Image) (memorySize limit : Nat) : List Item → Config → Config → Prop where
  | nil (c : Config) : Straight im memorySize limit [] c c
  | bare {op : Opcode} {items : List Item} {c c' c'' : Config} :
      Effect memorySize c op c' →
      c'.cells ≤ limit →
      Straight im memorySize limit items c' c'' →
      Straight im memorySize limit (.bare op :: items) c c''
  | push {operand : Operand} {items : List Item} {c c'' : Config} :
      c.cells + 1 ≤ limit →
      Straight im memorySize limit items
        { c with stack := im.listing.operandCell operand :: c.stack } c'' →
      Straight im memorySize limit (.withOperand .push operand :: items) c c''

namespace Straight

variable {im : Image} {memorySize limit : Nat} {c c' c'' : Config} {xs ys : List Item}

theorem append (h : Straight im memorySize limit xs c c')
    (h' : Straight im memorySize limit ys c' c'') :
    Straight im memorySize limit (xs ++ ys) c c'' := by
  induction h with
  | nil => exact h'
  | bare heffect hroom _ ih => exact bare heffect hroom (ih h')
  | push hroom _ ih => exact push hroom (ih h')

/-- The first item, where it is placed. -/
theorem step {item : Item} {a : Nat} (h : Straight im memorySize limit (item :: xs) c c'')
    (hcode : CodeAt im.listing a (item :: xs)) :
    ∃ c', Step im memorySize { c with ip := a } { c' with ip := a + item.width } ∧
      c'.cells ≤ limit ∧ Straight im memorySize limit xs c' c'' := by
  cases h with
  | @bare op _ _ c' _ heffect hroom hrest =>
      have hop : im.code[a]? = some op.cell := hcode.opcode im.coherent
      have hwidth : (Item.bare op).width = 1 := by
        simp [Opcode.width, heffect.hasOperand]
      rw [hwidth]
      exact ⟨c', @Step.effect im memorySize { c with ip := a } op { c' with ip := a } hop
        (heffect.moved a), hroom, hrest⟩
  | @push operand _ _ _ hroom hrest =>
      have hop : im.code[a]? = some Opcode.push.cell := hcode.opcode im.coherent
      have hoperand : im.code[a + 1]? = some (im.listing.operandCell operand) :=
        hcode.operand im.coherent
      refine ⟨{ c with stack := im.listing.operandCell operand :: c.stack },
        @Step.push im memorySize { c with ip := a } _ hop hoperand, ?_, hrest⟩
      rw [Config.cells, List.length_cons, ← Nat.add_assoc]
      exact hroom

/-!
# Sequences
-/

/-- The heap pointer has to be where the heap ends once the new cell is counted. -/
theorem advanceHeap (hheap : c.heap.length = c.hp + 1) (hroom : c.cells + 2 ≤ limit) :
    Straight im memorySize limit Code.advanceHeap c { c with hp := c.hp + 1 } := by
  have haddress : heapAddress c.hp + 1 = heapAddress c.heap.length := by
    rw [hheap, heapAddress, heapAddress, Int.natCast_add, Int32.ofInt_add]
    rfl
  have hpop : Effect memorySize { c with stack := (heapAddress c.hp + 1) :: c.stack } .popHp
      { c with hp := c.heap.length } := Effect.popHp (by rw [haddress])
  rw [hheap] at hpop
  unfold Config.cells at hroom
  refine bare Effect.pushHp ?_ (push ?_ (bare (Effect.total rfl rfl) ?_
    (bare hpop ?_ (nil _)))) <;>
  simp only [Config.cells, List.length_cons] <;> omega

theorem storeOnHeap {v : Int32} {rest : List Int32} (hheap : c.heap.length = c.hp)
    (hstack : c.stack = v :: rest) (hroom : c.cells + 2 ≤ limit) :
    Straight im memorySize limit Code.storeOnHeap c
      { c with stack := rest, heap := c.heap ++ [v], hp := c.hp + 1 } := by
  have hstore : Effect memorySize { c with stack := heapAddress c.hp :: c.stack } .store
      { c with stack := rest, heap := c.heap ++ [v] } := Effect.store hheap (by rw [hstack])
  have hcells : c.cells = ({ c with stack := rest, heap := c.heap ++ [v] } : Config).cells := by
    simp only [Config.cells, hstack, List.length_append, List.length_cons, List.length_nil]
    omega
  refine bare Effect.pushHp ?_ (bare hstore ?_ (advanceHeap (by simp [hheap]) ?_))
  · simp only [Config.cells, List.length_cons] at hroom ⊢
    omega
  · rw [← hcells]
    exact Nat.le_of_add_right_le hroom
  · rw [← hcells]
    exact hroom

theorem storeOnHeapRepeat {vs rest : List Int32} (hheap : c.heap.length = c.hp)
    (hstack : c.stack = vs ++ rest) (hroom : c.cells + 2 ≤ limit) :
    Straight im memorySize limit (Code.storeOnHeapRepeat vs.length) c
      { c with stack := rest, heap := c.heap ++ vs, hp := c.hp + vs.length } := by
  induction vs generalizing c with
  | nil =>
      rw [List.nil_append] at hstack
      rw [List.append_nil, ← hstack]
      exact nil c
  | cons v vs ih =>
      have htop : c.stack = v :: (vs ++ rest) := hstack
      refine append (storeOnHeap hheap htop hroom) ?_
      have hlength : c.hp + (v :: vs).length = c.hp + 1 + vs.length := by
        rw [List.length_cons, Nat.add_assoc, Nat.add_comm 1]
      have hcells : c.heap ++ v :: vs = c.heap ++ [v] ++ vs := by simp
      rw [hlength, hcells]
      refine ih (by simp [hheap]) rfl ?_
      simp only [Config.cells, htop, List.length_append, List.length_cons, List.length_nil]
        at hroom ⊢
      omega

theorem storeLabels {labels : List String} (hheap : c.heap.length = c.hp)
    (hroom : c.cells + labels.length + 2 ≤ limit) :
    Straight im memorySize limit (Code.storeLabels labels) c
      { c with
        heap := c.heap ++ labels.map im.listing.target
        hp := c.hp + labels.length } := by
  induction labels generalizing c with
  | nil =>
      rw [List.map_nil, List.append_nil]
      exact nil c
  | cons label labels ih =>
      rw [List.length_cons] at hroom
      refine push (by omega) (append (storeOnHeap hheap rfl ?_) ?_)
      · simp only [Config.cells, List.length_cons] at hroom ⊢
        omega
      · have hlength : c.hp + (label :: labels).length = c.hp + 1 + labels.length := by
          rw [List.length_cons, Nat.add_assoc, Nat.add_comm 1]
        have hcells : c.heap ++ (label :: labels).map im.listing.target =
            c.heap ++ [im.listing.target label] ++ labels.map im.listing.target := by simp
        rw [hlength, hcells]
        refine ih (by simp [hheap]) ?_
        simp only [Config.cells, List.length_append, List.length_cons, List.length_nil] at hroom ⊢
        omega

/-- The dispatch pointer is copied from its cell to the heap and becomes the address of a new
object. -/
theorem finishObject {address pointer : Int32} (hheap : c.heap.length = c.hp)
    (hreads : c.Reads memorySize address pointer) (hroom : c.cells + 4 ≤ limit) :
    Straight im memorySize limit
      (.push address :: .bare .load :: .bare .pushHp :: .bare .store :: .bare .pushHp ::
        Code.advanceHeap) c
      { c with
        stack := heapAddress c.hp :: c.stack
        heap := c.heap ++ [pointer]
        hp := c.hp + 1 } := by
  have hload : Effect memorySize { c with stack := address :: c.stack } .load
      { c with stack := pointer :: c.stack } :=
    Effect.load rfl (hreads.mono List.prefix_rfl List.suffix_rfl)
  have hstore : Effect memorySize { c with stack := heapAddress c.hp :: pointer :: c.stack } .store
      { c with heap := c.heap ++ [pointer] } := Effect.store hheap rfl
  refine push ?_ (bare hload ?_ (bare Effect.pushHp ?_
    (bare hstore ?_ (bare Effect.pushHp ?_ (advanceHeap (by simp [hheap]) ?_))))) <;>
  simp only [Config.cells, List.length_append, List.length_cons, List.length_nil] at hroom ⊢ <;>
  omega

/-- The arguments of a construction are taken off the stack, the last one first, and the address of
the object takes their place. -/
theorem construct {values rest : List Int32} {slot pointer : Int32}
    (hheap : c.heap.length = c.hp) (hstack : c.stack = values.reverse ++ rest)
    (hreads : ({ c with stack := rest } : Config).Reads memorySize slot pointer)
    (hroom : c.cells + 4 ≤ limit) :
    Straight im memorySize limit
      (Code.storeOnHeapRepeat values.length ++
        (.push slot :: .bare .load :: .bare .pushHp :: .bare .store :: .bare .pushHp ::
          Code.advanceHeap)) c
      { c with
        stack := heapAddress (c.hp + values.length) :: rest
        heap := c.heap ++ (values.reverse ++ [pointer])
        hp := c.hp + (values.length + 1) } := by
  have hstored := @storeOnHeapRepeat im memorySize limit c values.reverse rest hheap hstack
    (by omega)
  rw [List.length_reverse] at hstored
  rw [← List.append_assoc, ← Nat.add_assoc]
  refine append hstored (finishObject ?_ (hreads.mono (List.prefix_append _ _) List.suffix_rfl) ?_)
  · simp [hheap]
  · simp only [Config.cells, hstack, List.length_append, List.length_reverse] at hroom ⊢
    omega

/-- A table starts where the heap ends, and its address stays below the labels on the stack. -/
theorem table {labels : List String} (hheap : c.heap.length = c.hp)
    (hroom : c.cells + labels.length + 3 ≤ limit) :
    Straight im memorySize limit (.bare .pushHp :: Code.storeLabels labels) c
      { c with
        stack := heapAddress c.hp :: c.stack
        heap := c.heap ++ labels.map im.listing.target
        hp := c.hp + labels.length } := by
  refine bare Effect.pushHp ?_ (storeLabels hheap ?_) <;>
  simp only [Config.cells, List.length_cons] at hroom ⊢ <;>
  omega

end Straight

/-- The cells of a new object: its fields, the first one uppermost, and its dispatch pointer. -/
theorem getElem?_reverse_append {heap values : List Int32} {n : Nat} {v pointer : Int32}
    (hv : values[n]? = some v) :
    ∃ a, a + (n + 1) = heap.length + values.length ∧
      (heap ++ values.reverse ++ [pointer])[a]? = some v := by
  have hlt : n < values.length := (List.getElem?_eq_some_iff.mp hv).1
  refine ⟨heap.length + (values.length - 1 - n), by omega, ?_⟩
  rw [List.append_assoc, List.getElem?_append_right (Nat.le_add_right _ _),
    Nat.add_sub_cancel_left, List.getElem?_append_left (by rw [List.length_reverse]; omega),
    List.getElem?_reverse (by omega)]
  rw [show values.length - 1 - (values.length - 1 - n) = n by omega]
  exact hv

end ClassLet
