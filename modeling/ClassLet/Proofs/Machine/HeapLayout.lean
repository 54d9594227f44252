import ClassLet.Proofs.Generation.DeclarationCode
import ClassLet.Proofs.Machine.Runs
import ClassLet.Proofs.Machine.StraightLine

/-!
# Objects and dispatch tables on the heap

What a construction and the table of a class leave behind, whatever else is in the memory. The
machine need not have got to the code by running a program: any machine whose heap pointer is below
its stack pointer is represented by a configuration, and the code does not jump.

Main statement: `Image.heap_layout`.
-/

namespace ClassLet

/-!
# Stretches of memory
-/

namespace Memory

/-- The values are in the cells from an address on. -/
def Holds (memory : Memory) (start : Nat) (values : List Int32) : Prop :=
  ∀ (i : Nat) (v : Int32), values[i]? = some v →
    memory.read? (heapAddress (start + i)) = some v

/-- The values of a number of cells from an address on. -/
def cellsFrom (memory : Memory) (start count : Nat) : List Int32 :=
  (List.range' start count).map fun i => (memory.read? (heapAddress i)).getD 0

@[simp]
theorem length_cellsFrom (memory : Memory) (start count : Nat) :
    (memory.cellsFrom start count).length = count := by
  simp [cellsFrom]

theorem holds_cellsFrom {memory : Memory} (haddressable : isAddressable memory.size = true)
    (start count : Nat) (hle : start + count ≤ memory.size) :
    memory.Holds start (memory.cellsFrom start count) := by
  intro i v hv
  simp only [cellsFrom, List.getElem?_map, Option.map_eq_some_iff] at hv
  rcases hv with ⟨j, hj, rfl⟩
  rw [List.getElem?_eq_some_iff] at hj
  rcases hj with ⟨hi, rfl⟩
  rw [List.length_range'] at hi
  have haddress := toInt_heapAddress haddressable (i := start + i) (by omega)
  have hread : (memory.read? (heapAddress (start + i))).isSome := by
    rw [read?_isSome_iff, haddress]
    omega
  rcases Option.isSome_iff_exists.mp hread with ⟨w, hw⟩
  rw [List.getElem_range', Nat.one_mul, hw, Option.getD_some]

theorem Holds.cellsFrom_eq {memory : Memory} {start count : Nat} {values : List Int32}
    (h : memory.Holds start values) (hle : values.length ≤ count) :
    memory.cellsFrom start count =
      values ++ memory.cellsFrom (start + values.length) (count - values.length) := by
  have hvalues : memory.cellsFrom start values.length = values := by
    apply List.ext_getElem (memory.length_cellsFrom start values.length)
    intro i _ hi
    have hcell := h i values[i] (List.getElem?_eq_getElem hi)
    simp only [cellsFrom, List.getElem_map, List.getElem_range', Nat.one_mul, hcell,
      Option.getD_some]
  have hrange : List.range' start count = List.range' start values.length ++
      List.range' (start + values.length) (count - values.length) := by
    rw [List.range'_append_1, Nat.add_sub_cancel' hle]
  rw [cellsFrom, hrange, List.map_append]
  exact congrArg (· ++ _) hvalues

end Memory

/-!
# Machines at a sequence of items
-/

namespace Machine

/-- The machine is in front of the items. There are `base` cells below its heap pointer and `top`
cells below its stack pointer. -/
structure Ready (im : Image) (items : List Item) (base top : Nat) (m : Machine) : Prop where
  code : m.code = im.code.toArray
  placed : CodeAt im.listing m.ip items
  addressable : isAddressable m.memory.size = true
  hp : m.hp.toInt = base
  sp : m.sp.toInt = top
  sp_le : top ≤ m.memory.size

/-- The second machine is behind the items. The heap has grown by `size` cells, and an address has
been pushed into the cell before `top`. The cells below the old heap pointer and those above the
address are as they were. -/
structure Built (items : List Item) (base top size address : Nat) (m m' : Machine) : Prop where
  ip : m'.ip = m.ip + cellCount items
  sp : m'.sp.toInt + 1 = top
  pushed : m'.memory.read? m'.sp = some (heapAddress address)
  hp : m'.hp.toInt = base + size
  kept : ∀ a : Int32, a.toInt < base ∨ m'.sp.toInt < a.toInt →
    m'.memory.read? a = m.memory.read? a

/-- The cells below the heap pointer and those from the stack pointer on. -/
def config (m : Machine) (base top : Nat) : Config where
  ip := m.ip
  stack := m.memory.cellsFrom top (m.memory.size - top)
  heap := m.memory.cellsFrom 0 base
  hp := base
  fp := m.fp
  ra := m.ra
  tm := m.tm
  output := m.output.toList
  calls := []

@[simp]
theorem length_config_heap (m : Machine) (base top : Nat) :
    (m.config base top).heap.length = base :=
  m.memory.length_cellsFrom 0 base

@[simp]
theorem length_config_stack (m : Machine) (base top : Nat) :
    (m.config base top).stack.length = m.memory.size - top :=
  m.memory.length_cellsFrom top _

variable {im : Image} {items : List Item} {base top : Nat} {m : Machine}

theorem Ready.represents (h : m.Ready im items base top) (hle : base ≤ top) :
    Represents im m.memory.size (m.config base top) m where
  code := h.code
  size := rfl
  addressable := h.addressable
  ip := rfl
  sp := by
    have hsp := h.sp_le
    rw [← Int32.ofInt_toInt m.sp, h.sp, config, Memory.length_cellsFrom]
    congr 1
    omega
  hp := by
    rw [← Int32.ofInt_toInt m.hp, h.hp]
    rfl
  fp := rfl
  ra := rfl
  tm := rfl
  output := rfl
  heapCells := by
    intro i v hv
    have hsp := h.sp_le
    have hcell := Memory.holds_cellsFrom h.addressable 0 base (by omega) i v hv
    rwa [Nat.zero_add] at hcell
  stackCells := by
    intro above below v hv
    have hsp := h.sp_le
    have hlength := congrArg List.length hv
    simp only [config, Memory.length_cellsFrom, List.length_append, List.length_cons] at hlength
    change m.memory.cellsFrom top (m.memory.size - top) = above ++ v :: below at hv
    have hcell := Memory.holds_cellsFrom h.addressable top (m.memory.size - top) (by omega)
      above.length v (by simp [hv])
    have haddress : stackAddress m.memory.size below.length = heapAddress (top + above.length) := by
      unfold stackAddress heapAddress
      congr 1
      omega
    rwa [haddress]
  fits := by
    have hsp := h.sp_le
    simp only [config, Memory.length_cellsFrom]
    omega
  hp_le := by simp [config]
  heap_le := by simp [config]

end Machine

/-!
# Runs through code without jumps
-/

namespace Represents

variable {im : Image} {memorySize limit : Nat} {c c' : Config} {m : Machine}

/-- The machine runs through code without jumps as long as there are cells enough. -/
theorem straight {items : List Item} {a : Nat} (h : Represents im memorySize { c with ip := a } m)
    (hstraight : Straight im memorySize limit items c c') (hcode : CodeAt im.listing a items)
    (hlimit : limit ≤ memorySize) :
    ∃ n m', m.Reaches n m' ∧
      Represents im memorySize { c' with ip := a + cellCount items } m' := by
  induction hstraight generalizing m a with
  | nil c => exact ⟨0, m, Machine.Reaches.refl m, h⟩
  | @bare op items c c₁ c' heffect hroom _ ih =>
      have hop : im.code[a]? = some op.cell := hcode.opcode im.coherent
      have hwidth : (Item.bare op).width = 1 := by
        simp [Opcode.width, heffect.hasOperand]
      rcases h.perform hop (heffect.moved a) (Nat.le_trans hroom hlimit) with ⟨m₁, hrun, h₁⟩
      rcases ih (hwidth ▸ h₁) hcode.tail with ⟨n, m', hreaches, h'⟩
      rw [cellCount_cons, ← Nat.add_assoc]
      exact ⟨n + 1, m', Machine.Reaches.step hrun hreaches, h'⟩
  | @push operand items c c' hroom _ ih =>
      have hop : im.code[a]? = some Opcode.push.cell := hcode.opcode im.coherent
      have hoperand : im.code[a + 1]? = some (im.listing.operandCell operand) :=
        hcode.operand im.coherent
      rcases h.performPush hop hoperand (Nat.le_trans hroom hlimit) with ⟨m₁, hrun, h₁⟩
      rcases ih h₁ hcode.tail with ⟨n, m', hreaches, h'⟩
      rw [cellCount_cons, ← Nat.add_assoc]
      exact ⟨n + 1, m', Machine.Reaches.step hrun hreaches, h'⟩

end Represents

/-!
# What is left behind
-/

namespace Machine

variable {im : Image} {items : List Item} {base top : Nat} {m : Machine}

/-- Code that takes values off the stack, adds cells to the heap and pushes an address. -/
theorem Ready.built (h : m.Ready im items base top) (hle : base ≤ top) {c : Config}
    {popped rest cells : List Int32} {address : Nat}
    (hpopped : (m.config base top).stack = popped ++ rest)
    (hstraight : Straight im m.memory.size m.memory.size items (m.config base top) c)
    (hstack : c.stack = heapAddress address :: rest)
    (hheap : c.heap = (m.config base top).heap ++ cells) (hhp : c.hp = base + cells.length) :
    ∃ n m', m.Reaches n m' ∧ m.Built items base (top + popped.length) cells.length address m' ∧
      m'.memory.Holds base cells := by
  have hbefore := h.represents hle
  rcases hbefore.straight hstraight h.placed (Nat.le_refl _) with ⟨n, m', hreaches, hafter⟩
  have htop := h.sp_le
  have hlength := congrArg List.length hpopped
  rw [length_config_stack, List.length_append] at hlength
  have hsp := hafter.toInt_sp
  simp only [hstack, List.length_cons] at hsp
  refine ⟨n, m', hreaches, ⟨hafter.ip, by omega, hafter.read_top hstack, ?_, ?_⟩, ?_⟩
  · rw [hafter.toInt_hp]
    exact congrArg Nat.cast hhp
  · intro a ha
    -- Below the heap pointer and above the pushed address, the two have the same cells.
    refine hbefore.read_eq hafter List.prefix_rfl ⟨cells, hheap.symm⟩ ⟨popped, hpopped.symm⟩
      ⟨[_], hstack.symm⟩ (ha.imp ?_ ?_)
    · intro hlow
      rwa [length_config_heap]
    · intro hhigh
      omega
  · intro i v hv
    refine hafter.heapCells (base + i) v ?_
    show c.heap[base + i]? = some v
    rw [hheap, List.getElem?_append_right (by simp), length_config_heap, Nat.add_sub_cancel_left]
    exact hv

end Machine

namespace Image

/-- Behind the arguments, which are on top of the stack, the last one topmost, the items make an
object of them: its dispatch pointer comes from the slot of the class, which is above the arguments,
and its fields lie below the dispatch pointer, the first one next to it. -/
def BuildsObject (im : Image) (items : List Item) (slot : Int32) (count : Nat) : Prop :=
  ∀ (m : Machine) (base top : Nat) (values : List Int32) (pointer : Int32),
    m.Ready im items base top → base + 4 ≤ top → values.length = count →
    m.memory.Holds top values.reverse → (top : Int) + count ≤ slot.toInt →
    m.memory.read? slot = some pointer →
    ∃ n m', m.Reaches n m' ∧
      m.Built items base (top + count) (count + 1) (base + count) m' ∧
      (∀ (k : Nat) (v : Int32), values[k]? = some v →
        m'.memory.read? (heapAddress (base + count - (k + 1))) = some v) ∧
      m'.memory.read? (heapAddress (base + count)) = some pointer

/-- The items make a table of the addresses of the labels. -/
def BuildsTable (im : Image) (items : List Item) (labels : List String) : Prop :=
  ∀ (m : Machine) (base top : Nat),
    m.Ready im items base top → base + labels.length + 3 ≤ top →
    ∃ n m', m.Reaches n m' ∧ m.Built items base top labels.length base m' ∧
      ∀ (i : Nat) (label : String) (a : Nat), labels[i]? = some label →
        im.listing.address? label = some a →
        m'.memory.read? (heapAddress (base + i)) = some (codeAddress a)

variable {im : Image}

theorem buildsObject (slot : Int32) (count : Nat) :
    im.BuildsObject (Code.storeOnHeapRepeat count ++
      (.push slot :: .bare .load :: .bare .pushHp :: .bare .store :: .bare .pushHp ::
        Code.advanceHeap)) slot count := by
  rintro m base top values pointer hready hroom rfl hvalues hslot hread
  have hle : base ≤ top := by omega
  have hbefore := hready.represents hle
  have hsp := hready.sp_le
  have hrange := (Memory.read?_isSome_iff _ _).mp (Option.isSome_of_eq_some hread)
  obtain ⟨rest, hrest⟩ : ∃ rest, (m.config base top).stack = values.reverse ++ rest :=
    ⟨_, hvalues.cellsFrom_eq (by rw [List.length_reverse]; omega)⟩
  have hlength := congrArg List.length hrest
  rw [Machine.length_config_stack, List.length_append, List.length_reverse] at hlength
  have habove : (m.memory.size : Int) - rest.length ≤ slot.toInt := by omega
  have hreads : ({ m.config base top with stack := rest } : Config).Reads m.memory.size slot
      pointer :=
    hbefore.reads List.prefix_rfl ⟨values.reverse, hrest.symm⟩ (Or.inr habove) hread
      List.prefix_rfl List.suffix_rfl
  have hfits : (m.config base top).cells + 4 ≤ m.memory.size := by
    rw [Config.cells, Machine.length_config_heap, Machine.length_config_stack]
    omega
  have hstraight := @Straight.construct im m.memory.size m.memory.size (m.config base top) values
    rest slot pointer (m.length_config_heap base top) hrest hreads hfits
  rcases hready.built hle hrest hstraight rfl rfl
    (by rw [List.length_append, List.length_reverse]; rfl) with
    ⟨n, m', hreaches, hbuilt, hcells⟩
  rw [List.length_append, List.length_reverse] at hbuilt
  refine ⟨n, m', hreaches, hbuilt, ?_, ?_⟩
  · intro k v hv
    rcases @getElem?_reverse_append [] values k v pointer hv with ⟨a, ha, hcell⟩
    rw [List.nil_append] at hcell
    have haddress : base + values.length - (k + 1) = base + a := by
      rw [List.length_nil] at ha
      omega
    rw [haddress]
    exact hcells a v hcell
  · exact hcells values.length pointer (by
      rw [← List.length_reverse, List.getElem?_concat_length])

theorem buildsTable (labels : List String) :
    im.BuildsTable (.bare .pushHp :: Code.storeLabels labels) labels := by
  intro m base top hready hroom
  have hle : base ≤ top := by omega
  have hsp := hready.sp_le
  have hfits : (m.config base top).cells + labels.length + 3 ≤ m.memory.size := by
    rw [Config.cells, Machine.length_config_heap, Machine.length_config_stack]
    omega
  have hstraight := @Straight.table im m.memory.size m.memory.size (m.config base top) labels
    (m.length_config_heap base top) hfits
  rcases hready.built hle (List.nil_append _).symm hstraight rfl rfl
    (by rw [List.length_map]; rfl) with ⟨n, m', hreaches, hbuilt, hcells⟩
  rw [List.length_map] at hbuilt
  refine ⟨n, m', hreaches, hbuilt, ?_⟩
  intro i label a hlabel haddress
  refine hcells i (codeAddress a) ?_
  rw [List.getElem?_map, hlabel, Option.map_some, Listing.target, haddress]
  rfl

end Image

/-!
# Emitted code
-/

/-- The code behind the arguments of a construction. -/
theorem Expr.generate_construct {ctx : CodeContext} {pos : Position} {className : Ident}
    {args : List Expr} {b : Binding} {e e' : Emitter}
    (h : ((Expr.construct pos className args (some b)).generate ctx).run e = .ok ((), e')) :
    ∃ e₁, (Expr.generateAll ctx args).run (e.atLine pos.line) = .ok ((), e₁) ∧
      e₁.Added e' (Code.storeOnHeapRepeat args.length ++
        (.push (ctx.memorySize + Int32.ofInt b.offset) :: .bare .load :: .bare .pushHp ::
          .bare .store :: .bare .pushHp :: Code.advanceHeap)) 0 := by
  unfold Expr.generate at h
  rcases Gen.bind_ok h with ⟨_, _, hline, h⟩
  cases hline
  rcases Gen.bind_ok h with ⟨_, _, hnoted, h⟩
  cases hnoted
  rcases Gen.bind_ok h with ⟨_, e₁, hargs, h⟩
  refine ⟨e₁, hargs, ?_⟩
  suffices hwrites : Gen.Writes (do
      Gen.storeOnHeapRepeat args.length
      Gen.push (ctx.memorySize + Int32.ofInt b.offset)
      Gen.emit .load
      Gen.emit .pushHp
      Gen.emit .store
      Gen.emit .pushHp
      Gen.advanceHeap) e₁.labelCount () _ 0 from (hwrites e₁ e' () rfl h).2
  exact .rewritten (.bind (.storeOnHeapRepeat args.length) (.bind (.push _) (.bind (.emit .load)
    (.bind (.emit .pushHp) (.bind (.emit .store) (.bind (.emit .pushHp) .advanceHeap)))))) rfl rfl

/-- The table of a class, which is all that a class adds where it is declared. -/
theorem Decl.generate_table {ctx : CodeContext} {header : ClassHeader} {methods : List Method}
    {known known' : DispatchLabels} {e e' : Emitter}
    (h : (((Decl.classDef header methods).generate ctx).run known).run e =
      .ok (((), known'), e')) :
    ∃ labels, known'.find? header.id.name = some labels ∧
      ∀ first rest, e.streams = first :: rest →
        e'.streams = (first ++ .bare .pushHp :: Code.storeLabels labels) :: rest := by
  rcases Decl.generate_compiled ctx (.classDef header methods) h with
    ⟨items, bodies, hgenerated, hcompiled⟩
  have hclass := hcompiled (fun _ => True) fun _ _ => trivial
  unfold Decl.Compiled at hclass
  rcases hclass with ⟨_, known₁, labels, _, _, _, rfl, rfl⟩
  exact ⟨labels, known₁.find?_insert_self header.id.name labels, hgenerated.written.streams⟩

/-- From any machine with the heap pointer far enough below the stack pointer: what a construction
emits behind its arguments makes an object of the values on top of the stack, and what a class
emits makes a table of the addresses of its labels. The address of the object or the table is
pushed, and no cell outside of the new ones and those between heap and stack is changed. -/
theorem Image.heap_layout (im : Image) (ctx : CodeContext) :
    (∀ (pos : Position) (className : Ident) (args : List Expr) (b : Binding) (e e' : Emitter),
      ((Expr.construct pos className args (some b)).generate ctx).run e = .ok ((), e') →
      ∃ e₁ items, (Expr.generateAll ctx args).run (e.atLine pos.line) = .ok ((), e₁) ∧
        e₁.Added e' items 0 ∧
        im.BuildsObject items (ctx.memorySize + Int32.ofInt b.offset) args.length) ∧
    (∀ (header : ClassHeader) (methods : List Method) (known known' : DispatchLabels)
        (e e' : Emitter),
      (((Decl.classDef header methods).generate ctx).run known).run e = .ok (((), known'), e') →
      ∃ labels items, known'.find? header.id.name = some labels ∧
        (∀ first rest, e.streams = first :: rest → e'.streams = (first ++ items) :: rest) ∧
        im.BuildsTable items labels) := by
  constructor
  · intro pos className args b e e' hrun
    rcases Expr.generate_construct hrun with ⟨e₁, hargs, hadded⟩
    exact ⟨e₁, _, hargs, hadded, Image.buildsObject _ _⟩
  · intro header methods known known' e e' hrun
    rcases Decl.generate_table hrun with ⟨labels, hlabels, hstreams⟩
    exact ⟨labels, _, hlabels, hstreams, Image.buildsTable labels⟩

/-!
# Two arguments and two methods
-/

theorem Emitter.items_unique {e e' : Emitter} {xs ys : List Item}
    (h : ∀ first rest, e.streams = first :: rest → e'.streams = (first ++ xs) :: rest)
    (h' : ∀ first rest, e.streams = first :: rest → e'.streams = (first ++ ys) :: rest) :
    xs = ys := by
  rcases e.streams_cons with ⟨first, rest, hfirst⟩
  have hsame := (h first rest hfirst).symm.trans (h' first rest hfirst)
  exact List.append_cancel_left (List.cons.inj hsame).1

/-- The code of a construction behind its two arguments, a table of two labels, and the labels. -/
def Listing.pair : Listing where
  items :=
    Code.storeOnHeapRepeat 2 ++ (.push (20 + Int32.ofInt (-3)) :: .bare .load :: .bare .pushHp ::
      .bare .store :: .bare .pushHp :: Code.advanceHeap) ++
    (.bare .pushHp :: Code.storeLabels ["first", "second"]) ++
    [.label "first", .bare .halt, .label "second", .bare .halt]

def Image.pair : Image where
  listing := Listing.pair
  coherent := {
    operands := by
      have huses : Uses ["first", "second"] Listing.pair.items := by
        simp [Listing.pair, Uses.storeLabels, Opcode.hasOperand]
      exact fun i hi => (huses _ hi).1
    labels := by decide }

/-- The arguments 5 and 7 are on the stack, above a heap of three cells and right below the cell of
the class. -/
def Machine.pair (ip : Nat) : Machine where
  code := Image.pair.code.toArray
  memory := { size := 20, cells := ((Std.TreeMap.empty.insert 15 7).insert 16 5).insert 17 42 }
  ip
  sp := 15
  fp := 20
  hp := 3
  ra := 0
  tm := 0
  output := #[]

theorem Machine.ready_pair {ip : Nat} {items : List Item} (h : CodeAt Listing.pair ip items) :
    (Machine.pair ip).Ready Image.pair items 3 15 where
  code := rfl
  placed := h
  addressable := rfl
  hp := rfl
  sp := rfl
  sp_le := Nat.le_of_ble_eq_true rfl

/-- The second field is stored first. -/
theorem Image.heap_layout_pair :
    let ctx : CodeContext := { memorySize := 20, insideClass := false }
    let object := Expr.construct default default [.int default 5, .int default 7]
      (some { level := 0, ty := .int, offset := -3 })
    let header : ClassHeader :=
      { (default : ClassHeader) with
        super := some { name := "Pair", pos := default }
        layout := some { name := "", fields := [], methods := [default, default] } }
    let known : DispatchLabels := NameMap.empty.insert "Pair" ["first", "second"]
    (∃ e', (object.generate ctx).run Emitter.empty = .ok ((), e')) ∧
    (∃ n m', (Machine.pair 0).Reaches n m' ∧ m'.ip = 25 ∧ m'.sp.toInt = 16 ∧ m'.hp.toInt = 6 ∧
      m'.memory.read? m'.sp = some 5 ∧ m'.memory.read? 3 = some 7 ∧ m'.memory.read? 4 = some 5 ∧
      m'.memory.read? 5 = some 42) ∧
    (∃ known' e', (((Decl.classDef header []).generate ctx).run known).run Emitter.empty =
      .ok (((), known'), e')) ∧
    (∃ n m', (Machine.pair 25).Reaches n m' ∧ m'.ip = 44 ∧ m'.sp.toInt = 14 ∧ m'.hp.toInt = 5 ∧
      m'.memory.read? m'.sp = some 3 ∧ m'.memory.read? 3 = some 44 ∧
      m'.memory.read? 4 = some 45) := by
  intro ctx object header known
  obtain ⟨e', hobject⟩ : ∃ e', (object.generate ctx).run Emitter.empty = .ok ((), e') := ⟨_, rfl⟩
  obtain ⟨known', e'', hclass⟩ : ∃ known' e'', (((Decl.classDef header []).generate ctx).run
      known).run Emitter.empty = .ok (((), known'), e'') := ⟨_, _, rfl⟩
  have hcode : CodeAt Listing.pair 0 Listing.pair.items :=
    ⟨[], Listing.pair.items, [], (List.append_nil _).symm, rfl, rfl⟩
  refine ⟨⟨e', hobject⟩, ?_, ⟨known', e'', hclass⟩, ?_⟩
  · rcases (Image.heap_layout Image.pair ctx).1 _ _ _ _ _ _ hobject with
      ⟨e₁, items, hargs, hadded, hbuilds⟩
    rcases Expr.generate_construct hobject with ⟨e₂, hargs', hadded'⟩
    cases hargs.symm.trans hargs'
    obtain rfl := Emitter.items_unique hadded.streams hadded'.streams
    have hvalues : (Machine.pair 0).memory.Holds 15 [7, 5] := by
      rintro (_ | _ | i) v ⟨⟩
      · decide +kernel
      · decide +kernel
    rcases hbuilds (Machine.pair 0) 3 15 [5, 7] 42 (Machine.ready_pair hcode.left.left)
      (by decide) rfl hvalues (by decide) (by decide +kernel) with
      ⟨n, m', hreaches, hbuilt, hfields, hpointer⟩
    exact ⟨n, m', hreaches, hbuilt.ip.trans (by decide), (Int.add_left_inj 1).mp hbuilt.sp,
      hbuilt.hp, hbuilt.pushed, hfields 1 7 rfl, hfields 0 5 rfl, hpointer⟩
  · rcases (Image.heap_layout Image.pair ctx).2 _ _ _ _ _ _ hclass with
      ⟨labels, items, hlabels, hstreams, hbuilds⟩
    rcases Decl.generate_table hclass with ⟨labels', hlabels', hstreams'⟩
    cases hlabels.symm.trans hlabels'
    obtain rfl := Emitter.items_unique hstreams hstreams'
    cases hclass
    cases hlabels
    rcases hbuilds (Machine.pair 25) 3 15 (Machine.ready_pair hcode.left.right) (by decide) with
      ⟨n, m', hreaches, hbuilt, hcells⟩
    exact ⟨n, m', hreaches, hbuilt.ip.trans (by decide), (Int.add_left_inj 1).mp hbuilt.sp,
      hbuilt.hp, hbuilt.pushed, hcells 0 "first" 44 rfl (by decide),
      hcells 1 "second" 45 rfl (by decide)⟩

end ClassLet
