import ClassLet.Proofs.Machine.Configuration
import ClassLet.Proofs.Machine.Instructions

/-!
# The machine follows its configurations

A machine represents a configuration if its registers are those of the configuration and the two
ends of its memory hold the heap and the stack.

Main statements: `Represents.step`, the machine takes every step of the configuration as long as
the cells of heap and stack fit into the memory, and `Represents.overflow`, a stack that has the
memory to itself and outgrows it ends the run with a trap of the memory.
-/

namespace ClassLet

structure Represents (im : Image) (memorySize : Nat) (c : Config) (m : Machine) : Prop where
  code : m.code = im.code.toArray
  size : m.memory.size = memorySize
  addressable : isAddressable memorySize = true
  ip : m.ip = c.ip
  sp : m.sp = Int32.ofInt ((memorySize : Int) - c.stack.length)
  hp : m.hp = heapAddress c.hp
  fp : m.fp = c.fp
  ra : m.ra = c.ra
  tm : m.tm = c.tm
  output : m.output.toList = c.output
  heapCells : ∀ (i : Nat) (v : Int32), c.heap[i]? = some v →
    m.memory.read? (heapAddress i) = some v
  stackCells : ∀ (above below : List Int32) (v : Int32), c.stack = above ++ v :: below →
    m.memory.read? (stackAddress memorySize below.length) = some v
  fits : c.heap.length + c.stack.length ≤ memorySize
  hp_le : c.hp ≤ c.heap.length
  heap_le : c.heap.length ≤ c.hp + 1

/-!
# Addresses
-/

theorem le_of_isAddressable {n : Nat} (h : isAddressable n = true) : n ≤ 2147483647 := by
  simp only [isAddressable, decide_eq_true_eq, Int32.toInt_maxValue] at h
  omega

theorem toInt_stackAddress {memorySize k : Nat} (h : isAddressable memorySize = true)
    (hk : k < memorySize) : (stackAddress memorySize k).toInt = (memorySize : Int) - (k + 1) := by
  have hle := le_of_isAddressable h
  exact Int32.toInt_ofInt_of_le (by omega) (by omega)

theorem toInt_heapAddress {memorySize i : Nat} (h : isAddressable memorySize = true)
    (hi : i ≤ memorySize) : (heapAddress i).toInt = i := by
  have hle := le_of_isAddressable h
  exact Int32.toInt_ofInt_of_le (by omega) (by omega)

theorem heapAddress_inj {memorySize i j : Nat} (h : isAddressable memorySize = true)
    (hi : i ≤ memorySize) (hj : j ≤ memorySize) (heq : heapAddress i = heapAddress j) : i = j := by
  have hto := congrArg Int32.toInt heq
  rw [toInt_heapAddress h hi, toInt_heapAddress h hj] at hto
  omega

theorem stackAddress_inj {memorySize j k : Nat} (h : isAddressable memorySize = true)
    (hj : j < memorySize) (hk : k < memorySize)
    (heq : stackAddress memorySize j = stackAddress memorySize k) : j = k := by
  have hto := congrArg Int32.toInt heq
  rw [toInt_stackAddress h hj, toInt_stackAddress h hk] at hto
  omega

/-- A cell of the heap is none of the stack as long as both have room. -/
theorem heapAddress_ne_stackAddress {memorySize i k : Nat} (h : isAddressable memorySize = true)
    (hroom : i + k + 1 < memorySize) : heapAddress i ≠ stackAddress memorySize k := by
  intro heq
  have hto := congrArg Int32.toInt heq
  rw [toInt_heapAddress h (by omega), toInt_stackAddress h (by omega)] at hto
  omega

theorem toInt_codeAddress {a size : Nat} (h : isAddressable size = true) (ha : a ≤ size) :
    (codeAddress a).toInt = a := by
  have hle := le_of_isAddressable h
  exact Int32.toInt_ofNat_of_lt (by omega)

theorem Image.Body.entry_le {im : Image} {params entry finish exit : Nat}
    (h : im.Body params entry finish exit) : entry ≤ im.code.length := by
  rcases h with ⟨label, locals, inner, hcode, _, _, _⟩
  have hle := hcode.le_cellCount
  rw [Image.code, im.coherent.length_encode]
  omega

/-- A part of the heap and a part of the stack say what is read among their cells. -/
theorem Config.exists_reads {memorySize : Nat} {heap stack : List Int32} {a : Int32}
    (hnonneg : 0 ≤ a.toInt) (hlt : a.toInt < memorySize)
    (ha : a.toInt < heap.length ∨ (memorySize : Int) - stack.length ≤ a.toInt) :
    ∃ v, ∀ c : Config, heap <+: c.heap → stack <:+ c.stack → c.Reads memorySize a v := by
  rcases ha with hheap | hstack
  · obtain ⟨i, hi⟩ := Int.eq_ofNat_of_zero_le hnonneg
    have hcell : i < heap.length := by omega
    have haddress : a = heapAddress i := by
      rw [heapAddress, ← hi, Int32.ofInt_toInt]
    refine ⟨heap[i], ?_⟩
    rintro c ⟨more, hmore⟩ _
    rw [haddress]
    refine Reads.heap ?_
    rw [← hmore, List.getElem?_append_left hcell, List.getElem?_eq_getElem hcell]
  · obtain ⟨k, hk⟩ := Int.eq_ofNat_of_zero_le (Int.sub_nonneg.mpr hstack)
    have hcell : k < stack.length := by omega
    have hsplit : stack = stack.take k ++ stack[k] :: stack.drop (k + 1) := by
      rw [← List.drop_eq_getElem_cons hcell, List.take_append_drop]
    have haddress : a = stackAddress memorySize (stack.drop (k + 1)).length := by
      rw [stackAddress, ← Int32.ofInt_toInt a, List.length_drop]
      congr 1
      omega
    refine ⟨stack[k], ?_⟩
    rintro c _ ⟨more, hmore⟩
    have hall : c.stack = (more ++ stack.take k) ++ stack[k] :: stack.drop (k + 1) := by
      rw [List.append_assoc, ← hsplit, hmore]
    rw [haddress]
    exact Reads.stack hall

namespace Represents

variable {im : Image} {memorySize : Nat} {c c' : Config} {m m' : Machine}

/-!
# Building blocks
-/

theorem fetch (h : Represents im memorySize c m) (k : Nat) :
    m.code[m.ip + k]? = im.code[c.ip + k]? := by
  rw [h.code, h.ip, List.getElem?_toArray]

theorem moved (h : Represents im memorySize c m) (a : Nat) :
    Represents im memorySize { c with ip := a } { m with ip := a } :=
  { h with ip := rfl }

/-- The machine writes below its stack what the configuration puts on top of its stack. -/
theorem push (h : Represents im memorySize c m) (v : Int32)
    (hfits : c.heap.length + c.stack.length < memorySize) :
    ∃ m', (Exec.push v).run m = .ok () m' ∧
      Represents im memorySize { c with stack := v :: c.stack } m' := by
  have hsp : m.sp - 1 = stackAddress memorySize c.stack.length := by
    rw [h.sp, stackAddress, ← Int.sub_sub, Int32.ofInt_sub _ 1]
    rfl
  have haddress := toInt_stackAddress h.addressable (k := c.stack.length) (by omega)
  have hwrite : (m.memory.write? (m.sp - 1) v).isSome := by
    rw [Memory.write?_isSome_iff, hsp, haddress, h.size]
    omega
  rcases Option.isSome_iff_exists.mp hwrite with ⟨memory, hmemory⟩
  refine ⟨{ m with memory, sp := m.sp - 1 }, by rw [Exec.push_run, hmemory], ?_⟩
  rw [hsp] at hmemory
  exact {
    h with
    size := (Memory.size_of_write? hmemory).trans h.size
    sp := by
      show m.sp - 1 = _
      rw [hsp, stackAddress]
      simp
    heapCells := by
      intro i w hw
      have hi : i < c.heap.length := (List.getElem?_eq_some_iff.mp hw).1
      have hne : heapAddress i ≠ stackAddress memorySize c.stack.length :=
        heapAddress_ne_stackAddress h.addressable (by omega)
      rw [Memory.read?_write? hmemory, if_neg hne]
      exact h.heapCells i w hw
    stackCells := by
      intro above below w hw
      cases above with
      | nil =>
          simp only [List.nil_append, List.cons.injEq] at hw
          rcases hw with ⟨rfl, rfl⟩
          rw [Memory.read?_write? hmemory, if_pos rfl]
      | cons top above =>
          simp only [List.cons_append, List.cons.injEq] at hw
          have hlen := congrArg List.length hw.2
          simp only [List.length_append, List.length_cons] at hlen
          have hne : stackAddress memorySize below.length ≠
              stackAddress memorySize c.stack.length := by
            intro heq
            have := stackAddress_inj h.addressable (by omega) (by omega) heq
            omega
          rw [Memory.read?_write? hmemory, if_neg hne]
          exact h.stackCells above below w hw.2
    fits := by
      simp only [List.length_cons]
      omega }

theorem toInt_sp (h : Represents im memorySize c m) :
    m.sp.toInt = (memorySize : Int) - c.stack.length := by
  have hfits := h.fits
  have hle := le_of_isAddressable h.addressable
  rw [h.sp]
  exact Int32.toInt_ofInt_of_le (by omega) (by omega)

theorem toInt_hp (h : Represents im memorySize c m) : m.hp.toInt = c.hp := by
  have hhp := h.hp_le
  have hfits := h.fits
  rw [h.hp]
  exact toInt_heapAddress h.addressable (by omega)

theorem sp_cons (h : Represents im memorySize c m) {v : Int32} {rest : List Int32}
    (hstack : c.stack = v :: rest) : m.sp = stackAddress memorySize rest.length := by
  rw [h.sp, hstack, stackAddress]
  simp

theorem read_top (h : Represents im memorySize c m) {v : Int32} {rest : List Int32}
    (hstack : c.stack = v :: rest) : m.memory.read? m.sp = some v := by
  rw [h.sp_cons hstack]
  exact h.stackCells [] rest v hstack

/-- The machine takes from its stack what is on top of the stack of the configuration. -/
theorem pop (h : Represents im memorySize c m) {v : Int32} {rest : List Int32}
    (hstack : c.stack = v :: rest) :
    Exec.pop.run m = .ok v { m with sp := m.sp + 1 } ∧
      Represents im memorySize { c with stack := rest } { m with sp := m.sp + 1 } := by
  refine ⟨by rw [Exec.pop_run, h.read_top hstack], ?_⟩
  exact {
    h with
    sp := by
      show m.sp + 1 = Int32.ofInt ((memorySize : Int) - rest.length)
      rw [h.sp_cons hstack, stackAddress, show (1 : Int32) = Int32.ofInt 1 from rfl,
        ← Int32.ofInt_add]
      congr 1
      omega
    stackCells := by
      intro above below w hw
      change rest = above ++ w :: below at hw
      exact h.stackCells (v :: above) below w (by rw [hstack, hw]; rfl)
    fits := by
      have := h.fits
      simp only [hstack, List.length_cons] at this
      show c.heap.length + rest.length ≤ memorySize
      omega }

theorem read (h : Represents im memorySize c m) {address v : Int32}
    (hreads : c.Reads memorySize address v) : m.memory.read? address = some v := by
  cases hreads with
  | heap hi => exact h.heapCells _ _ hi
  | stack hs => exact h.stackCells _ _ _ hs

/-- What is read among the cells of a part of the heap and a part of the stack. -/
theorem reads (h : Represents im memorySize c m) {heap stack : List Int32} (hheap : heap <+: c.heap)
    (hstack : stack <:+ c.stack) {a v : Int32}
    (ha : a.toInt < heap.length ∨ (memorySize : Int) - stack.length ≤ a.toInt)
    (hread : m.memory.read? a = some v) (hheap' : heap <+: c'.heap)
    (hstack' : stack <:+ c'.stack) : c'.Reads memorySize a v := by
  have hrange := (Memory.read?_isSome_iff _ _).mp (Option.isSome_of_eq_some hread)
  rw [h.size] at hrange
  rcases Config.exists_reads hrange.1 hrange.2 ha with ⟨w, hw⟩
  rw [h.read (hw c hheap hstack), Option.some.injEq] at hread
  exact hread ▸ hw c' hheap' hstack'

/-- Where the configurations have a part of the heap and a part of the stack in common, the
memories have the same cells. -/
theorem read_eq (h : Represents im memorySize c m) (h' : Represents im memorySize c' m')
    {heap stack : List Int32} (hheap : heap <+: c.heap) (hheap' : heap <+: c'.heap)
    (hstack : stack <:+ c.stack) (hstack' : stack <:+ c'.stack) {a : Int32}
    (ha : a.toInt < heap.length ∨ (memorySize : Int) - stack.length ≤ a.toInt) :
    m'.memory.read? a = m.memory.read? a := by
  by_cases hrange : 0 ≤ a.toInt ∧ a.toInt < memorySize
  · rcases Config.exists_reads hrange.1 hrange.2 ha with ⟨v, hv⟩
    rw [h.read (hv c hheap hstack), h'.read (hv c' hheap' hstack')]
  · have hnone : ∀ memory : Memory, memory.size = memorySize → memory.read? a = none := by
      intro memory hsize
      rwa [← Option.not_isSome_iff_eq_none, Memory.read?_isSome_iff, hsize]
    rw [hnone _ h.size, hnone _ h'.size]

/-- The machine writes behind its heap pointer what the configuration adds to its heap. -/
theorem write (h : Represents im memorySize c m) (v : Int32) (hheap : c.heap.length = c.hp)
    (hfits : c.heap.length + c.stack.length < memorySize) :
    ∃ m', (Exec.write (heapAddress c.hp) v).run m = .ok () m' ∧
      Represents im memorySize { c with heap := c.heap ++ [v] } m' := by
  have haddress := toInt_heapAddress h.addressable (i := c.hp) (by omega)
  have hwrite : (m.memory.write? (heapAddress c.hp) v).isSome := by
    rw [Memory.write?_isSome_iff, haddress, h.size]
    omega
  rcases Option.isSome_iff_exists.mp hwrite with ⟨memory, hmemory⟩
  refine ⟨{ m with memory }, by rw [Exec.write_run, hmemory], ?_⟩
  exact {
    h with
    size := (Memory.size_of_write? hmemory).trans h.size
    heapCells := by
      intro i w hw
      rw [Memory.read?_write? hmemory]
      change (c.heap ++ [v])[i]? = some w at hw
      by_cases hi : i = c.hp
      · subst hi
        rw [if_pos rfl]
        simpa [← hheap] using hw
      · have hlt : i < c.heap.length := by
          have := (List.getElem?_eq_some_iff.mp hw).1
          simp only [List.length_append, List.length_singleton] at this
          omega
        have hne : heapAddress i ≠ heapAddress c.hp := fun heq =>
          hi (heapAddress_inj h.addressable (by omega) (by omega) heq)
        rw [if_neg hne]
        rw [List.getElem?_append_left hlt] at hw
        exact h.heapCells i w hw
    stackCells := by
      intro above below w hw
      change c.stack = above ++ w :: below at hw
      have hlen := congrArg List.length hw
      simp only [List.length_append, List.length_cons] at hlen
      have hne : stackAddress memorySize below.length ≠ heapAddress c.hp :=
        (heapAddress_ne_stackAddress h.addressable (by omega)).symm
      rw [Memory.read?_write? hmemory, if_neg hne]
      exact h.stackCells above below w hw
    fits := by
      simp only [List.length_append, List.length_singleton]
      omega
    hp_le := by
      simp only [List.length_append, List.length_singleton]
      omega
    heap_le := by
      simp only [List.length_append, List.length_singleton]
      omega }

/-!
# Instructions
-/

theorem binary (h : Represents im memorySize c m) (f : Int32 → Int32 → Int32)
    {left right : Int32} {rest : List Int32} (hstack : c.stack = right :: left :: rest) :
    ∃ m', (Exec.binary f).run m = .ok () m' ∧
      Represents im memorySize { c with stack := f left right :: rest } m' := by
  rcases h.pop hstack with ⟨hright, h₁⟩
  rcases h₁.pop rfl with ⟨hleft, h₂⟩
  have hfits := h.fits
  simp only [hstack, List.length_cons] at hfits
  rcases h₂.push (f left right) (by show c.heap.length + rest.length < memorySize; omega) with
    ⟨m', hpush, h₃⟩
  refine ⟨m', ?_, h₃⟩
  simp only [Exec.binary, EStateM.run_bind, hright, hleft, hpush]

/-- An instruction without an operand. -/
theorem effect (h : Represents im memorySize c m) {op : Opcode}
    (heffect : Effect memorySize c op c')
    (hfits : c'.heap.length + c'.stack.length ≤ memorySize) (start : Nat) :
    ∃ m', (Exec.execute start op).run m = .ok () m' ∧ Represents im memorySize c' m' := by
  cases heffect with
  | pop hstack =>
      rcases h.pop hstack with ⟨hpop, h'⟩
      refine ⟨_, ?_, h'⟩
      simp only [Exec.execute, discard, Functor.discard, Functor.mapConst]
      simp only [EStateM.run] at hpop ⊢
      simp [Function.const, EStateM.map, hpop]
  | @total op f left right rest htotal hstack =>
      rcases h.binary f hstack with ⟨m', hrun, h'⟩
      refine ⟨m', ?_, h'⟩
      cases op <;> simp only [Opcode.total?, Option.some.injEq, reduceCtorEq] at htotal <;>
        subst htotal <;> exact hrun
  | @div left right rest hstack hne =>
      rcases h.pop hstack with ⟨hright, h₁⟩
      rcases h₁.pop rfl with ⟨hleft, h₂⟩
      rcases h₂.push (left / right) (by
        simp only [List.length_cons] at hfits
        show c.heap.length + rest.length < memorySize
        omega) with ⟨m', hpush, h₃⟩
      refine ⟨m', ?_, h₃⟩
      simp only [Exec.execute, Exec.divide, EStateM.run_bind, hright, hleft, if_neg hne,
        hpush]
  | pushFp =>
      rcases h.push c.fp hfits with ⟨m', hpush, h'⟩
      refine ⟨m', ?_, h'⟩
      simp only [Exec.execute, EStateM.run_bind, EStateM.run_get, h.fp, hpush]
  | @popFp v rest hstack =>
      rcases h.pop hstack with ⟨hpop, h'⟩
      refine ⟨{ m with sp := m.sp + 1, fp := v }, ?_, { h' with fp := rfl }⟩
      simp only [Exec.execute, EStateM.run_bind, hpop, EStateM.run_modify]
  | @setFp v rest hstack =>
      refine ⟨{ m with fp := m.sp }, ?_, { h with fp := ?_ }⟩
      · simp only [Exec.execute, EStateM.run_modify]
      · exact h.sp_cons hstack
  | pushRa =>
      rcases h.push c.ra hfits with ⟨m', hpush, h'⟩
      refine ⟨m', ?_, h'⟩
      simp only [Exec.execute, EStateM.run_bind, EStateM.run_get, h.ra, hpush]
  | @popRa v rest hstack =>
      rcases h.pop hstack with ⟨hpop, h'⟩
      refine ⟨{ m with sp := m.sp + 1, ra := v }, ?_, { h' with ra := rfl }⟩
      simp only [Exec.execute, EStateM.run_bind, hpop, EStateM.run_modify]
  | pushTm =>
      rcases h.push c.tm hfits with ⟨m', hpush, h'⟩
      refine ⟨m', ?_, h'⟩
      simp only [Exec.execute, EStateM.run_bind, EStateM.run_get, h.tm, hpush]
  | @popTm v rest hstack =>
      rcases h.pop hstack with ⟨hpop, h'⟩
      refine ⟨{ m with sp := m.sp + 1, tm := v }, ?_, { h' with tm := rfl }⟩
      simp only [Exec.execute, EStateM.run_bind, hpop, EStateM.run_modify]
  | pushHp =>
      rcases h.push (heapAddress c.hp) hfits with ⟨m', hpush, h'⟩
      refine ⟨m', ?_, h'⟩
      simp only [Exec.execute, EStateM.run_bind, EStateM.run_get, h.hp, hpush]
  | @popHp rest hstack =>
      rcases h.pop hstack with ⟨hpop, h'⟩
      refine ⟨{ m with sp := m.sp + 1, hp := heapAddress c.heap.length }, ?_,
        { h' with hp := rfl, hp_le := Nat.le_refl _, heap_le := Nat.le_succ _ }⟩
      simp only [Exec.execute, EStateM.run_bind, hpop, EStateM.run_modify]
  | @load address v rest hstack hreads =>
      rcases h.pop hstack with ⟨hpop, h₁⟩
      have hread := h₁.read hreads
      rcases h₁.push v (by
        simp only [List.length_cons] at hfits
        show c.heap.length + rest.length < memorySize
        omega) with ⟨m', hpush, h₂⟩
      refine ⟨m', ?_, h₂⟩
      simp only [Exec.execute, EStateM.run_bind, hpop, Exec.read_run, hread, hpush]
  | @store v rest hheap hstack =>
      rcases h.pop hstack with ⟨haddress, h₁⟩
      rcases h₁.pop rfl with ⟨hvalue, h₂⟩
      rcases h₂.write v hheap (by
        simp only [List.length_append, List.length_singleton] at hfits
        show c.heap.length + rest.length < memorySize
        omega) with ⟨m', hwrite, h₃⟩
      refine ⟨m', ?_, h₃⟩
      simp only [Exec.execute, EStateM.run_bind, haddress, hvalue]
      exact hwrite
  | @print v rest hstack =>
      refine ⟨{ m with output := m.output.push v }, ?_, { h with output := ?_ }⟩
      · rw [Exec.execute, Exec.print_run, h.read_top hstack]
      · show (m.output.push v).toList = c.output ++ [v]
        rw [Array.toList_push, h.output]

/-- A conditional jump, with its operand taken. -/
theorem comparison (h : Represents im memorySize c m) {left right target : Int32}
    {rest : List Int32} (htarget : im.code[c.ip]? = some target)
    (hstack : c.stack = right :: left :: rest) (test : Int32 → Int32 → Bool) (start : Nat) :
    ∃ m', Represents im memorySize { c with ip := c.ip + 1, stack := rest } m' ∧
      (Exec.jumpIf test start).run m =
        (if test left right then Exec.jump target start else pure ()).run m' := by
  have hfetch : m.code[m.ip]? = some target := by
    have := h.fetch 0
    simpa [htarget] using this
  have h₁ := h.moved (c.ip + 1)
  rcases h₁.pop hstack with ⟨hright, h₂⟩
  rcases h₂.pop rfl with ⟨hleft, h₃⟩
  refine ⟨_, h₃, ?_⟩
  have hip : ({ m with ip := m.ip + 1 } : Machine) = { m with ip := c.ip + 1 } := by rw [h.ip]
  simp only [Exec.jumpIf, EStateM.run_bind, Exec.operand_run hfetch, hip, hright, hleft]

theorem jump (h : Represents im memorySize c m) {a : Nat} (hto : (codeAddress a).toInt = a)
    (ha : a ≤ im.code.length) (start : Nat) :
    ∃ m', (Exec.jump (codeAddress a) start).run m = .ok () m' ∧
      Represents im memorySize { c with ip := a } m' := by
  refine ⟨{ m with ip := a }, ?_, h.moved a⟩
  apply Exec.jump_run hto
  rw [h.code, List.size_toArray]
  exact ha

theorem test_jumpIf {op : Opcode} {test : Int32 → Int32 → Bool} (h : op.test? = some test)
    (start : Nat) : op ≠ .halt ∧ Exec.execute start op = Exec.jumpIf test start := by
  cases op <;> simp only [Opcode.test?, Option.some.injEq, reduceCtorEq] at h <;>
    subst h <;> exact ⟨by simp, rfl⟩

theorem effect_ne_halt {op : Opcode} (heffect : Effect memorySize c op c') : op ≠ .halt := by
  rintro rfl
  cases heffect with
  | total htotal _ => cases htotal

/-!
# Steps
-/

/-- An instruction without an operand, where it is. -/
theorem perform (h : Represents im memorySize c m) {op : Opcode}
    (hop : im.code[c.ip]? = some op.cell) (heffect : Effect memorySize c op c')
    (hfits : c'.heap.length + c'.stack.length ≤ memorySize) :
    ∃ m', Exec.step.run m = .ok .running m' ∧
      Represents im memorySize { c' with ip := c.ip + 1 } m' := by
  have hip : ({ m with ip := m.ip + 1 } : Machine) = { m with ip := c.ip + 1 } := by rw [h.ip]
  have h₁ := h.moved (c.ip + 1)
  rw [← hip] at h₁
  rcases h₁.effect (heffect.moved (c.ip + 1)) hfits m.ip with ⟨m', hrun, h'⟩
  exact ⟨m', Exec.step_running ((h.fetch 0).trans hop) (effect_ne_halt heffect) hrun, h'⟩

theorem performPush (h : Represents im memorySize c m) {v : Int32}
    (hop : im.code[c.ip]? = some Opcode.push.cell) (hv : im.code[c.ip + 1]? = some v)
    (hfits : c.heap.length + c.stack.length < memorySize) :
    ∃ m', Exec.step.run m = .ok .running m' ∧
      Represents im memorySize { c with ip := c.ip + 2, stack := v :: c.stack } m' := by
  rcases (h.moved (c.ip + 2)).push v hfits with ⟨m', hpush, h'⟩
  refine ⟨m', Exec.step_running ((h.fetch 0).trans hop) (by simp) ?_, h'⟩
  have hv' : ({ m with ip := m.ip + 1 } : Machine).code[m.ip + 1]? = some v :=
    (h.fetch 1).trans hv
  have hip : m.ip + 1 + 1 = c.ip + 2 := by rw [h.ip]
  simp only [Exec.execute, EStateM.run_bind, Exec.operand_run hv', hip, hpush]

/-- A step to an address that is the value of a cell. -/
theorem step (h : Represents im memorySize c m) (hstep : Step im memorySize c c')
    (hto : (codeAddress c'.ip).toInt = c'.ip)
    (hfits : c'.heap.length + c'.stack.length ≤ memorySize) :
    ∃ m', Exec.step.run m = .ok .running m' ∧ Represents im memorySize c' m' := by
  have hopcode : ∀ {op : Opcode}, im.code[c.ip]? = some op.cell →
      m.code[m.ip]? = some op.cell := fun hop => (h.fetch 0).trans hop
  have hip : ({ m with ip := m.ip + 1 } : Machine) = { m with ip := c.ip + 1 } := by rw [h.ip]
  have h₁ := h.moved (c.ip + 1)
  rw [← hip] at h₁
  have hnext : ∀ {v : Int32}, im.code[c.ip + 1]? = some v →
      ({ m with ip := m.ip + 1 } : Machine).code[m.ip + 1]? = some v := fun hv =>
    (h.fetch 1).trans hv
  cases hstep with
  | effect hop heffect => exact h.perform hop heffect hfits
  | push hop hv => exact h.performPush hop hv hfits
  | jump hop hv ha =>
      rcases (h.moved (c.ip + 2)).jump hto ha m.ip with ⟨m', hjump, h'⟩
      refine ⟨m', Exec.step_running (hopcode hop) (by simp) ?_, h'⟩
      have hip₂ : m.ip + 1 + 1 = c.ip + 2 := by rw [h.ip]
      simp only [Exec.execute, EStateM.run_bind, Exec.operand_run (hnext hv), hip₂, hjump]
  | taken hop htest hv ha hstack hholds =>
      rcases h₁.comparison hv hstack _ m.ip with ⟨m₁, h₂, hrun⟩
      rcases h₂.jump hto ha m.ip with ⟨m', hjump, h'⟩
      rcases test_jumpIf htest m.ip with ⟨hrunning, hexecute⟩
      refine ⟨m', Exec.step_running (hopcode hop) hrunning ?_, h'⟩
      rw [hexecute, hrun, hholds, if_pos rfl, hjump]
  | passed hop htest hv hstack hholds =>
      rcases h₁.comparison hv hstack _ m.ip with ⟨m₁, h₂, hrun⟩
      rcases test_jumpIf htest m.ip with ⟨hrunning, hexecute⟩
      refine ⟨m₁, Exec.step_running (hopcode hop) hrunning ?_, h₂⟩
      rw [hexecute, hrun, hholds]
      rfl
  | @enter entry finish exit link args rest hop hbody hstack =>
      rcases h₁.pop hstack with ⟨hpop, h₂⟩
      have h₃ : Represents im memorySize
          { c with
            ip := c.ip + 1
            stack := link :: (args ++ c.fp :: rest)
            ra := codeAddress (c.ip + 1)
            calls := { entry, back := c.ip + 1, fp := c.fp, rest, result := none } :: c.calls }
          { m with ip := m.ip + 1, sp := m.sp + 1, ra := codeAddress (m.ip + 1) } :=
        { h₂ with ra := by rw [h.ip] }
      rcases h₃.jump hto hbody.entry_le m.ip with ⟨m', hjump, h'⟩
      refine ⟨m', Exec.step_running (hopcode hop) (by simp) ?_, h'⟩
      simp only [Exec.execute, EStateM.run_bind, hpop, EStateM.run_modify]
      exact hjump
  | @finish params exit activation calls v rest hop _ _ hstack =>
      rcases h₁.effect (Effect.popTm hstack) hfits m.ip with ⟨m', hrun, h'⟩
      exact ⟨m', Exec.step_running (hopcode hop) (by simp) hrun, { h' with }⟩
  | @leave params finish activation calls hop _ _ hstack _ _ hback _ =>
      rcases h₁.pop hstack with ⟨hpop, h₂⟩
      have h₃ : Represents im memorySize
          { c with
            ip := c.ip + 1
            stack := c.tm :: activation.rest
            ra := codeAddress (c.ip + 1)
            calls }
          { m with ip := m.ip + 1, sp := m.sp + 1, ra := codeAddress (m.ip + 1) } :=
        { h₂ with ra := by rw [h.ip] }
      rcases h₃.jump hto hback m.ip with ⟨m', hjump, h'⟩
      refine ⟨m', Exec.step_running (hopcode hop) (by simp) ?_, h'⟩
      simp only [Exec.execute, EStateM.run_bind, hpop, EStateM.run_modify]
      exact hjump

theorem step_ip_le (hstep : Step im memorySize c c') : c'.ip ≤ im.code.length := by
  have hlt : ∀ {a : Nat} {v : Int32}, im.code[a]? = some v → a < im.code.length := fun hv =>
    (List.getElem?_eq_some_iff.mp hv).1
  cases hstep with
  | effect hop _ => exact hlt hop
  | push _ hv => exact hlt hv
  | jump _ _ ha => exact ha
  | taken _ _ _ ha _ _ => exact ha
  | passed _ _ hv _ _ => exact hlt hv
  | enter _ hbody _ => exact hbody.entry_le
  | finish hop _ _ _ => exact hlt hop
  | leave _ _ _ _ _ _ ha _ => exact ha

/-- In code that is addressable every step goes to such an address. -/
theorem toInt_step [im.Addressable] (hstep : Step im memorySize c c') :
    (codeAddress c'.ip).toInt = c'.ip :=
  toInt_codeAddress Image.Addressable.code (step_ip_le hstep)

/-!
# Ends of runs
-/

/-- How the machine takes a step that pushes a value. -/
def Pushing (m : Machine) (v : Int32) (ip : Nat) : Prop :=
  (∃ memory, m.memory.write? (m.sp - 1) v = some memory ∧
    Exec.step.run m = .ok .running { m with ip, memory, sp := m.sp - 1 }) ∨
  (m.memory.write? (m.sp - 1) v = none ∧
    Exec.step.run m = .error (.memoryOutOfRange (m.sp - 1) (ip - 1)) { m with ip })

theorem pushing_of_execute {op : Opcode} {v : Int32} {ip : Nat}
    (hop : m.code[m.ip]? = some op.cell) (hrunning : op ≠ .halt)
    (hexecute : (Exec.execute m.ip op).run { m with ip := m.ip + 1 } =
      (Exec.push v).run { m with ip }) : Pushing m v ip := by
  rw [Exec.push_run] at hexecute
  cases hwrite : m.memory.write? (m.sp - 1) v with
  | none =>
      have hwrite' : ({ m with ip } : Machine).memory.write? (({ m with ip } : Machine).sp - 1) v =
          none := hwrite
      rw [hwrite'] at hexecute
      exact Or.inr ⟨hwrite, Exec.step_trapped hop hexecute⟩
  | some memory =>
      have hwrite' : ({ m with ip } : Machine).memory.write? (({ m with ip } : Machine).sp - 1) v =
          some memory := hwrite
      rw [hwrite'] at hexecute
      exact Or.inl ⟨memory, hwrite, Exec.step_running hop hrunning hexecute⟩

/-- A step after which heap and stack do not fit pushes a value. -/
theorem pushes (h : Represents im memorySize c m) (hstep : Step im memorySize c c')
    (hfits : memorySize < c'.heap.length + c'.stack.length) : ∃ v ip, Pushing m v ip := by
  have hopcode : ∀ {op : Opcode}, im.code[c.ip]? = some op.cell →
      m.code[m.ip]? = some op.cell := fun hop => (h.fetch 0).trans hop
  have hle := h.fits
  cases hstep with
  | @effect op c' hop heffect =>
      cases heffect with
      | pushFp => exact ⟨m.fp, m.ip + 1, pushing_of_execute (hopcode hop) (by simp) rfl⟩
      | pushRa => exact ⟨m.ra, m.ip + 1, pushing_of_execute (hopcode hop) (by simp) rfl⟩
      | pushTm => exact ⟨m.tm, m.ip + 1, pushing_of_execute (hopcode hop) (by simp) rfl⟩
      | pushHp => exact ⟨m.hp, m.ip + 1, pushing_of_execute (hopcode hop) (by simp) rfl⟩
      | pop hs => simp only [hs, List.length_cons] at hle hfits; omega
      | total _ hs => simp only [hs, List.length_cons] at hle hfits; omega
      | div hs _ => simp only [hs, List.length_cons] at hle hfits; omega
      | popFp hs => simp only [hs, List.length_cons] at hle hfits; omega
      | setFp hs => simp only [hs, List.length_cons] at hle hfits; omega
      | popRa hs => simp only [hs, List.length_cons] at hle hfits; omega
      | popTm hs => simp only [hs, List.length_cons] at hle hfits; omega
      | popHp hs => simp only [hs, List.length_cons] at hle hfits; omega
      | load hs _ => simp only [hs, List.length_cons] at hle hfits; omega
      | store _ hs =>
          simp only [hs, List.length_cons, List.length_append, List.length_nil] at hle hfits
          omega
      | print hs => simp only [hs, List.length_cons] at hle hfits; omega
  | @push v hop hv =>
      have hv' : ({ m with ip := m.ip + 1 } : Machine).code[m.ip + 1]? = some v :=
        (h.fetch 1).trans hv
      refine ⟨v, m.ip + 2, pushing_of_execute (hopcode hop) (by simp) ?_⟩
      simp only [Exec.execute, EStateM.run_bind, Exec.operand_run hv']
  | jump hop hv ha => exact absurd hle (Nat.not_le_of_lt hfits)
  | taken hop htest hv ha hs hholds => simp only [hs, List.length_cons] at hle hfits; omega
  | passed hop htest hv hs hholds => simp only [hs, List.length_cons] at hle hfits; omega
  | enter _ _ hs => simp only [hs, List.length_cons] at hle hfits; omega
  | finish _ _ _ hs => simp only [hs, List.length_cons] at hle hfits; omega
  | leave _ _ _ hs _ _ _ _ => simp only [hs, List.length_cons] at hle hfits; omega

theorem growth (hstep : Step im memorySize c c') :
    c'.heap.length + c'.stack.length ≤ c.heap.length + c.stack.length + 1 := by
  cases hstep with
  | effect hop heffect =>
      cases heffect with
      | store _ hs =>
          simp only [hs, List.length_cons, List.length_append, List.length_nil]
          omega
      | pop hs => simp only [hs, List.length_cons]; omega
      | total _ hs => simp only [hs, List.length_cons]; omega
      | div hs _ => simp only [hs, List.length_cons]; omega
      | popFp hs => simp only [hs, List.length_cons]; omega
      | popRa hs => simp only [hs, List.length_cons]; omega
      | popTm hs => simp only [hs, List.length_cons]; omega
      | popHp hs => simp only [hs, List.length_cons]; omega
      | load hs _ => simp only [hs, List.length_cons]; omega
      | setFp hs => exact Nat.le_succ _
      | print hs => exact Nat.le_succ _
      | _ => simp only [List.length_cons]; omega
  | push _ _ => simp only [List.length_cons]; omega
  | jump _ _ _ => exact Nat.le_succ _
  | taken _ _ _ _ hs _ => simp only [hs, List.length_cons]; omega
  | passed _ _ _ hs _ => simp only [hs, List.length_cons]; omega
  | enter _ _ hs => simp only [hs, List.length_cons]; omega
  | finish _ _ _ hs => simp only [hs, List.length_cons]; omega
  | leave _ _ _ hs _ _ _ _ => simp only [hs, List.length_cons]; omega

/-- A stack that has the memory to itself and outgrows it. -/
theorem overflow (h : Represents im memorySize c m) (hheap : c.heap = [])
    (hstep : Step im memorySize c c')
    (hfits : memorySize < c'.heap.length + c'.stack.length) :
    ∃ ip m', Exec.step.run m = .error (.memoryOutOfRange (-1) ip) m' := by
  have hfull : c.stack.length = memorySize := by
    have hle := h.fits
    have hgrowth := growth hstep
    simp only [hheap, List.length_nil] at hle hgrowth
    omega
  have hsp : m.sp - 1 = -1 := by
    rw [h.sp, hfull, Int.sub_self]
    rfl
  rcases h.pushes hstep hfits with ⟨v, ip, ⟨memory, hwrite, _⟩ | ⟨_, htrap⟩⟩
  · have hsome := Option.isSome_of_eq_some hwrite
    rw [hsp, Memory.write?_isSome_iff] at hsome
    exact absurd hsome.1 (by decide)
  · rw [hsp] at htrap
    exact ⟨_, _, htrap⟩

theorem halts (h : Represents im memorySize c m)
    (hop : im.code[c.ip]? = some Opcode.halt.cell) :
    Exec.step.run m = .ok .halted { m with ip := m.ip + 1 } := by
  rw [Exec.step_run ((h.fetch 0).trans hop)]
  rfl

theorem divides (h : Represents im memorySize c m) {left : Int32} {rest : List Int32}
    (hop : im.code[c.ip]? = some Opcode.div.cell) (hstack : c.stack = 0 :: left :: rest) :
    ∃ sp, Exec.step.run m =
      .error (.divisionByZero m.ip) { m with ip := m.ip + 1, sp } := by
  have h₁ := h.moved (m.ip + 1)
  rcases h₁.pop hstack with ⟨hright, h₂⟩
  rcases h₂.pop rfl with ⟨hleft, _⟩
  refine ⟨m.sp + 1 + 1, ?_⟩
  refine Exec.step_trapped ((h.fetch 0).trans hop) ?_
  simp only [Exec.execute, Exec.divide, EStateM.run_bind, hright, hleft, if_true]
  rfl

/-- Nothing is stored at the address that stands for `null`. -/
theorem loads_null (h : Represents im memorySize c m) {rest : List Int32}
    (hop : im.code[c.ip]? = some Opcode.load.cell) (hstack : c.stack = -1 :: rest) :
    ∃ sp, Exec.step.run m =
      .error (.memoryOutOfRange (-1) m.ip) { m with ip := m.ip + 1, sp } := by
  have h₁ := h.moved (m.ip + 1)
  rcases h₁.pop hstack with ⟨haddress, _⟩
  have hout : m.memory.read? (-1) = none := by
    rw [← Option.not_isSome_iff_eq_none, Memory.read?_isSome_iff]
    rintro ⟨hnonneg, _⟩
    exact absurd hnonneg (by decide)
  refine ⟨m.sp + 1, ?_⟩
  refine Exec.step_trapped ((h.fetch 0).trans hop) ?_
  simp only [Exec.execute, EStateM.run_bind, haddress, Exec.read_run, hout, Nat.add_sub_cancel]

end Represents

end ClassLet
