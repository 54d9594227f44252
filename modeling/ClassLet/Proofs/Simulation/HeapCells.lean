import ClassLet.Proofs.Simulation.MemorySizes
import ClassLet.Proofs.Simulation.Traces

/-!
# Cells of the heap

Dispatch tables and objects are built at the heap pointer, cell by cell, and are never changed. The
machine itself stores wherever the address on its stack says; it is the code of a program that takes
the address from the heap pointer each time. The constant that raises the heap pointer is pushed
while the new cell is still above it, so all of this needs heap and stack to be apart.

Main statement: `Program.heap_kept`.
-/

namespace ClassLet

/-!
# Heaps that grow
-/

namespace Config

structure HeapGrows (c c' : Config) : Prop where
  cells : c.heap <+: c'.heap
  hp : c.hp ≤ c'.hp

theorem HeapGrows.of_eq {c c' : Config} (hheap : c'.heap = c.heap) (hhp : c'.hp = c.hp) :
    c.HeapGrows c' where
  cells := hheap ▸ List.prefix_rfl
  hp := Nat.le_of_eq hhp.symm

theorem HeapGrows.trans {c c' c'' : Config} (h : c.HeapGrows c') (h' : c'.HeapGrows c'') :
    c.HeapGrows c'' where
  cells := h.cells.trans h'.cells
  hp := Nat.le_trans h.hp h'.hp

theorem HeapGrows.cell {c c' : Config} (h : c.HeapGrows c') {i : Nat} {v : Int32}
    (hi : c.heap[i]? = some v) : c'.heap[i]? = some v := by
  rcases h.cells with ⟨new, hnew⟩
  rw [← hnew, List.getElem?_append_left (List.getElem?_eq_some_iff.mp hi).1]
  exact hi

end Config

variable {im : Image} {memorySize : Nat} {bound : Bound} {c c' : Config}

theorem Effect.heapGrows {op : Opcode} (h : Effect memorySize c op c')
    (hle : c.hp ≤ c.heap.length) : c.HeapGrows c' ∧ c'.hp ≤ c'.heap.length := by
  cases h with
  | popHp _ => exact ⟨⟨List.prefix_rfl, hle⟩, Nat.le_refl _⟩
  | store _ _ =>
      refine ⟨⟨List.prefix_append _ _, Nat.le_refl _⟩, ?_⟩
      rw [List.length_append]
      exact Nat.le_trans hle (Nat.le_add_right _ _)
  | _ => exact ⟨Config.HeapGrows.of_eq rfl rfl, hle⟩

theorem Step.heapGrows (h : Step im memorySize c c') (hle : c.hp ≤ c.heap.length) :
    c.HeapGrows c' ∧ c'.hp ≤ c'.heap.length := by
  cases h with
  | effect _ heffect =>
      rcases heffect.heapGrows hle with ⟨hgrows, hle'⟩
      exact ⟨⟨hgrows.cells, hgrows.hp⟩, hle'⟩
  | _ => exact ⟨Config.HeapGrows.of_eq rfl rfl, hle⟩

theorem Steps.heapGrows {n : Nat} (h : Steps im memorySize bound n c c')
    (hle : c.hp ≤ c.heap.length) : c.HeapGrows c' := by
  induction h with
  | refl c => exact Config.HeapGrows.of_eq rfl rfl
  | step hstep _ _ ih =>
      rcases hstep.heapGrows hle with ⟨hgrows, hle'⟩
      exact hgrows.trans (ih hle')

/-- A cell is stored at the heap pointer. -/
theorem Step.stores (h : Step im memorySize c c')
    (hop : im.code[c.ip]? = some Opcode.store.cell) :
    ∃ v rest, c.stack = heapAddress c.hp :: v :: rest ∧ c.heap.length = c.hp ∧
      c'.heap = c.heap ++ [v] := by
  have hother : ∀ {op : Opcode}, im.code[c.ip]? = some op.cell → op = .store := by
    intro op hcell
    rw [hop, Option.some.injEq] at hcell
    exact (Opcode.cell_inj hcell).symm
  cases h with
  | effect hcell heffect =>
      cases hother hcell
      cases heffect with
      | total htotal _ => cases htotal
      | store hheap hstack => exact ⟨_, _, hstack, hheap, rfl⟩
  | push hcell _ => cases hother hcell
  | jump hcell _ _ => cases hother hcell
  | taken hcell htest _ _ _ _ =>
      cases hother hcell
      cases htest
  | passed hcell htest _ _ _ =>
      cases hother hcell
      cases htest
  | enter hcell _ _ => cases hother hcell
  | finish hcell _ _ _ => cases hother hcell
  | leave hcell _ _ _ _ => cases hother hcell

/-- What is stored at the heap pointer stays there. -/
theorem Steps.stores {n : Nat} (h : Steps im memorySize bound n c c') (hpos : 0 < n)
    (hop : im.code[c.ip]? = some Opcode.store.cell) (hle : c.hp ≤ c.heap.length) :
    ∃ v rest, c.stack = heapAddress c.hp :: v :: rest ∧ c'.heap[c.hp]? = some v := by
  cases h with
  | refl => exact absurd hpos (Nat.lt_irrefl 0)
  | step hstep _ hrest =>
      rcases hstep.stores hop with ⟨v, rest, hstack, hlength, hheap⟩
      have hcell : (c.heap ++ [v])[c.hp]? = some v := by
        rw [← hlength, List.getElem?_concat_length]
      rw [← hheap] at hcell
      have hgrows := hrest.heapGrows (hstep.heapGrows hle).2
      exact ⟨v, rest, hstack, hgrows.cell hcell⟩

/-!
# The heap of the machine
-/

namespace Machine

/-- The heap pointer is not lowered, and the cells below it are left as they are. -/
structure KeepsHeap (m m' : Machine) : Prop where
  hp : m.hp.toInt ≤ m'.hp.toInt
  cells : ∀ a : Int32, 0 ≤ a.toInt → a.toInt < m.hp.toInt → m'.memory.read? a = m.memory.read? a

/-- The next step stores a value at the heap pointer. -/
def Stores (m : Machine) (v : Int32) : Prop :=
  m.memory.read? m.sp = some m.hp ∧ m.memory.read? (m.sp + 1) = some v

theorem Ends.not_store {m : Machine} (h : m.Ends) : m.code[m.ip]? ≠ some Opcode.store.cell := by
  rcases h.opcode with ⟨op, hop, hmem⟩
  rw [hop, ne_eq, Option.some.injEq]
  intro heq
  rw [Opcode.cell_inj heq] at hmem
  simp at hmem

end Machine

namespace Represents

variable {m m' : Machine}

theorem keepsHeap (h : Represents im memorySize c m) (h' : Represents im memorySize c' m')
    (hgrows : c.HeapGrows c') : m.KeepsHeap m' where
  hp := by
    rw [h.toInt_hp, h'.toInt_hp]
    exact Int.ofNat_le.mpr hgrows.hp
  cells := by
    intro a _ hlt
    rw [h.toInt_hp] at hlt
    have hle := h.hp_le
    exact h.read_eq h' List.prefix_rfl hgrows.cells List.nil_suffix List.nil_suffix
      (Or.inl (by omega))

theorem stores (h : Represents im memorySize c m) {v : Int32} {rest : List Int32}
    (hstack : c.stack = heapAddress c.hp :: v :: rest) : m.Stores v := by
  rcases h.pop hstack with ⟨_, h₁⟩
  refine ⟨?_, h₁.read_top rfl⟩
  rw [h.hp]
  exact h.read_top hstack

end Represents

namespace Program

/-- However long a program runs, as long as heap and stack are apart: the heap pointer is never
lowered, a cell below it is never changed, and what is stored is stored at the heap pointer and
stays there. So a table keeps its entries, and an object its fields and its dispatch pointer. A jump
goes to an address that is the value of a cell, so the code has to be addressable as the memory
is. -/
theorem heap_kept {p : Program} {t : Target} {b : Build} (hbuild : t.build p = .ok b)
    (hcode : isAddressable b.code.length = true) :
    ∃ m, Machine.load b.code t.codeSize t.memorySize = .ok m ∧
      ∀ n m' k, m.Reaches n m' → (∀ j m'', j ≤ n + k → m.Reaches j m'' → m''.Apart) →
        m'.KeepsHeap (m'.run k).2 ∧
          (m'.code[m'.ip]? = some Opcode.store.cell →
            ∃ v, m'.Stores v ∧ (0 < k → (m'.run k).2.memory.read? m'.hp = some v)) := by
  rcases loaded hbuild hcode with ⟨w, m, ty, hloaded⟩
  refine ⟨m, hloaded.load, ?_⟩
  intro n m' k hreaches hapart
  rcases hloaded.traceRun hreaches hapart with
    ⟨j, c, c', m'', hc, hsteps, hc', hmoves, ip, sp, hleft⟩
  rw [hleft]
  have hkept := hc.keepsHeap hc' (hsteps.heapGrows hc.hp_le)
  refine ⟨⟨hkept.hp, hkept.cells⟩, fun hop => ?_⟩
  rcases hloaded.trace hreaches fun j m₁ hj =>
      hapart j m₁ (Nat.le_trans hj (Nat.le_add_right n k)) with ⟨c₀, _, hc₀, ⟨_, hstep⟩ | hending⟩
  · rcases hstep.stores ((hc₀.fetch 0).symm.trans hop) with ⟨v, rest, hstack, _⟩
    have hstores := hc₀.stores hstack
    refine ⟨v, hstores, fun hk => ?_⟩
    rcases hmoves hk with hj | hends
    · rcases hsteps.stores hj ((hc.fetch 0).symm.trans hop) hc.hp_le with
        ⟨v', rest', hstack', hcell⟩
      obtain rfl : v' = v := Option.some.inj ((hc.stores hstack').2.symm.trans hstores.2)
      rw [hc.hp]
      exact hc'.heapCells c.hp v' hcell
    · exact absurd hop hends.not_store
  · exact absurd hop (hc₀.ends hending).not_store

/-- One cell less and the stack would run into the object. -/
theorem heap_kept_misled :
    let t : Target := { memorySize := 14 }
    ∃ b m, t.build misled = .ok b ∧ isAddressable b.code.length = true ∧
      Machine.load b.code t.codeSize t.memorySize = .ok m ∧ (∀ n m', m.Reaches n m' → m'.Apart) ∧
      ∀ n m' k, m.Reaches n m' →
        m'.KeepsHeap (m'.run k).2 ∧
          (m'.code[m'.ip]? = some Opcode.store.cell →
            ∃ v, m'.Stores v ∧ (0 < k → (m'.run k).2.memory.read? m'.hp = some v)) := by
  rcases returns_of_compiledRun (by decide) misled_fourteen nofun (by decide) with
    ⟨b, hbuild, hlength, _, hapart⟩
  have hcode : isAddressable b.code.length = true := by
    rw [hlength]
    decide
  rcases heap_kept hbuild hcode with ⟨m, hload, hkept⟩
  have hrun := hapart rfl m hload
  exact ⟨b, m, hbuild, hcode, hload, hrun, fun n m' k hreaches =>
    hkept n m' k hreaches fun j m'' _ => hrun j m''⟩

/-- The conditional jumps to the operand of a push, which is the opcode that sets the heap pointer.
On top of the stack is the operand of the addition. -/
def lowering : Program :=
  plain (.binary Written.start .add
    (.binary Written.start .sub (.int Written.start 0) (.int Written.start 1))
    (.skipping (.int Written.start 0) (.doubled .add (.divisionOf 19) 31)))

/-- The code up to the first instructions of the second branch. -/
def loweringCells : List Int32 :=
  [Opcode.push.cell, 0, Opcode.push.cell, 1, Opcode.sub.cell] ++
    [Opcode.push.cell, 1, Opcode.push.cell, 1, Opcode.jumpEq.cell, 12, Opcode.push.cell, 19,
      Opcode.push.cell, 0, Opcode.div.cell]

theorem lowering_cells (memorySize : Int32) :
    ∃ l, (lowering.compile memorySize).listing = some l ∧ loweringCells <+: l.encode := by
  have hskipped := (Expr.constant_divisionOf 19).doubled .add rfl 31
  have hright := (Expr.Constant.int 0).skipping hskipped rfl
  have hleft := (Expr.Constant.int 0).binary .sub (Expr.Constant.int 1) rfl
  rcases plain_listing (hleft.binary .add hright rfl) memorySize with
    ⟨l, n, hlisting, hcoherent, hcode⟩
  refine ⟨l, hlisting, ?_⟩
  have hall : CodeAt l 0 ([.push 0, .push 1, .bare .sub] ++ (_ ++ _)) := hcode
  exact append_prefix_of_drop (hall.left.cells_prefix hcoherent)
    (Expr.cells_skipping_divisionOf hcoherent hall.right.left)

/-- The heap pointer, which was zero, is negative behind the jump. -/
theorem heap_kept_lowering :
    ∃ (t : Target) (b : Build) (m : Machine), t.build lowering = .ok b ∧
      Machine.load b.code t.codeSize t.memorySize = .ok m ∧ (∀ n m', m.Reaches n m' → m'.Apart) ∧
      ∃ m', m.Reaches 7 m' ∧ m'.hp.toInt < m.hp.toInt := by
  rcases lowering_cells (Int32.ofNat 10000) with ⟨l, hlisting, hcells⟩
  have hmemory : isAddressable 10000 = true := by decide
  rcases build_of_cells hmemory hlisting hcells with ⟨b, more, hbuild, _, hload⟩
  let s := Machine.start loweringCells 10000
  have hends : s.endsInside 10 = true := by decide +kernel
  have hlowered : (s.run 7).1 = .outOfSteps ∧ (s.run 7).2.hp.toInt < s.hp.toInt := by
    decide +kernel
  exact ⟨_, b, _, hbuild, hload, fun n m' => Machine.apart_of_endsInside more hends, _,
    s.reaches_run_extended more hlowered.1 (Nat.le_refl 7), hlowered.2⟩

end Program

end ClassLet
