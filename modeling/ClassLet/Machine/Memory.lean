import Std.Data.TreeMap

/-!
# Memory

A memory is a fixed number of cells, addressed from zero and holding zero at first. Only the
cells that have been written are stored, so a large memory takes no room until it is used.

Main statements: `read?_write?` says what is read after a cell was written, and
`read?_isSome_iff` which addresses can be read.
-/

namespace ClassLet

structure Memory where
  size : Nat
  cells : Std.TreeMap Nat Int32
deriving Inhabited

namespace Memory

def zeroed (size : Nat) : Memory :=
  { size, cells := ∅ }

/-- The cell that an address refers to, if there is one. -/
def index? (m : Memory) (address : Int32) : Option Nat :=
  if 0 ≤ address.toInt ∧ address.toInt < m.size then some address.toInt.toNat else none

def read? (m : Memory) (address : Int32) : Option Int32 :=
  (m.index? address).map fun i => m.cells.getD i 0

def write? (m : Memory) (address value : Int32) : Option Memory :=
  (m.index? address).map fun i => { m with cells := m.cells.insert i value }

theorem read?_isSome_iff (m : Memory) (address : Int32) :
    (m.read? address).isSome ↔ 0 ≤ address.toInt ∧ address.toInt < m.size := by
  by_cases h : 0 ≤ address.toInt ∧ address.toInt < m.size <;> simp [read?, index?, h]

theorem write?_isSome_iff (m : Memory) (address value : Int32) :
    (m.write? address value).isSome ↔ 0 ≤ address.toInt ∧ address.toInt < m.size := by
  by_cases h : 0 ≤ address.toInt ∧ address.toInt < m.size <;> simp [write?, index?, h]

theorem size_of_write? {m m' : Memory} {address value : Int32}
    (h : m.write? address value = some m') : m'.size = m.size := by
  simp only [write?, Option.map_eq_some_iff] at h
  rcases h with ⟨i, _, rfl⟩
  rfl

theorem read?_write? {m m' : Memory} {address value : Int32}
    (h : m.write? address value = some m') (a : Int32) :
    m'.read? a = if a = address then some value else m.read? a := by
  have hsize := size_of_write? h
  simp only [write?, index?, Option.map_eq_some_iff] at h
  rcases h with ⟨i, hi, rfl⟩
  split at hi
  · rename_i hrange
    simp only [Option.some.injEq] at hi
    by_cases ha : a = address
    · subst ha
      simp [read?, index?, hrange, hi]
    · simp only [ha, if_false]
      unfold read? index?
      simp only
      split
      · rename_i harange
        have hne : address.toInt ≠ a.toInt := fun heq => ha (Int32.toInt_inj.mp heq.symm)
        have hcell : i ≠ a.toInt.toNat := by omega
        simp only [Option.map_some, Option.some.injEq]
        rw [Std.TreeMap.getD_insert, if_neg]
        exact fun heq => hcell (Nat.compare_eq_eq.mp heq)
      · rfl
  · exact absurd hi (by simp)

end Memory

end ClassLet
