import ClassLet.Proofs.Generation.ProgramCode
import ClassLet.Proofs.Members.Substitution
import ClassLet.Proofs.Semantics.Evaluation

/-!
# Values in memory

What is fixed while a program runs, what has been stored so far and can only grow, and which cells
fit which types.

Main statements: `Fits.subtype`, a value that fits a type fits the types above it, and `Fits.mono`,
it keeps fitting while more is stored.
-/

namespace ClassLet

/-- What does not change during a run: the code, the size of the memory and the classes. -/
structure World where
  im : Image
  [addressableCode : im.Addressable]
  /-- In front of a body there is no call, but the return from another body. -/
  returns : ∀ a, im.Entry (a + 2) → im.code[a + 1]? = some Opcode.call.cell →
    im.code[a]? = some Opcode.pushRa.cell
  memorySize : Nat
  addressable : isAddressable memorySize = true
  tables : ClassTables
  hierarchy : Hierarchy
  settled : ∃ env, Settled env hierarchy ∧ env.classes = tables
  labels : DispatchLabels

instance (w : World) : w.im.Addressable :=
  w.addressableCode

namespace World

/-- No body begins behind a call, whose target has just been loaded. -/
theorem not_entry (w : World) {a : Nat} {items : List Item}
    (hcode : CodeAt w.im.listing a (items ++ [.bare .call]))
    (hloads : items.getLast? = some (.bare .load)) : ¬w.im.Entry (a + cellCount items + 1) := by
  rcases List.getLast?_eq_some_iff.mp hloads with ⟨before, rfl⟩
  intro hentry
  have hload : w.im.code[a + cellCount before]? = some Opcode.load.cell :=
    hcode.left.right.opcode w.im.coherent
  have hcall : w.im.code[a + cellCount (before ++ [.bare .load])]? = some Opcode.call.cell :=
    hcode.right.opcode w.im.coherent
  rw [cellCount_append, ← Nat.add_assoc] at hentry hcall
  rw [w.returns _ hentry hcall] at hload
  exact absurd hload (by decide)

/-- The base of the top-level frame. -/
def topBase (w : World) : Int32 :=
  Int32.ofNat w.memorySize

def context (w : World) (inside : Bool) : CodeContext :=
  { memorySize := w.topBase, insideClass := inside }

theorem refines (w : World) {sub super : String} {own : MemberTable}
    (hdescends : w.hierarchy.Descends sub super) (hown : w.tables.find? sub = some own) :
    ∃ above, w.tables.find? super = some above ∧ own.Refines above w.hierarchy := by
  rcases w.settled with ⟨env, hsettled, htables⟩
  rw [← htables] at hown ⊢
  exact hsettled.descends hdescends hown

theorem named (w : World) {name : String} {table : MemberTable}
    (hfind : w.tables.find? name = some table) : ∃ names, table.Named names := by
  rcases w.settled with ⟨env, hsettled, htables⟩
  rw [← htables] at hfind
  exact hsettled.atTop.named name table hfind

end World

/-!
# What has been stored
-/

/-- The heap, the objects on it, and cells of the top-level frame. -/
structure Snapshot where
  heap : List Int32
  objects : List (Int32 × Object)
  floor : List Int32

namespace Snapshot

/-- More is stored, and what was there before is still there. -/
structure Grows (k k' : Snapshot) : Prop where
  heap : k.heap <+: k'.heap
  objects : ∀ a o, k.objects.lookup a = some o → k'.objects.lookup a = some o
  floor : k.floor <:+ k'.floor

namespace Grows

variable {k k' k'' : Snapshot}

theorem refl (k : Snapshot) : Grows k k where
  heap := List.prefix_rfl
  objects := fun _ _ h => h
  floor := List.suffix_rfl

theorem trans (h : Grows k k') (h' : Grows k' k'') : Grows k k'' where
  heap := h.heap.trans h'.heap
  objects := fun a o ho => h'.objects a o (h.objects a o ho)
  floor := h.floor.trans h'.floor

theorem cell (h : Grows k k') {i : Nat} {v : Int32} (hi : k.heap[i]? = some v) :
    k'.heap[i]? = some v := by
  rcases h.heap with ⟨new, hnew⟩
  rw [← hnew, List.getElem?_append_left (List.getElem?_eq_some_iff.mp hi).1]
  exact hi

end Grows

end Snapshot

/-!
# Values of a type
-/

/-- The cell represents a value of the type. Functions, methods and classes are no values. -/
inductive Fits (w : World) (k : Snapshot) : Ty → Int32 → Prop where
  | int (v : Int32) : Fits w k .int v
  | bool {v : Int32} : v = 0 ∨ v = 1 → Fits w k .bool v
  | null : Fits w k .null (-1)
  | nullRef (name : String) : Fits w k (.ref name) (-1)
  | object {name : String} {v : Int32} {o : Object} :
      k.objects.lookup v = some o →
      w.hierarchy.Descends o.className name →
      Fits w k (.ref name) v

abbrev FitsAll (w : World) (k : Snapshot) : List Ty → List Int32 → Prop :=
  List.Forall₂ (Fits w k)

namespace Fits

variable {w : World} {k k' : Snapshot} {s t : Ty} {v : Int32}

theorem mono (h : Fits w k t v) (hk : k.Grows k') : Fits w k' t v := by
  cases h with
  | int v => exact int v
  | bool hv => exact bool hv
  | null => exact null
  | nullRef name => exact nullRef name
  | object ho hdescends => exact object (hk.objects _ _ ho) hdescends

theorem signature?_eq_none (h : Fits w k t v) : t.signature? = none := by
  cases h <;> rfl

theorem subtype (h : Fits w k s v) (hst : w.hierarchy.isSubtype s t = true) : Fits w k t v := by
  have hbelow : w.hierarchy.isBelow s t = true :=
    (Hierarchy.compare_plain w.hierarchy .below t h.signature?_eq_none).symm.trans hst
  cases h with
  | int v => cases t <;> first | exact int v | cases hbelow
  | bool hv =>
      cases t with
      | bool => exact bool hv
      | int => exact int v
      | _ => cases hbelow
  | null =>
      cases t with
      | null => exact null
      | ref name => exact nullRef name
      | _ => cases hbelow
  | nullRef name =>
      cases t with
      | ref name => exact nullRef name
      | _ => cases hbelow
  | object ho hdescends =>
      cases t with
      | ref name =>
          rw [Hierarchy.isBelow_ref] at hbelow
          exact object ho (hdescends.trans hbelow)
      | _ => cases hbelow

theorem truth (b : Bool) : Fits w k .bool (if b then 1 else 0) := by
  cases b with
  | true => exact bool (Or.inr rfl)
  | false => exact bool (Or.inl rfl)

end Fits

namespace FitsAll

variable {w : World} {k k' : Snapshot} {ts us : List Ty} {vs : List Int32}

theorem mono (h : FitsAll w k ts vs) (hk : k.Grows k') : FitsAll w k' ts vs :=
  h.imp fun _ _ hfits => hfits.mono hk

theorem subtype (h : FitsAll w k ts vs) (hle : w.hierarchy.compareAll .below ts us = true) :
    FitsAll w k us vs := by
  induction h generalizing us with
  | nil =>
      cases us with
      | nil => exact List.Forall₂.nil
      | cons u us => cases hle
  | cons hfits _ ih =>
      cases us with
      | nil => cases hle
      | cons u us =>
          simp only [Hierarchy.compareAll, Bool.and_eq_true] at hle
          exact List.Forall₂.cons (hfits.subtype hle.1) (ih hle.2)

end FitsAll

/-!
# Cells of the stack
-/

/-- The stack holds the value in the cell with the address. -/
def Held (w : World) (stack : List Int32) (address v : Int32) : Prop :=
  ∃ above below, stack = above ++ v :: below ∧ address = stackAddress w.memorySize below.length

namespace Held

variable {w : World} {stack stack' : List Int32} {address v : Int32}

theorem top (w : World) (v : Int32) (stack : List Int32) :
    Held w (v :: stack) (stackAddress w.memorySize stack.length) v :=
  ⟨[], stack, rfl, rfl⟩

theorem mono (h : Held w stack address v) (hstack : stack <:+ stack') :
    Held w stack' address v := by
  rcases h with ⟨above, below, rfl, haddress⟩
  rcases hstack with ⟨more, rfl⟩
  exact ⟨more ++ above, below, by simp, haddress⟩

theorem reads {c : Config} (h : Held w stack address v) (hstack : stack <:+ c.stack) :
    c.Reads w.memorySize address v := by
  rcases h.mono hstack with ⟨above, below, hsplit, rfl⟩
  exact Config.Reads.stack hsplit

end Held

/-- Following the given number of links, each of them the cell at a base, leads from one base to
another. -/
inductive Hops (w : World) (stack : List Int32) : Nat → Int32 → Int32 → Prop where
  | here (base : Int32) : Hops w stack 0 base base
  | next {n : Nat} {base link target : Int32} :
      Held w stack base link →
      Hops w stack n link target →
      Hops w stack (n + 1) base target

theorem Hops.mono {w : World} {stack stack' : List Int32} {n : Nat} {base target : Int32}
    (h : Hops w stack n base target) (hstack : stack <:+ stack') :
    Hops w stack' n base target := by
  induction h with
  | here base => exact here base
  | next hheld _ ih => exact next (hheld.mono hstack) ih

end ClassLet
