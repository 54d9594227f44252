import ClassLet.Machine
import ClassLet.Proofs.Generation.EmittedBodies

/-!
# The machine without limits

A configuration holds the heap and the stack as two lists, so that neither can run into the other;
the memory size is still where the stack begins. Besides the registers it remembers the calls
under way, which the machine itself does not: a call enters a routine of the code, and only the
last instruction of that routine leaves it, to the cell behind the call. By then the frame is off
the stack, and the result is where it was.

Main statement: `Steps.trans`, runs are composed of the runs of their parts.
-/

namespace ClassLet

/-!
# Code
-/

/-- A listing that can be executed. -/
structure Image where
  listing : Listing
  coherent : listing.Coherent

namespace Image

def code (im : Image) : List Int32 :=
  im.listing.encode

/-- Every address of the code is the value of a cell. Without this the cell of a label can be the
address of something else. -/
class Addressable (im : Image) : Prop where
  code : isAddressable im.code.length = true

/-- The code between the label of a function and the `js` in front of the next one, with the
address of the label and that of the `js`. -/
def Routine (im : Image) (entry exit : Nat) : Prop :=
  ∃ pre name inner line post,
    im.listing.items =
      pre ++ .label name :: inner ++ .instruction { op := .call, operand := none, line } :: post ∧
    IsFunctionLabel name ∧ (∀ n ∈ labelNames inner, ¬IsFunctionLabel n) ∧
    (post = [] ∨ ∃ n rest, post = .label n :: rest ∧ IsFunctionLabel n) ∧
    entry = cellCount pre ∧ exit = cellCount (pre ++ .label name :: inner)

/-- A routine is the code of a body. Its result has been evaluated when the run comes to the third
address, where the frame begins to be taken off the stack. -/
def Body (im : Image) (params entry finish exit : Nat) : Prop :=
  ∃ label locals inner, CodeAt im.listing entry (Code.routine label locals params inner) ∧
    im.Routine entry exit ∧ finish = entry + 2 + cellCount inner ∧
    exit = finish + cellCount (Code.dropFrame locals params)

/-- A body begins at the address. -/
def Entry (im : Image) (a : Nat) : Prop :=
  ∃ name, IsFunctionLabel name ∧ im.listing.address? name = some a

end Image

/-!
# Configurations
-/

/-- A routine that has been entered, and the cell behind the call. -/
structure Call where
  entry : Nat
  back : Nat
deriving DecidableEq, Repr, Inhabited

/-- A call under way, and what the caller finds again behind it. -/
structure Activation extends Call where
  fp : Int32
  /-- The stack below the arguments. -/
  rest : List Int32
  /-- The result, once it has been evaluated. -/
  result : Option Int32
deriving DecidableEq, Repr, Inhabited

structure Config where
  ip : Nat
  /-- The top of the stack comes first. -/
  stack : List Int32
  /-- The cells from address zero on; the last one may lie behind the heap pointer. -/
  heap : List Int32
  hp : Nat
  fp : Int32
  ra : Int32
  tm : Int32
  output : List Int32
  /-- The innermost call comes first. -/
  calls : List Activation
deriving Inhabited

/-- The address of the stack cell with the given number of cells below it. -/
def stackAddress (memorySize below : Nat) : Int32 :=
  Int32.ofInt ((memorySize : Int) - (below + 1))

/-- The address of a heap cell. -/
def heapAddress (i : Nat) : Int32 :=
  Int32.ofInt i

/-- The address of a code cell. -/
def codeAddress (a : Nat) : Int32 :=
  Int32.ofNat a

namespace Config

/-- The memory holds the value at the address. -/
inductive Reads (memorySize : Nat) (c : Config) : Int32 → Int32 → Prop where
  | heap {i : Nat} {v : Int32} : c.heap[i]? = some v → Reads memorySize c (heapAddress i) v
  | stack {above below : List Int32} {v : Int32} :
      c.stack = above ++ v :: below → Reads memorySize c (stackAddress memorySize below.length) v

/-- The heap and the stack have met. -/
def Full (memorySize : Nat) (c : Config) : Prop :=
  memorySize ≤ c.hp + c.stack.length

end Config

/-!
# Instructions
-/

namespace Opcode

/-- The arithmetic operations that cannot fail. -/
def total? : Opcode → Option (Int32 → Int32 → Int32)
  | add => some (· + ·)
  | sub => some (· - ·)
  | mul => some (· * ·)
  | _ => none

/-- The comparison of a conditional jump. -/
def test? : Opcode → Option (Int32 → Int32 → Bool)
  | jumpEq => some fun left right => left == right
  | jumpLe => some fun left right => left ≤ right
  | _ => none

end Opcode

/-- What an instruction without an operand does, apart from going on to the next one. -/
inductive Effect (memorySize : Nat) (c : Config) : Opcode → Config → Prop where
  | pop {v : Int32} {rest : List Int32} :
      c.stack = v :: rest →
      Effect memorySize c .pop { c with stack := rest }
  | total {op : Opcode} {f : Int32 → Int32 → Int32} {left right : Int32} {rest : List Int32} :
      op.total? = some f →
      c.stack = right :: left :: rest →
      Effect memorySize c op { c with stack := f left right :: rest }
  | div {left right : Int32} {rest : List Int32} :
      c.stack = right :: left :: rest →
      right ≠ 0 →
      Effect memorySize c .div { c with stack := left / right :: rest }
  | pushFp : Effect memorySize c .pushFp { c with stack := c.fp :: c.stack }
  | popFp {v : Int32} {rest : List Int32} :
      c.stack = v :: rest →
      Effect memorySize c .popFp { c with stack := rest, fp := v }
  | setFp {v : Int32} {rest : List Int32} :
      c.stack = v :: rest →
      Effect memorySize c .setFp { c with fp := stackAddress memorySize rest.length }
  | pushRa : Effect memorySize c .pushRa { c with stack := c.ra :: c.stack }
  | popRa {v : Int32} {rest : List Int32} :
      c.stack = v :: rest →
      Effect memorySize c .popRa { c with stack := rest, ra := v }
  | pushTm : Effect memorySize c .pushTm { c with stack := c.tm :: c.stack }
  | popTm {v : Int32} {rest : List Int32} :
      c.stack = v :: rest →
      Effect memorySize c .popTm { c with stack := rest, tm := v }
  | pushHp : Effect memorySize c .pushHp { c with stack := heapAddress c.hp :: c.stack }
  | popHp {rest : List Int32} :
      c.stack = heapAddress c.heap.length :: rest →
      Effect memorySize c .popHp { c with stack := rest, hp := c.heap.length }
  | load {address v : Int32} {rest : List Int32} :
      c.stack = address :: rest →
      Config.Reads memorySize { c with stack := rest } address v →
      Effect memorySize c .load { c with stack := v :: rest }
  | store {v : Int32} {rest : List Int32} :
      c.heap.length = c.hp →
      c.stack = heapAddress c.hp :: v :: rest →
      Effect memorySize c .store { c with stack := rest, heap := c.heap ++ [v] }
  | print {v : Int32} {rest : List Int32} :
      c.stack = v :: rest →
      Effect memorySize c .print { c with output := c.output ++ [v] }

/-- The effect is the same wherever the instruction is. -/
theorem Effect.moved {memorySize : Nat} {c c' : Config} {op : Opcode}
    (h : Effect memorySize c op c') (a : Nat) :
    Effect memorySize { c with ip := a } op { c' with ip := a } := by
  cases h with
  | pop hs => exact pop hs
  | total ht hs => exact total ht hs
  | div hs hne => exact div hs hne
  | pushFp => exact pushFp
  | popFp hs => exact popFp hs
  | setFp hs => exact setFp hs
  | pushRa => exact pushRa
  | popRa hs => exact popRa hs
  | pushTm => exact pushTm
  | popTm hs => exact popTm hs
  | pushHp => exact pushHp
  | popHp hs => exact popHp hs
  | load hs hr =>
      refine load hs ?_
      cases hr with
      | heap hi => exact Config.Reads.heap hi
      | stack hi => exact Config.Reads.stack hi
  | store hh hs => exact store hh hs
  | print hs => exact print hs

inductive Step (im : Image) (memorySize : Nat) (c : Config) : Config → Prop where
  | effect {op : Opcode} {c' : Config} :
      im.code[c.ip]? = some op.cell →
      Effect memorySize c op c' →
      Step im memorySize c { c' with ip := c.ip + 1 }
  | push {v : Int32} :
      im.code[c.ip]? = some Opcode.push.cell →
      im.code[c.ip + 1]? = some v →
      Step im memorySize c { c with ip := c.ip + 2, stack := v :: c.stack }
  | jump {a : Nat} :
      im.code[c.ip]? = some Opcode.jump.cell →
      im.code[c.ip + 1]? = some (codeAddress a) →
      a ≤ im.code.length →
      Step im memorySize c { c with ip := a }
  | taken {op : Opcode} {test : Int32 → Int32 → Bool} {a : Nat} {left right : Int32}
      {rest : List Int32} :
      im.code[c.ip]? = some op.cell →
      op.test? = some test →
      im.code[c.ip + 1]? = some (codeAddress a) →
      a ≤ im.code.length →
      c.stack = right :: left :: rest →
      test left right = true →
      Step im memorySize c { c with ip := a, stack := rest }
  | passed {op : Opcode} {test : Int32 → Int32 → Bool} {target left right : Int32}
      {rest : List Int32} :
      im.code[c.ip]? = some op.cell →
      op.test? = some test →
      im.code[c.ip + 1]? = some target →
      c.stack = right :: left :: rest →
      test left right = false →
      Step im memorySize c { c with ip := c.ip + 2, stack := rest }
  | enter {entry finish exit : Nat} {link : Int32} {args rest : List Int32} :
      im.code[c.ip]? = some Opcode.call.cell →
      im.Body args.length entry finish exit →
      c.stack = codeAddress entry :: link :: (args ++ c.fp :: rest) →
      Step im memorySize c
        { c with
          ip := entry
          stack := link :: (args ++ c.fp :: rest)
          ra := codeAddress (c.ip + 1)
          calls := { entry, back := c.ip + 1, fp := c.fp, rest, result := none } :: c.calls }
  | finish {params exit : Nat} {activation : Activation} {calls : List Activation} {v : Int32}
      {rest : List Int32} :
      im.code[c.ip]? = some Opcode.popTm.cell →
      c.calls = activation :: calls →
      im.Body params activation.entry c.ip exit →
      c.stack = v :: rest →
      Step im memorySize c
        { c with
          ip := c.ip + 1
          stack := rest
          tm := v
          calls := { activation with result := some v } :: calls }
  | leave {params finish : Nat} {activation : Activation} {calls : List Activation} :
      im.code[c.ip]? = some Opcode.call.cell →
      c.calls = activation :: calls →
      im.Body params activation.entry finish c.ip →
      c.stack = codeAddress activation.back :: c.tm :: activation.rest →
      c.fp = activation.fp →
      activation.result = some c.tm →
      activation.back ≤ im.code.length →
      ¬im.Entry activation.back →
      Step im memorySize c
        { c with
          ip := activation.back
          stack := c.tm :: activation.rest
          ra := codeAddress (c.ip + 1)
          calls }

/-!
# Runs

A run may have a bound on its stack; it then has to stay within the bound and to use no heap.
-/

/-- The largest number of stack cells of a run, if there is one. -/
abbrev Bound :=
  Option Nat

def Bound.Allows (bound : Bound) (c : Config) : Prop :=
  ∀ depth ∈ bound, c.heap = [] ∧ c.stack.length ≤ depth

theorem Bound.allows_none (c : Config) : Allows none c := by
  intro depth h
  cases h

/-- A number of steps whose configurations are all allowed, apart perhaps from the first. -/
inductive Steps (im : Image) (memorySize : Nat) (bound : Bound) : Nat → Config → Config → Prop where
  | refl (c : Config) : Steps im memorySize bound 0 c c
  | step {n : Nat} {c c' c'' : Config} :
      Step im memorySize c c' →
      bound.Allows c' →
      Steps im memorySize bound n c' c'' →
      Steps im memorySize bound (n + 1) c c''

/-- A run of at least the given number of steps leads to a configuration with a property. -/
def LeadsIn (im : Image) (memorySize : Nat) (bound : Bound) (least : Nat) (c : Config)
    (goal : Config → Prop) : Prop :=
  ∃ n c', Steps im memorySize bound n c c' ∧ least ≤ n ∧ goal c'

def Leads (im : Image) (memorySize : Nat) (bound : Bound) (c : Config) (goal : Config → Prop) :
    Prop :=
  LeadsIn im memorySize bound 0 c goal

variable {im : Image} {memorySize : Nat} {bound : Bound}

theorem Steps.trans {n k : Nat} {c c' c'' : Config} (h : Steps im memorySize bound n c c')
    (h' : Steps im memorySize bound k c' c'') : Steps im memorySize bound (n + k) c c'' := by
  induction h with
  | refl => simpa using h'
  | step hstep hallows _ ih =>
      rw [Nat.succ_add]
      exact Steps.step hstep hallows (ih h')

theorem Steps.split {n k : Nat} {c c'' : Config} (h : Steps im memorySize bound (n + k) c c'') :
    ∃ c', Steps im memorySize bound n c c' ∧ Steps im memorySize bound k c' c'' := by
  induction n generalizing c with
  | zero => exact ⟨c, refl c, by simpa using h⟩
  | succ n ih =>
      rw [Nat.succ_add] at h
      cases h with
      | step hstep hallows hrest =>
          rcases ih hrest with ⟨c', hsteps, hsteps'⟩
          exact ⟨c', step hstep hallows hsteps, hsteps'⟩

theorem Steps.last {n : Nat} {c c'' : Config}
    (h : Steps im memorySize bound (n + 1) c c'') :
    ∃ c', Steps im memorySize bound n c c' ∧ Step im memorySize c' c'' := by
  rcases h.split with ⟨c', hsteps, hlast⟩
  cases hlast with
  | step hstep _ hnone =>
      cases hnone
      exact ⟨c', hsteps, hstep⟩

variable {least least' : Nat} {c : Config} {goal goal' : Config → Prop}

theorem LeadsIn.weaken (h : LeadsIn im memorySize bound least c goal) (hle : least' ≤ least)
    (hgoal : ∀ c', goal c' → goal' c') : LeadsIn im memorySize bound least' c goal' := by
  rcases h with ⟨n, c', hsteps, hle', hc'⟩
  exact ⟨n, c', hsteps, Nat.le_trans hle hle', hgoal c' hc'⟩

theorem Leads.here (h : goal c) : Leads im memorySize bound c goal :=
  ⟨0, c, Steps.refl c, Nat.le_refl 0, h⟩

end ClassLet
