import ClassLet.Assembly.Emitter
import ClassLet.Diagnostic.Code
import ClassLet.Storage

/-!
# Emitting common sequences

Code is generated into an emitter, and generation stops at the first part of the tree that misses
a note. The sequences below address memory through the frame pointer and the heap pointer.

A frame has its base at the access link; the return address and the local declarations lie below
it, the arguments and the frame pointer of the caller above. The base of the top-level frame is
the size of the memory. The objects of a class and its dispatch table grow upwards on the heap:
an object is the address of its dispatch pointer, and its fields lie below.
-/

namespace ClassLet

abbrev Gen :=
  StateT Emitter (Except CodeError)

/-- Where the generated code stands. -/
structure CodeContext where
  memorySize : Int32
  /-- In a method, the chain of access links ends at the object. -/
  insideClass : Bool
deriving DecidableEq, Repr, Inhabited

namespace Gen

def fail {α : Type} (pos : Position) (cause : CodeFault) : Gen α :=
  throw { pos, cause }

/-- A note that generation needs. -/
def noted {α : Type} (note : Option α) (pos : Position) (cause : CodeFault) : Gen α :=
  match note with
  | some a => pure a
  | none => fail pos cause

/-!
# Single items
-/

def atLine (line : Nat) : Gen Unit :=
  modify fun e => e.atLine line

def emit (op : Opcode) : Gen Unit :=
  modify fun e => e.emit op

def emitTimes (op : Opcode) (count : Nat) : Gen Unit :=
  modify fun e => e.emitTimes op count

def push (value : Int32) : Gen Unit :=
  modify fun e => e.emitValue .push value

def pushLabel (label : String) : Gen Unit :=
  modify fun e => e.emitLabel .push label

def jumpTo (op : Opcode) (label : String) : Gen Unit :=
  modify fun e => e.emitLabel op label

def define (label : String) : Gen Unit :=
  modify fun e => e.define label

def newLabel : Gen String :=
  modifyGet fun e => e.newLabel

def newFunction : Gen String :=
  modifyGet fun e => e.newFunction

/-!
# The heap
-/

def advanceHeap : Gen Unit := do
  emit .pushHp
  push 1
  emit .add
  emit .popHp

/-- Moves the top of the stack into the next heap cell. -/
def storeOnHeap : Gen Unit := do
  emit .pushHp
  emit .store
  advanceHeap

def storeOnHeapRepeat : Nat → Gen Unit
  | 0 => pure ()
  | count + 1 => do
      storeOnHeap
      storeOnHeapRepeat count

/-!
# Frames
-/

/-- Pushes the base of the frame, or the object, that declares a name. -/
def pushBase (ctx : CodeContext) (r : Resolution) : Gen Unit :=
  if ctx.insideClass && r.binding.level == 0 then
    push ctx.memorySize
  else do
    emit .pushFp
    emitTimes .load r.distance

/-- Replaces the base on top of the stack by the value stored at the offset from it. -/
def loadAt (offset : Int) : Gen Unit := do
  push (Int32.ofInt offset)
  emit .add
  emit .load

/-- Doubles the top of the stack. -/
def duplicate : Gen Unit := do
  emit .popTm
  emit .pushTm
  emit .pushTm

/-!
# Choices
-/

/-- Leaves one of two values behind, depending on whether the jump is taken. -/
def choose (op : Opcode) (taken otherwise : Int32) : Gen Unit := do
  let takenLabel ← newLabel
  let endLabel ← newLabel
  jumpTo op takenLabel
  push otherwise
  jumpTo .jump endLabel
  define takenLabel
  push taken
  define endLabel

end Gen

end ClassLet
