import ClassLet.Assembly.Listing

/-!
# Emitting code

An emitter takes the items of a listing one by one. While the body of a function is open, items
go to that body; bodies may be opened inside each other, and a body joins the finished ones when
it is closed. The listing is the main stream followed by the finished bodies.
-/

namespace ClassLet

structure Emitter where
  main : Array Item
  /-- Open bodies, the innermost first. -/
  pending : List (Array Item)
  finished : Array Item
  labelCount : Nat
  functionCount : Nat
  /-- The line given to the instructions that follow. -/
  line : Nat
deriving Inhabited

namespace Emitter

def empty : Emitter :=
  { main := #[], pending := [], finished := #[], labelCount := 0, functionCount := 0, line := 0 }

def atLine (e : Emitter) (line : Nat) : Emitter :=
  { e with line }

/-!
# Items
-/

/-- Adds an item to the innermost open body, or to the main stream if none is open. -/
def put (e : Emitter) (item : Item) : Emitter :=
  match e.pending with
  | [] => { e with main := e.main.push item }
  | body :: rest => { e with pending := body.push item :: rest }

def emitWith (e : Emitter) (op : Opcode) (operand : Option Operand) : Emitter :=
  e.put (.instruction { op, operand, line := e.line })

def emit (e : Emitter) (op : Opcode) : Emitter :=
  e.emitWith op none

def emitTimes (e : Emitter) (op : Opcode) : Nat → Emitter
  | 0 => e
  | count + 1 => (e.emit op).emitTimes op count

def emitValue (e : Emitter) (op : Opcode) (value : Int32) : Emitter :=
  e.emitWith op (some (.value value))

def emitLabel (e : Emitter) (op : Opcode) (label : String) : Emitter :=
  e.emitWith op (some (.label label))

def define (e : Emitter) (label : String) : Emitter :=
  e.put (.label label)

/-!
# Fresh labels
-/

def newLabel (e : Emitter) : String × Emitter :=
  (s!"label{e.labelCount}", { e with labelCount := e.labelCount + 1 })

def newFunction (e : Emitter) : String × Emitter :=
  (s!"function{e.functionCount}", { e with functionCount := e.functionCount + 1 })

/-!
# Bodies
-/

def openBody (e : Emitter) (label : String) : Emitter :=
  { e with pending := #[.label label] :: e.pending }

/-- Closes the innermost open body, if there is one. -/
def closeBody (e : Emitter) : Emitter :=
  match e.pending with
  | [] => e
  | body :: rest => { e with pending := rest, finished := e.finished ++ body }

/-- Bodies that are still open are closed first, the innermost one before the others. -/
def listing (e : Emitter) : Listing :=
  { items := (e.main ++ e.pending.foldl (· ++ ·) e.finished).toList }

end Emitter

end ClassLet
