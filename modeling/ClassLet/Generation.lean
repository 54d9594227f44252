import ClassLet.Generation.Expression
import ClassLet.NameMap

/-!
# Code of programs

A variable leaves its value on the stack and a function the address of its body, which is emitted
out of line. A class builds its dispatch table on the heap and leaves the address of the table on
the stack; the table is that of the superclass with the labels of the methods put into their
slots.
-/

namespace ClassLet

/-- The labels in the dispatch tables of the classes generated so far. -/
abbrev DispatchLabels :=
  NameMap (List String)

abbrev DeclGen :=
  StateT DispatchLabels Gen

namespace Gen

/-- Opens the body of a function or method. -/
def prologue (label : String) : Gen Unit := do
  modify fun e => e.openBody label
  emit .setFp
  emit .pushRa

/-- Takes the frame off the stack, leaves the result there and returns to the caller. -/
def epilogue (locals params : Nat) : Gen Unit := do
  emit .popTm
  emitTimes .pop locals
  emit .popRa
  emit .pop
  emitTimes .pop params
  emit .popFp
  emit .pushTm
  emit .pushRa
  emit .call
  modify fun e => e.closeBody

/-- Writes the labels to the heap, one cell each. -/
def storeLabels : List String → Gen Unit
  | [] => pure ()
  | label :: labels => do
      pushLabel label
      storeOnHeap
      storeLabels labels

end Gen

/-- Puts a label into a slot of a table, or right behind its end. -/
def fillSlot? (labels : List String) (slot : Nat) (label : String) : Option (List String) :=
  if slot < labels.length then some (labels.set slot label)
  else if slot = labels.length then some (labels ++ [label])
  else none

namespace ClassHeader

/-- The table that the dispatch table of a class starts from. -/
def inheritedLabels (h : ClassHeader) (known : DispatchLabels) : List String :=
  (h.super.bind fun super => known.find? super.name).getD []

end ClassHeader

mutual

def Decl.generate (ctx : CodeContext) : Decl → DeclGen Unit
  | .var pos _ _ init _ => do
      Gen.atLine pos.line
      init.generate ctx
  | .function header body _ => do
      Gen.atLine header.pos.line
      let label ← Gen.newFunction
      body.generate ctx label header.params.length
      Gen.pushLabel label
  | .classDef header methods => do
      Gen.atLine header.pos.line
      let layout ← Gen.noted header.layout header.pos (.noLayout header.id.name)
      let labels ← Method.generateAll { ctx with insideClass := true } header.id.name
        (header.inheritedLabels (← get)) methods
      if labels.length ≠ layout.methods.length then
        Gen.fail header.pos (.noLayout header.id.name)
      Gen.atLine header.pos.line
      Gen.emit .pushHp
      Gen.storeLabels labels
      modify fun known => known.insert header.id.name labels
termination_by structural d => d

def Body.generate (ctx : CodeContext) (label : String) (params : Nat) : Body → DeclGen Unit
  | ⟨locals, result⟩ => do
      Gen.prologue label
      Decl.generateAll ctx locals
      result.generate ctx
      Gen.epilogue locals.length params
termination_by structural b => b

/-- Generates the body of a method and puts its label into the table of the class. -/
def Method.generate (ctx : CodeContext) (className : String) (labels : List String) :
    Method → DeclGen (List String)
  | ⟨header, body, slot⟩ => do
      let slot ← Gen.noted slot header.pos (.unresolved header.id.name)
      let label ← Gen.newFunction
      body.generate ctx label header.params.length
      Gen.noted (fillSlot? labels slot label) header.pos (.noLayout className)
termination_by structural m => m

def Decl.generateAll (ctx : CodeContext) : List Decl → DeclGen Unit
  | [] => pure ()
  | d :: ds => do
      d.generate ctx
      Decl.generateAll ctx ds
termination_by structural ds => ds

def Method.generateAll (ctx : CodeContext) (className : String) (labels : List String) :
    List Method → DeclGen (List String)
  | [] => pure labels
  | m :: ms => do
      let labels ← m.generate ctx className labels
      Method.generateAll ctx className labels ms
termination_by structural ms => ms

end

/-!
# Programs
-/

namespace Program

/-- A program with declarations first pushes a value in place of a return address. -/
def generateAll (p : Program) (ctx : CodeContext) : DeclGen Unit := do
  if p.hasDeclarations then
    Gen.push 0
    Decl.generateAll ctx p.decls
  p.body.generate ctx
  Gen.emit .halt

/-- The code of a linked program for a memory of the given size. -/
def generate (p : Program) (memorySize : Int32) : Except CodeError Listing := do
  let ctx : CodeContext := { memorySize, insideClass := false }
  let (_, emitter) ← (p.generateAll ctx).run NameMap.empty |>.run Emitter.empty
  return emitter.listing

end Program

end ClassLet
