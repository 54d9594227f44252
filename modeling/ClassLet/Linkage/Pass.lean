import ClassLet.Linkage

/-!
# The linking pass

Linking as one walk through the program over one state: the open scopes with their counters, the
tables of the registered classes, the class under way and the errors found so far. The body of a
function or method is walked in a scope that is pushed before it and popped behind it, and so are
the methods of a class.

The pass ends early only where a member has no place in the table of its class.
-/

namespace ClassLet

structure LinkState extends Environment where
  errors : List LinkError
deriving Inhabited

abbrev LinkPass :=
  EStateM MissingPlace LinkState

namespace LinkPass

/-!
# Effects
-/

def environment : LinkPass Environment :=
  return (← get).toEnvironment

def report (e : LinkError) : LinkPass Unit :=
  modify fun s => { s with errors := s.errors ++ [e] }

/-- The result of an attempt; its error is reported. -/
def attempt {α : Type} : Except LinkError α → LinkPass (Option α)
  | .ok a => return some a
  | .error e => do
      report e
      return none

def setScopes (scopes : ScopeStack) : LinkPass Unit :=
  modify fun s => { s with scopes }

def pushScope (scope : Scope) : LinkPass Unit := do
  setScopes ((← environment).scopes.openWith scope)

def push : LinkPass Unit :=
  pushScope Scope.fresh

def pop : LinkPass Unit := do
  match (← environment).scopes.close? with
  | some (_, scopes) => setScopes scopes
  | none => return ()

def allocate : LinkPass Int := do
  let scopes := (← environment).scopes
  setScopes scopes.takeOffset
  return scopes.nextOffset

/-- Whether the name could be declared. -/
def declare (id : Ident) (binding : Binding) : LinkPass Bool := do
  match ← attempt ((← environment).scopes.declare id binding) with
  | some scopes => do
      setScopes scopes
      return true
  | none => return false

def register (name : String) (table : MemberTable) : LinkPass Unit :=
  modify fun s => { s with classes := s.classes.insert name table }

def setCurrent (current : Option String) : LinkPass Unit :=
  modify fun s => { s with current }

/-!
# Types
-/

def checkRefs (pos : Position) : List String → LinkPass Unit
  | [] => return ()
  | name :: names => do
      unless (← environment).knowsClass name do
        report { pos, cause := .unknownClass name }
      checkRefs pos names

def checkType (t : TypeRef) : LinkPass Unit :=
  checkRefs t.pos t.ty.classRefs

def checkParams : List Param → LinkPass Unit
  | [] => return ()
  | p :: ps => do
      checkType p.ty
      checkParams ps

def checkSignature (h : Header) : LinkPass Unit := do
  checkParams h.params
  checkType h.result

/-!
# Expressions
-/

def resolve (id : Ident) : LinkPass (Option Resolution) := do
  attempt ((← environment).resolve id)

mutual

def visitExpr : Expr → LinkPass Expr
  | .int pos value => return .int pos value
  | .bool pos value => return .bool pos value
  | .null pos => return .null pos
  | .missing pos => return .missing pos
  | .name id _ => return .name id (← resolve id)
  | .call pos callee args _ => do
      let target ← resolve callee
      let args ← visitArgs args
      return .call pos callee args target
  | .methodCall pos object method args _ entry => do
      match ← resolve object with
      | none => do
          let args ← visitArgs args
          return .methodCall pos object method args none entry
      | some receiver => do
          let entry ← attempt
            ((← environment).methodEntry object method receiver.binding.ty)
          let args ← visitArgs args
          return .methodCall pos object method args (some receiver) entry
  | .construct pos className args target => do
      let found ← attempt ((← environment).constructed className)
      let args ← visitArgs args
      return .construct pos className args (found.getD target)
  | .ifElse pos condition whenTrue whenFalse => do
      let condition ← visitExpr condition
      let whenTrue ← visitExpr whenTrue
      let whenFalse ← visitExpr whenFalse
      return .ifElse pos condition whenTrue whenFalse
  | .not pos operand => return .not pos (← visitExpr operand)
  | .binary pos op left right => do
      let left ← visitExpr left
      let right ← visitExpr right
      return .binary pos op left right
  | .print pos operand => return .print pos (← visitExpr operand)

def visitArgs : List Expr → LinkPass (List Expr)
  | [] => return []
  | e :: es => do
      let e ← visitExpr e
      let es ← visitArgs es
      return e :: es

end

/-!
# Classes
-/

/-- Adds a member to the table. A clash is reported; a missing place ends the pass. -/
def enterMember {α : Type} (className : String) (id : Ident)
    (add : MemberTable → Except MemberFault (α × MemberTable)) (scan : MemberScan) :
    LinkPass (MemberScan × Option α) :=
  if scan.seen.contains id.name then do
    report { pos := id.pos, cause := .memberTwice className id.name }
    return (scan, none)
  else
    let seen := id.name :: scan.seen
    match add scan.table with
    | .ok (place, table) => return ({ table, seen }, some place)
    | .error (.clash kind) => do
        report { pos := id.pos, cause := .ofClash className id.name kind }
        return ({ scan with seen }, none)
    | .error (.missing place) => throw place

def visitFields (className : String) : MemberScan → List Field →
    LinkPass (MemberScan × List Field)
  | scan, [] => return (scan, [])
  | scan, f :: fs => do
      checkType f.ty
      let (scan, offset) ← enterMember className f.id (·.addField f.id.name f.ty.ty) scan
      let (scan, fs) ← visitFields className scan fs
      return (scan, { f with offset := offset <|> f.offset } :: fs)

/-- The headers of the methods, each with its slot. -/
def visitHeaders (className : String) : MemberScan → List Method →
    LinkPass (MemberScan × List (Option Nat))
  | scan, [] => return (scan, [])
  | scan, m :: ms => do
      checkSignature m.header
      let (scan, slot) ← enterMember className m.header.id
        (·.addMethod m.header.id.name m.header.signature) scan
      let (scan, slots) ← visitHeaders className scan ms
      return (scan, slot :: slots)

/-- The table that a class starts from. -/
def visitSuper (header : ClassHeader) : LinkPass MemberTable := do
  let inherited ← attempt ((← environment).inherited header)
  return inherited.getD MemberTable.empty

/-- The fields with their offsets, the slots of the methods, and the table of the class. -/
def visitMembers (header : ClassHeader) (methods : List Method) :
    LinkPass (List Field × List (Option Nat) × MemberTable) := do
  let inherited ← visitSuper header
  let (scan, fields) ← visitFields header.id.name (.startingFrom inherited) header.fields
  let (scan, slots) ← visitHeaders header.id.name scan methods
  return (fields, slots, scan.table)

/-- A class whose name cannot be declared is not registered, but takes its place. -/
def declareClass (id : Ident) (table : MemberTable) : LinkPass Binding := do
  let offset ← allocate
  let binding : Binding := { level := 0, ty := .layout (table.layout id.name), offset }
  if ← declare id binding then
    register id.name table
  return binding

/-- What is left of the class are the bodies of its methods. -/
def visitClassHeader (header : ClassHeader) (methods : List Method) :
    LinkPass (ClassHeader × List (Option Nat) × NameMap Binding) := do
  let superLayout := (← environment).superLayout? header <|> header.superLayout
  let (fields, slots, table) ← visitMembers header methods
  let binding ← declareClass header.id table
  let layout := table.layout header.id.name
  let header :=
    { header with fields, binding := some binding, layout := some layout, superLayout }
  return (header, slots, table.members)

/-!
# Declarations
-/

/-- The place of a variable or function, which is taken even if the name cannot be declared. -/
def allocatePlace (ty : Ty) : LinkPass Binding := do
  let offset ← allocate
  return { level := (← environment).scopes.level, ty, offset }

def visitParams (level : Nat) : Nat → List Param → LinkPass (List Param)
  | _, [] => return []
  | index, p :: ps => do
      let binding : Binding := { level, ty := p.ty.ty, offset := Frame.firstParam + index }
      let _ ← declare p.id binding
      let ps ← visitParams level (index + 1) ps
      return { p with binding := some binding } :: ps

mutual

def visitDecl : Decl → LinkPass Decl
  | .var pos id ty init _ => do
      let init ← visitExpr init
      checkType ty
      let binding ← allocatePlace ty.ty
      let _ ← declare id binding
      return .var pos id ty init (some binding)
  | .function header body _ => do
      checkSignature header
      let binding ← allocatePlace (.arrow header.signature)
      let _ ← declare header.id binding
      let (header, body) ← visitBody header body
      return .function header body (some binding)
  | .classDef header methods => do
      if (← environment).scopes.level = 0 then do
        setCurrent (some header.id.name)
        let (linked, slots, members) ← visitClassHeader header methods
        pushScope (.holding members)
        let methods ← visitMethods slots methods
        pop
        setCurrent none
        return .classDef linked methods
      else do
        report { pos := header.id.pos, cause := .nestedClass header.id.name }
        return .classDef header methods

/-- Walks through the frame of a function or method. -/
def visitBody (header : Header) : Body → LinkPass (Header × Body)
  | ⟨locals, result⟩ => do
      push
      let params ← visitParams (← environment).scopes.level 0 header.params
      let locals ← visitDecls locals
      let result ← visitExpr result
      pop
      return ({ header with params }, ⟨locals, result⟩)

def visitMethod (place : Option Nat) : Method → LinkPass Method
  | ⟨header, body, slot⟩ => do
      let (header, body) ← visitBody header body
      return ⟨header, body, place <|> slot⟩

def visitDecls : List Decl → LinkPass (List Decl)
  | [] => return []
  | d :: ds => do
      let d ← visitDecl d
      let ds ← visitDecls ds
      return d :: ds

def visitMethods (slots : List (Option Nat)) : List Method → LinkPass (List Method)
  | [] => return []
  | m :: ms => do
      let m ← visitMethod (slots.head?.bind id) m
      let ms ← visitMethods slots.tail ms
      return m :: ms

end

def visitProgram (p : Program) : LinkPass Program := do
  push
  let decls ← visitDecls p.decls
  let body ← visitExpr p.body
  pop
  return { p with decls, body }

end LinkPass

/-- What the pass makes of a program. -/
def Program.linkPass (p : Program) : Except MissingPlace Linkage :=
  let env : Environment :=
    { scopes := ScopeStack.empty, classes := NameMap.empty, current := none }
  match (LinkPass.visitProgram p).run ⟨env, []⟩ with
  | .ok program s => .ok { program, errors := s.errors, classes := s.classes }
  | .error place _ => .error place

end ClassLet
