import ClassLet.Linkage
import Mathlib.Data.List.Forall2

/-!
# Scopes of programs without link errors

Where no declaration is refused, each declaration enters exactly one name into the innermost scope
and takes exactly one offset, and opening a frame puts one scope with the parameters in front of
the others.

Main statements: `add_scopes`, `enter_scopes`, `addClass_scopes` and `insideClass_scopes`.
-/

namespace ClassLet

theorem errorOf_eq_nil_iff {ε α : Type} {result : Except ε α} :
    errorOf result = [] ↔ ∃ a, result = .ok a := by
  cases result with
  | ok a => simp [errorOf]
  | error e => simp [errorOf]

/-!
# Single scopes
-/

namespace Scope

/-- The scope after a declaration that takes the next offset. -/
def adding (scope : Scope) (name : String) (binding : Binding) : Scope :=
  { bindings := scope.bindings.insert name binding, nextOffset := scope.nextOffset - 1 }

/-- The scope of a frame with parameters of the given types. -/
def ofParams (places : List (Ident × Binding)) : Scope :=
  { bindings := places.foldl (fun m place => m.insert place.1.name place.2) NameMap.empty
    nextOffset := Frame.firstLocal }

end Scope

/-- The names of the places are different. -/
def Distinct (places : List (Ident × Binding)) : Prop :=
  (places.map fun place => place.1.name).Nodup

namespace ScopeStack

theorem declares_cons {s : ScopeStack} {scope : Scope} {rest : List Scope}
    (hs : s.scopes = scope :: rest) (name : String) :
    s.declares name = scope.bindings.contains name := by
  simp [declares, innermost, hs]

theorem declare_ok {s s' : ScopeStack} {scope : Scope} {rest : List Scope} {id : Ident}
    {binding : Binding} (hs : s.scopes = scope :: rest) (h : s.declare id binding = .ok s') :
    scope.bindings.find? id.name = none ∧
      s'.scopes = { scope with bindings := scope.bindings.insert id.name binding } :: rest := by
  unfold declare at h
  rw [declares_cons hs] at h
  split at h
  · cases h
  · rename_i hnew
    cases h
    constructor
    · simpa [NameMap.contains] using hnew
    · simp [bind, setInnermost, innermost, hs]

/-- A name is found in the scopes as it is in views of them. -/
theorem findSome?_bindings {α : Type} {view : α → String → Option Binding} {scopes : List Scope}
    {views : List α}
    (h : List.Forall₂ (fun scope a => ∀ name, scope.bindings.find? name = view a name) scopes views)
    (name : String) :
    (scopes.findSome? fun scope => scope.bindings.find? name) =
      views.findSome? fun a => view a name := by
  induction h with
  | nil => rfl
  | cons hfirst _ ih => rw [List.findSome?_cons, List.findSome?_cons, hfirst name, ih]

theorem takeOffset_scopes {s : ScopeStack} {scope : Scope} {rest : List Scope}
    (hs : s.scopes = scope :: rest) :
    s.takeOffset.scopes = { scope with nextOffset := scope.nextOffset - 1 } :: rest := by
  simp [takeOffset, setInnermost, nextOffset, innermost, hs]

/-- Declaring places without a clash enters them one after the other. -/
theorem declareEach_scopes {s : ScopeStack} {scope : Scope} {rest : List Scope}
    (places : List (Ident × Binding)) (hs : s.scopes = scope :: rest)
    (hok : s.duplicates places = []) :
    (s.declareEach places).scopes =
        { scope with
          bindings := places.foldl (fun m place => m.insert place.1.name place.2)
            scope.bindings } :: rest ∧
      Distinct places ∧ ∀ place ∈ places, scope.bindings.find? place.1.name = none := by
  induction places generalizing s scope with
  | nil => exact ⟨hs, List.nodup_nil, by simp⟩
  | cons place places ih =>
      rcases place with ⟨id, binding⟩
      simp only [duplicates] at hok
      cases hdeclare : s.declare id binding with
      | error e =>
          rw [hdeclare] at hok
          cases hok
      | ok s' =>
          rw [hdeclare] at hok
          rcases declare_ok hs hdeclare with ⟨hnew, hs'⟩
          rcases ih hs' hok with ⟨hscopes, hdistinct, hfresh⟩
          have hkeep : s.declareOrKeep id binding = s' := by simp [declareOrKeep, hdeclare]
          have hother : ∀ place ∈ places, place.1.name ≠ id.name ∧
              scope.bindings.find? place.1.name = none := by
            intro place hplace
            have hfind := hfresh place hplace
            rw [NameMap.find?_insert] at hfind
            split at hfind
            · cases hfind
            · rename_i hne
              exact ⟨hne, hfind⟩
          refine ⟨by simpa [declareEach, hkeep] using hscopes, ?_, ?_⟩
          · simp only [Distinct, List.map_cons, List.nodup_cons]
            refine ⟨?_, hdistinct⟩
            intro hmem
            rcases List.mem_map.mp hmem with ⟨place, hplace, heq⟩
            exact (hother place hplace).1 heq
          · intro place hplace
            rcases List.mem_cons.mp hplace with rfl | hplace
            · exact hnew
            · exact (hother place hplace).2

end ScopeStack

/-!
# Environments
-/

namespace Environment

variable {env : Environment} {scope : Scope} {rest : List Scope}

theorem level_eq (hs : env.scopes.scopes = scope :: rest) : env.scopes.level = rest.length := by
  simp [ScopeStack.level, hs]

theorem frameLevel_eq (env : Environment) : env.frameLevel = env.scopes.scopes.length := by
  simp [frameLevel, ScopeStack.openFresh, ScopeStack.openWith, ScopeStack.level]

theorem place_eq (hs : env.scopes.scopes = scope :: rest) (ty : Ty) :
    env.place ty = { level := rest.length, ty, offset := scope.nextOffset } := by
  simp [place, level_eq hs, ScopeStack.nextOffset, ScopeStack.innermost, hs]

/-- A variable or function that is not refused. -/
theorem add_scopes {id : Ident} {ty : Ty} (hs : env.scopes.scopes = scope :: rest)
    (hok : env.addErrors id ty = []) :
    scope.bindings.find? id.name = none ∧
      (env.add id ty).scopes.scopes = scope.adding id.name (env.place ty) :: rest := by
  rcases errorOf_eq_nil_iff.mp hok with ⟨scopes, hdeclare⟩
  rcases ScopeStack.declare_ok (ScopeStack.takeOffset_scopes hs) hdeclare with ⟨hnew, hscopes⟩
  refine ⟨hnew, ?_⟩
  simp only [add, ScopeStack.declareOrKeep, hdeclare, hscopes]
  rfl

/-- A frame whose parameters are not refused. -/
theorem enter_scopes {params : List Param} (hok : env.paramErrors params = []) :
    Distinct (paramPlaces env.frameLevel params) ∧
      (env.enter params).scopes.scopes =
        Scope.ofParams (paramPlaces env.frameLevel params) :: env.scopes.scopes := by
  have hopen : env.scopes.openFresh.scopes = Scope.fresh :: env.scopes.scopes := rfl
  rcases ScopeStack.declareEach_scopes _ hopen hok with ⟨hscopes, hdistinct, _⟩
  exact ⟨hdistinct, hscopes⟩

/-- A class whose name is not refused. -/
theorem addClass_scopes {header : ClassHeader} {plan : ClassPlan}
    (hs : env.scopes.scopes = scope :: rest)
    (hok : errorOf (env.scopes.takeOffset.declare header.id (env.classPlace header plan)) = []) :
    scope.bindings.find? header.id.name = none ∧
      (env.addClass header plan).scopes.scopes =
        scope.adding header.id.name (env.classPlace header plan) :: rest ∧
      (env.addClass header plan).classes = env.classes.insert header.id.name plan.table ∧
      (env.addClass header plan).current = env.current := by
  rcases errorOf_eq_nil_iff.mp hok with ⟨scopes, hdeclare⟩
  rcases ScopeStack.declare_ok (ScopeStack.takeOffset_scopes hs) hdeclare with ⟨hnew, hscopes⟩
  refine ⟨hnew, ?_, ?_, ?_⟩
  · simp only [addClass, hdeclare, hscopes]
    rfl
  · simp [addClass, hdeclare]
  · simp [addClass, hdeclare]

theorem insideClass_scopes (env : Environment) (header : ClassHeader) (plan : ClassPlan) :
    (env.insideClass header plan).scopes.scopes =
        Scope.holding plan.table.members :: (env.addClass header plan).scopes.scopes ∧
      (env.insideClass header plan).classes = (env.addClass header plan).classes :=
  ⟨rfl, rfl⟩

/-- The environment behind a class at top level. -/
def declareClass (env : Environment) (header : ClassHeader) (methods : List Method) : Environment :=
  env.addClass header (env.plan header methods)

/-- The environment of the methods of a class at top level. -/
def methodScope (env : Environment) (header : ClassHeader) (methods : List Method) : Environment :=
  env.insideClass header (env.plan header methods)

theorem methodScope_scopes (env : Environment) (header : ClassHeader) (methods : List Method) :
    (env.methodScope header methods).scopes.scopes =
      Scope.holding (env.plan header methods).table.members ::
        (env.declareClass header methods).scopes.scopes :=
  rfl

/-!
# What names are bound to
-/

theorem lookup?_start (name : String) : start.scopes.lookup? name = none :=
  rfl

theorem find?_start (name : String) : start.classes.find? name = none :=
  rfl

theorem lookup?_cons {s : ScopeStack} (hs : s.scopes = scope :: rest) (name : String) :
    s.lookup? name = (scope.bindings.find? name).or ((ScopeStack.mk rest).lookup? name) := by
  have hopen : s = (ScopeStack.mk rest).openWith scope := by
    cases s
    exact congrArg ScopeStack.mk hs
  rw [hopen, ScopeStack.lookup?_openWith]

theorem lookup?_add {id : Ident} {ty : Ty} (hs : env.scopes.scopes = scope :: rest)
    (hok : env.addErrors id ty = []) (name : String) :
    (env.add id ty).scopes.lookup? name =
      if name = id.name then some (env.place ty) else env.scopes.lookup? name := by
  rw [lookup?_cons (add_scopes hs hok).2, lookup?_cons hs, Scope.adding, NameMap.find?_insert]
  split <;> rfl

theorem lookup?_addClass {header : ClassHeader} {plan : ClassPlan}
    (hs : env.scopes.scopes = scope :: rest)
    (hok : errorOf (env.scopes.takeOffset.declare header.id (env.classPlace header plan)) = [])
    (name : String) :
    (env.addClass header plan).scopes.lookup? name =
      if name = header.id.name then some (env.classPlace header plan)
      else env.scopes.lookup? name := by
  rw [lookup?_cons (addClass_scopes hs hok).2.1, lookup?_cons hs, Scope.adding,
    NameMap.find?_insert]
  split <;> rfl

theorem lookup?_enter {params : List Param} (hok : env.paramErrors params = []) (name : String) :
    (env.enter params).scopes.lookup? name =
      ((Scope.ofParams (paramPlaces env.frameLevel params)).bindings.find? name).or
        (env.scopes.lookup? name) :=
  lookup?_cons (enter_scopes hok).2 name

theorem lookup?_insideClass (env : Environment) (header : ClassHeader) (plan : ClassPlan)
    (name : String) :
    (env.insideClass header plan).scopes.lookup? name =
      (plan.table.member? name).or ((env.addClass header plan).scopes.lookup? name) :=
  lookup?_cons (insideClass_scopes env header plan).1 name

/-- Declarations do not change what the outermost scope has. -/
theorem lookupOutermost?_cons {s s' : ScopeStack} {scope' : Scope}
    (hs : s.scopes = scope :: rest) (hs' : s'.scopes = scope' :: rest) {name : String} {b : Binding}
    (hkeep : scope.bindings.find? name = some b → scope'.bindings.find? name = some b)
    (hb : s.lookupOutermost? name = some b) : s'.lookupOutermost? name = some b := by
  unfold ScopeStack.lookupOutermost? at hb ⊢
  rw [hs] at hb
  rw [hs']
  cases rest with
  | nil => exact hkeep hb
  | cons second others => exact hb

theorem lookupOutermost?_open {s s' : ScopeStack} (hs : s.scopes ≠ [])
    (hs' : s'.scopes = scope :: s.scopes) (name : String) :
    s'.lookupOutermost? name = s.lookupOutermost? name := by
  unfold ScopeStack.lookupOutermost?
  rw [hs']
  cases hscopes : s.scopes with
  | nil => exact absurd hscopes hs
  | cons first others => rfl

@[simp]
theorem add_classes (env : Environment) (id : Ident) (ty : Ty) :
    (env.add id ty).classes = env.classes :=
  rfl

@[simp]
theorem enter_classes (env : Environment) (params : List Param) :
    (env.enter params).classes = env.classes :=
  rfl

end Environment

end ClassLet
