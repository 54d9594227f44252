import ClassLet.Proofs.Lexical.ClassMembers
import ClassLet.Proofs.Linkage.Parameters
import Mathlib.Data.List.Forall2

/-!
# Points in a program

Linking keeps a stack of scopes, counts offsets downwards and registers classes. As long as no
declaration is refused, the scopes have the names of the regions around the point and the counter
stands at the position of the next declaration. Uses of names that refer to nothing, or of unknown
types, change nothing about that.

Main statements: `Lexical.Matches`, and its lemmas for the ways from one point to another.
-/

namespace ClassLet

/-!
# Faults of uses
-/

namespace LinkFault

/-- A fault at a use of a name or a type, which leaves all declarations in place. -/
def isOfUse : LinkFault → Bool
  | unknownName _ => true
  | unknownClass _ => true
  | notAnObject _ => true
  | unknownMethod _ _ => true
  | _ => false

end LinkFault

namespace LinkError

/-- The name that refers to nothing, if that is the error. -/
def unresolved? (e : LinkError) : Option Ident :=
  match e.cause with
  | .unknownName name => some { name, pos := e.pos }
  | _ => none

end LinkError

/-- No declaration is refused. -/
def UsesOnly (errors : List LinkError) : Prop :=
  ∀ e ∈ errors, e.cause.isOfUse

namespace UsesOnly

theorem append_iff {xs ys : List LinkError} :
    UsesOnly (xs ++ ys) ↔ UsesOnly xs ∧ UsesOnly ys :=
  List.forall_mem_append

theorem eq_nil {errors : List LinkError} (h : UsesOnly errors)
    (hrefused : ∀ e ∈ errors, e.cause.isOfUse = false) : errors = [] := by
  cases errors with
  | nil => rfl
  | cons e rest =>
      have huse := h e List.mem_cons_self
      rw [hrefused e List.mem_cons_self] at huse
      cases huse

/-- A declaration that could only be refused is not. -/
theorem ok {α : Type} {result : Except LinkError α} (h : UsesOnly (errorOf result))
    (hrefused : ∀ e, result = .error e → e.cause.isOfUse = false) : ∃ a, result = .ok a := by
  refine errorOf_eq_nil_iff.mp (h.eq_nil ?_)
  intro e he
  cases result with
  | ok a => cases he
  | error failure =>
      obtain rfl := List.mem_singleton.mp he
      exact hrefused e rfl

end UsesOnly

namespace ScopeStack

theorem declare_refused {s : ScopeStack} {id : Ident} {binding : Binding} {e : LinkError}
    (h : s.declare id binding = .error e) : e.cause.isOfUse = false := by
  unfold declare at h
  split at h
  · cases h
    rfl
  · cases h

theorem duplicates_refused {s : ScopeStack} {places : List (Ident × Binding)} :
    ∀ e ∈ s.duplicates places, e.cause.isOfUse = false := by
  induction places generalizing s with
  | nil =>
      intro e he
      cases he
  | cons place places ih =>
      rcases place with ⟨id, binding⟩
      intro e he
      unfold duplicates at he
      cases hdeclare : s.declare id binding with
      | ok s' =>
          rw [hdeclare] at he
          exact ih e he
      | error failure =>
          rw [hdeclare] at he
          rcases List.mem_cons.mp he with rfl | he
          · exact declare_refused hdeclare
          · exact ih e he

end ScopeStack

namespace MemberScan

theorem enter_refused {α : Type} {scan : MemberScan} {className : String} {id : Ident}
    {add : MemberTable → Except MemberFault (α × MemberTable)} {e : LinkError}
    (h : (scan.enter className id add).2 = .error e) : e.cause.isOfUse = false := by
  unfold enter at h
  split at h
  · cases h
    rfl
  · split at h
    · cases h
    · rename_i conflict _
      cases h
      cases conflict <;> rfl

theorem enterFields_refused {className : String} {fields : List Field} {scan : MemberScan} :
    ∀ place ∈ (enterFields className scan fields).2, ∀ e, place = .error e →
      e.cause.isOfUse = false := by
  induction fields generalizing scan with
  | nil =>
      intro place hplace
      cases hplace
  | cons f fs ih =>
      intro place hplace e he
      simp only [enterFields, List.mem_cons] at hplace
      rcases hplace with rfl | hplace
      · exact enter_refused he
      · exact ih place hplace e he

theorem enterMethods_refused {className : String} {methods : List Method} {scan : MemberScan} :
    ∀ place ∈ (enterMethods className scan methods).2, ∀ e, place = .error e →
      e.cause.isOfUse = false := by
  induction methods generalizing scan with
  | nil =>
      intro place hplace
      cases hplace
  | cons m ms ih =>
      intro place hplace e he
      simp only [enterMethods, List.mem_cons] at hplace
      rcases hplace with rfl | hplace
      · exact enter_refused he
      · exact ih place hplace e he

end MemberScan

/-!
# Scopes and regions
-/

/-- The scope has the names of the region. -/
def Scope.Shows (scope : Scope) (region : Region) : Prop :=
  ∀ name, scope.bindings.find? name = region.lookup name

/-- The environment is that of a point with the given number of declarations before it in its
list. -/
structure Lexical.Matches (lex : Lexical) (i : Nat) (env : Environment) : Prop where
  scopes : ∃ scope rest, env.scopes.scopes = scope :: rest ∧ scope.Shows lex.here ∧
    scope.nextOffset = -2 - (i : Int) ∧ List.Forall₂ Scope.Shows rest lex.outer
  known : ∀ name table, env.classes.find? name = some table →
    ∃ m, lex.classes.lookup name = some m ∧ m.Describes table
  unknown : ∀ name, env.classes.find? name = none → lex.classes.lookup name = none

/-- Places are looked up under the names of their identifiers. -/
theorem lookup_places (places : List (Ident × Binding)) (name : String) :
    (places.map fun place => (place.1.name, place.2)).lookup name =
      (places.find? fun place => place.1.name == name).map Prod.snd := by
  induction places with
  | nil => rfl
  | cons place places ih =>
      rw [List.map_cons, List.lookup_cons, List.find?_cons, ih, BEq.comm]
      cases place.1.name == name <;> rfl

theorem Environment.map_paramPlaces (depth : Nat) (params : List Param) :
    (paramPlaces depth params).map (fun place => (place.1.name, place.2)) =
      params.mapIdx fun j p => (p.id.name, Lexical.paramPlace depth j p) := by
  apply List.ext_getElem?
  intro j
  rw [List.getElem?_map, getElem?_paramPlaces, List.getElem?_mapIdx]
  cases params[j]? <;> rfl

/-- Entering a name that is looked up in front of the others. -/
theorem lookup_insert {α : Type} {name : String} {value : α} {entries : List (String × α)}
    {known : Option α} {other : String} (h : known = entries.lookup other) :
    (if other = name then some value else known) = ((name, value) :: entries).lookup other := by
  rw [List.lookup_cons]
  by_cases hname : other = name
  · simp [hname]
  · have hne : (other == name) = false := by simpa using hname
    rw [if_neg hname, hne, h]

theorem Scope.Shows.adding {scope : Scope} {region : Region} (h : scope.Shows region)
    (name : String) (b : Binding) : (scope.adding name b).Shows ((name, b) :: region) := by
  intro other
  rw [Scope.adding, NameMap.find?_insert]
  exact lookup_insert (h other)

theorem offset_adding {scope : Scope} {i : Nat} (h : scope.nextOffset = -2 - (i : Int))
    (name : String) (b : Binding) :
    (scope.adding name b).nextOffset = -2 - ((i + 1 : Nat) : Int) := by
  show scope.nextOffset - 1 = _
  rw [h]
  omega

namespace Lexical.Matches

variable {lex : Lexical} {i : Nat} {env : Environment}

theorem start : Lexical.start.Matches 0 Environment.start where
  scopes := ⟨Scope.fresh, [], rfl, fun _ => rfl, rfl, List.Forall₂.nil⟩
  known := by
    intro name table hfind
    cases hfind
  unknown := fun _ _ => rfl

theorem level (h : lex.Matches i env) : env.scopes.level = lex.depth := by
  rcases h.scopes with ⟨scope, rest, hs, _, _, hrest⟩
  rw [Environment.level_eq hs, hrest.length_eq, depth]

theorem frameLevel (h : lex.Matches i env) : env.frameLevel = lex.depth + 1 := by
  rcases h.scopes with ⟨scope, rest, hs, _, _, hrest⟩
  rw [Environment.frameLevel_eq, hs, List.length_cons, hrest.length_eq, depth]

theorem place (h : lex.Matches i env) (ty : Ty) : env.place ty = lex.place i ty := by
  rcases h.scopes with ⟨scope, rest, hs, _, hoffset, hrest⟩
  rw [Environment.place_eq hs, hoffset, hrest.length_eq]
  rfl

theorem lookup? (h : lex.Matches i env) (name : String) :
    env.scopes.lookup? name = lex.find? name := by
  rcases h.scopes with ⟨scope, rest, hs, hscope, _, hrest⟩
  rw [ScopeStack.lookup?, hs]
  have hshown : List.Forall₂ Scope.Shows (scope :: rest) (lex.here :: lex.outer) :=
    List.Forall₂.cons hscope hrest
  exact ScopeStack.findSome?_bindings hshown name

/-- Linking a use of a name. -/
theorem resolve (h : lex.Matches i env) (id : Ident) :
    (env.resolve id).toOption = lex.resolve id ∧
      (errorOf (env.resolve id)).filterMap LinkError.unresolved? =
        [Note.use id (lex.resolve id)].filterMap Note.unresolved? := by
  unfold Environment.resolve ScopeStack.resolve Lexical.resolve
  rw [h.lookup?, h.level]
  cases lex.find? id.name with
  | none => exact ⟨rfl, rfl⟩
  | some b => exact ⟨rfl, rfl⟩

/-!
# From one point to another
-/

theorem add (h : lex.Matches i env) {id : Ident} {ty : Ty} (hok : env.addErrors id ty = []) :
    (lex.declare i id.name ty).Matches (i + 1) (env.add id ty) where
  scopes := by
    rcases h.scopes with ⟨scope, rest, hs, hscope, hoffset, hrest⟩
    refine ⟨_, rest, (Environment.add_scopes hs hok).2, ?_, offset_adding hoffset _ _, hrest⟩
    rw [h.place]
    exact hscope.adding _ _
  known := h.known
  unknown := h.unknown

theorem enter (h : lex.Matches i env) {params : List Param} (hok : env.paramErrors params = []) :
    (lex.enter params).Matches 0 (env.enter params) where
  scopes := by
    rcases h.scopes with ⟨scope, rest, hs, hscope, _, hrest⟩
    rcases Environment.enter_scopes hok with ⟨hdistinct, hscopes⟩
    refine ⟨_, _, hscopes, ?_, rfl, ?_⟩
    · intro name
      rw [Scope.ofParams, find?_foldl_insert hdistinct, NameMap.find?_empty, Option.or_none,
        h.frameLevel, ← lookup_places]
      exact congrArg (List.lookup name) (Environment.map_paramPlaces _ params)
    · rw [hs]
      exact List.Forall₂.cons hscope hrest
  known := h.known
  unknown := h.unknown

end Lexical.Matches

/-!
# Classes
-/

/-- The members of a class and its name have places. -/
structure ClassAccepted (env : Environment) (header : ClassHeader) (methods : List Method) :
    Prop where
  fieldPlaces : AllPlaced (env.plan header methods).fieldPlaces
  methodPlaces : AllPlaced (env.plan header methods).methodPlaces
  name : errorOf (env.scopes.takeOffset.declare header.id
    (env.classPlace header (env.plan header methods))) = []

namespace Environment

theorem fieldPlaces_refused (env : Environment) (header : ClassHeader) (methods : List Method) :
    ∀ place ∈ (env.plan header methods).fieldPlaces, ∀ e, place = .error e →
      e.cause.isOfUse = false :=
  MemberScan.enterFields_refused

theorem methodPlaces_refused (env : Environment) (header : ClassHeader) (methods : List Method) :
    ∀ place ∈ (env.plan header methods).methodPlaces, ∀ e, place = .error e →
      e.cause.isOfUse = false :=
  MemberScan.enterMethods_refused

theorem length_fieldPlaces (env : Environment) (header : ClassHeader) (methods : List Method) :
    (env.plan header methods).fieldPlaces.length = header.fields.length :=
  MemberScan.length_enterFields _ _ _

theorem length_methodPlaces (env : Environment) (header : ClassHeader) (methods : List Method) :
    (env.plan header methods).methodPlaces.length = methods.length :=
  MemberScan.length_enterMethods _ _ _

/-!
# Errors in headers
-/

theorem typeErrors_unresolved (env : Environment) (t : TypeRef) :
    (env.typeErrors t).filterMap LinkError.unresolved? = [] := by
  unfold typeErrors
  rw [List.filterMap_map, List.filterMap_eq_nil_iff]
  exact fun _ _ => rfl

theorem headerErrors_unresolved (env : Environment) (h : Header) :
    (env.headerErrors h).filterMap LinkError.unresolved? = [] := by
  unfold headerErrors
  rw [List.filterMap_append, env.typeErrors_unresolved, List.append_nil, List.filterMap_flatMap,
    List.flatMap_eq_nil_iff]
  exact fun p _ => env.typeErrors_unresolved p.ty

theorem fieldErrors_placed {env : Environment} :
    ∀ {fields : List Field} {places : List (Except LinkError Int)},
      places.length = fields.length → UsesOnly (env.fieldErrors fields places) →
      (∀ place ∈ places, ∀ e, place = .error e → e.cause.isOfUse = false) →
      AllPlaced places ∧
        (env.fieldErrors fields places).filterMap LinkError.unresolved? = []
  | [], [], _, _, _ => ⟨fun _ hplace => (nomatch hplace), rfl⟩
  | f :: fs, place :: places, hlength, huses, hrefused => by
      simp only [fieldErrors, UsesOnly.append_iff] at huses
      rcases huses.1.2.ok (hrefused place List.mem_cons_self) with ⟨offset, rfl⟩
      rcases fieldErrors_placed (Nat.succ.inj hlength) huses.2
        (fun p hp => hrefused p (List.mem_cons_of_mem _ hp)) with ⟨hplaced, hrest⟩
      refine ⟨List.forall_mem_cons.mpr ⟨⟨offset, rfl⟩, hplaced⟩, ?_⟩
      simp [fieldErrors, errorOf, env.typeErrors_unresolved, hrest]

theorem methodErrors_placed {env : Environment} :
    ∀ {methods : List Method} {places : List (Except LinkError Nat)},
      places.length = methods.length → UsesOnly (env.methodErrors methods places) →
      (∀ place ∈ places, ∀ e, place = .error e → e.cause.isOfUse = false) →
      AllPlaced places ∧
        (env.methodErrors methods places).filterMap LinkError.unresolved? = []
  | [], [], _, _, _ => ⟨fun _ hplace => (nomatch hplace), rfl⟩
  | m :: ms, place :: places, hlength, huses, hrefused => by
      simp only [methodErrors, UsesOnly.append_iff] at huses
      rcases huses.1.2.ok (hrefused place List.mem_cons_self) with ⟨slot, rfl⟩
      rcases methodErrors_placed (Nat.succ.inj hlength) huses.2
        (fun p hp => hrefused p (List.mem_cons_of_mem _ hp)) with ⟨hplaced, hrest⟩
      refine ⟨List.forall_mem_cons.mpr ⟨⟨slot, rfl⟩, hplaced⟩, ?_⟩
      simp [methodErrors, errorOf, env.headerErrors_unresolved, hrest]

theorem inherited_unresolved (env : Environment) (header : ClassHeader) :
    (errorOf (env.inherited header)).filterMap LinkError.unresolved? = [] := by
  unfold inherited
  split
  · rfl
  · split <;> rfl

end Environment

theorem ClassAccepted.of_usesOnly {env : Environment} {header : ClassHeader} {methods : List Method}
    (h : UsesOnly (header.linkErrors env methods)) :
    ClassAccepted env header methods ∧
      (header.linkErrors env methods).filterMap LinkError.unresolved? = [] := by
  simp only [ClassHeader.linkErrors, UsesOnly.append_iff] at h
  rcases Environment.fieldErrors_placed (env.length_fieldPlaces header methods) h.1.1.2
    (env.fieldPlaces_refused header methods) with ⟨hfields, hfieldErrors⟩
  rcases Environment.methodErrors_placed (env.length_methodPlaces header methods) h.1.2
    (env.methodPlaces_refused header methods) with ⟨hmethods, hmethodErrors⟩
  have hname := errorOf_eq_nil_iff.mpr (h.2.ok fun e => ScopeStack.declare_refused)
  refine ⟨⟨hfields, hmethods, hname⟩, ?_⟩
  simp only [ClassHeader.linkErrors, List.filterMap_append, env.inherited_unresolved header,
    hfieldErrors, hmethodErrors, hname, List.append_nil]

namespace Lexical.Matches

variable {lex : Lexical} {i : Nat} {env : Environment} {header : ClassHeader}
  {methods : List Method}

theorem members (h : lex.Matches i env) (haccepted : ClassAccepted env header methods) :
    (lex.members header methods).Describes (env.plan header methods).table := by
  refine Environment.plan_describes ?_ haccepted.fieldPlaces haccepted.methodPlaces
  unfold Environment.baseTable
  cases header.super with
  | none => exact Members.Describes.empty
  | some super =>
      simp only [Option.bind_some]
      cases hfind : env.classes.find? super.name with
      | none =>
          rw [h.unknown _ hfind]
          exact Members.Describes.empty
      | some table =>
          rcases h.known _ _ hfind with ⟨m, hm, hdescribes⟩
          rw [hm]
          exact hdescribes

theorem classPlace (h : lex.Matches i env) (haccepted : ClassAccepted env header methods) :
    env.classPlace header (env.plan header methods) =
      lex.place i ((lex.members header methods).classType header.id.name) := by
  rw [Environment.classPlace, (h.members haccepted).layout, h.place]

theorem addClass (h : lex.Matches i env) (haccepted : ClassAccepted env header methods) :
    (lex.declareClass i header methods).Matches (i + 1)
      (env.addClass header (env.plan header methods)) := by
  rcases h.scopes with ⟨scope, rest, hs, hscope, hoffset, hrest⟩
  rcases Environment.addClass_scopes hs haccepted.name with ⟨_, hscopes, hclasses, _⟩
  constructor
  · refine ⟨_, rest, hscopes, ?_, ?_, hrest⟩
    · rw [h.classPlace haccepted]
      exact hscope.adding _ _
    · exact offset_adding hoffset _ _
  · intro name table hfind
    rw [hclasses, NameMap.find?_insert] at hfind
    by_cases hname : name = header.id.name
    · rw [if_pos hname] at hfind
      cases hfind
      refine ⟨_, ?_, h.members haccepted⟩
      rw [hname]
      exact List.lookup_cons_self
    · rw [if_neg hname] at hfind
      rcases h.known name table hfind with ⟨m, hm, hdescribes⟩
      refine ⟨m, ?_, hdescribes⟩
      rw [← hm]
      exact (lookup_insert rfl).symm.trans (if_neg hname)
  · intro name hfind
    rw [hclasses, NameMap.find?_insert] at hfind
    by_cases hname : name = header.id.name
    · rw [if_pos hname] at hfind
      cases hfind
    · rw [if_neg hname] at hfind
      rw [← h.unknown name hfind]
      exact (lookup_insert rfl).symm.trans (if_neg hname)

theorem insideClass (h : lex.Matches i env) (haccepted : ClassAccepted env header methods) :
    (lex.enterClass i header methods).Matches 0
      (env.insideClass header (env.plan header methods)) := by
  have hadded := h.addClass haccepted
  rcases hadded.scopes with ⟨scope, rest, hs, hscope, _, hrest⟩
  constructor
  · refine ⟨Scope.holding (env.plan header methods).table.members, scope :: rest, ?_, ?_, rfl,
      List.Forall₂.cons hscope hrest⟩
    · rw [(Environment.insideClass_scopes env header _).1, hs]
    · exact (h.members haccepted).find?
  · exact hadded.known
  · exact hadded.unknown

end Lexical.Matches

end ClassLet
