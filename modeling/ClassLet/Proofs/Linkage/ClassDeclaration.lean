import ClassLet.Proofs.Linkage.Scopes
import ClassLet.Proofs.Members.ClassScan

/-!
# Class declarations without link errors

A class that is declared without link errors has a known superclass or none, all its members have
places in a table that starts as the one of its superclass, and its own name and table become
known.

Main statements: `declared_of_linkErrors` collects these facts from an empty list of errors, and
`AtTop.after` says that top-level environments stay well formed.
-/

namespace ClassLet

namespace Environment

theorem allPlaced_of_fieldErrors {env : Environment} :
    ∀ {fields : List Field} {places : List (Except LinkError Int)},
      env.fieldErrors fields places = [] → places.length = fields.length → AllPlaced places
  | [], [], _, _ => by simp [AllPlaced]
  | f :: fs, place :: places, herrors, hlen => by
      simp only [fieldErrors, List.append_eq_nil_iff] at herrors
      have hrest := allPlaced_of_fieldErrors herrors.2 (by simpa using hlen)
      intro p hp
      rcases List.mem_cons.mp hp with rfl | hp
      · exact errorOf_eq_nil_iff.mp herrors.1.2
      · exact hrest p hp

theorem allPlaced_of_methodErrors {env : Environment} :
    ∀ {methods : List Method} {places : List (Except LinkError Nat)},
      env.methodErrors methods places = [] → places.length = methods.length → AllPlaced places
  | [], [], _, _ => by simp [AllPlaced]
  | m :: ms, place :: places, herrors, hlen => by
      simp only [methodErrors, List.append_eq_nil_iff] at herrors
      have hrest := allPlaced_of_methodErrors herrors.2 (by simpa using hlen)
      intro p hp
      rcases List.mem_cons.mp hp with rfl | hp
      · exact errorOf_eq_nil_iff.mp herrors.1.2
      · exact hrest p hp

end Environment

namespace MemberScan

theorem length_enterFields (className : String) (fields : List Field) (scan : MemberScan) :
    (enterFields className scan fields).2.length = fields.length := by
  induction fields generalizing scan with
  | nil => rfl
  | cons f fs ih => simp [enterFields, ih]

theorem length_enterMethods (className : String) (methods : List Method) (scan : MemberScan) :
    (enterMethods className scan methods).2.length = methods.length := by
  induction methods generalizing scan with
  | nil => rfl
  | cons m ms ih => simp [enterMethods, ih]

end MemberScan

/-!
# The facts about one class
-/

/-- A class whose members all have places in a table that starts as the inherited one, and whose
methods have different names. -/
structure ClassDeclared (env : Environment) (header : ClassHeader) (methods : List Method)
    (inherited entered : MemberTable) : Prop where
  inherits : env.inherited header = .ok inherited
  fieldsPlaced : ∀ names, inherited.Named names →
    FieldsPlaced inherited entered names header.fields (env.plan header methods).fieldPlaces
  methodsPlaced : ∀ names, entered.Named names →
    MethodsPlaced entered (env.plan header methods).table names methods
      (env.plan header methods).methodPlaces
  methodsAllPlaced : AllPlaced (env.plan header methods).methodPlaces
  methodsDistinct : (methods.map fun m => m.header.id.name).Nodup
  name : errorOf (env.scopes.takeOffset.declare header.id
    (env.classPlace header (env.plan header methods))) = []

theorem declared_of_linkErrors {env : Environment} {header : ClassHeader} {methods : List Method}
    (hok : header.linkErrors env methods = []) :
    ∃ inherited entered, ClassDeclared env header methods inherited entered := by
  simp only [ClassHeader.linkErrors, List.append_eq_nil_iff] at hok
  rcases hok with ⟨⟨⟨hinherited, hfields⟩, hmethods⟩, hname⟩
  rcases errorOf_eq_nil_iff.mp hinherited with ⟨inherited, hinherits⟩
  have hplan : env.plan header methods =
      let start := MemberScan.startingFrom inherited
      let first := MemberScan.enterFields header.id.name start header.fields
      let second := MemberScan.enterMethods header.id.name first.1 methods
      { fieldPlaces := first.2, methodPlaces := second.2, table := second.1.table } := by
    simp [Environment.plan, hinherits]
  have hfieldsPlaced := Environment.allPlaced_of_fieldErrors hfields (by
    rw [hplan]
    exact MemberScan.length_enterFields _ _ _)
  have hmethodsPlaced := Environment.allPlaced_of_methodErrors hmethods (by
    rw [hplan]
    exact MemberScan.length_enterMethods _ _ _)
  rw [hplan] at hfieldsPlaced hmethodsPlaced
  refine ⟨inherited, (MemberScan.enterFields header.id.name
    (MemberScan.startingFrom inherited) header.fields).1.table, hinherits, ?_, ?_, ?_,
    (MemberScan.enterMethods_distinct _ _ _ hmethodsPlaced).1, hname⟩
  · intro names hnamed
    rw [hplan]
    exact MemberScan.enterFields_placed _ _ (MemberScan.startingFrom inherited) hnamed hfieldsPlaced
  · intro names hnamed
    rw [hplan]
    exact MemberScan.enterMethods_placed _ _ _ hnamed hmethodsPlaced
  · rw [hplan]
    exact hmethodsPlaced

namespace ClassDeclared

variable {env : Environment} {header : ClassHeader} {methods : List Method}
  {inherited entered : MemberTable}

theorem named (hclass : ClassDeclared env header methods inherited entered) {names : List String}
    (hnamed : inherited.Named names) :
    (env.plan header methods).table.Named
      (enterNames names (header.fields.map fun f => f.id.name)) :=
  (hclass.methodsPlaced _ (hclass.fieldsPlaced names hnamed).named).named

theorem methodNames (hclass : ClassDeclared env header methods inherited entered)
    {names : List String} (hnamed : inherited.Named names) :
    (env.plan header methods).table.methodNames =
      enterNames inherited.methodNames (methods.map fun m => m.header.id.name) := by
  have hfields := hclass.fieldsPlaced names hnamed
  rw [(hclass.methodsPlaced _ hfields.named).methodNames]
  simp [MemberTable.methodNames, hfields.dispatch]

end ClassDeclared

/-!
# Top-level environments
-/

/-- An environment between two top-level declarations. -/
structure Environment.AtTop (env : Environment) : Prop where
  scopes : ∃ scope, env.scopes.scopes = [scope]
  current : env.current = none
  named : ∀ name table, env.classes.find? name = some table → ∃ names, table.Named names
  declared : ∀ name table, env.classes.find? name = some table →
    ∃ offset, env.scopes.lookupOutermost? name =
      some { level := 0, ty := .layout (table.layout name), offset }

namespace Environment

theorem atTop_start : start.AtTop where
  scopes := ⟨Scope.fresh, rfl⟩
  current := rfl
  named := by
    intro name table h
    simp [start] at h
  declared := by
    intro name table h
    simp [start] at h

theorem lookupOutermost?_single {s : ScopeStack} {scope : Scope} (hs : s.scopes = [scope])
    (name : String) : s.lookupOutermost? name = scope.bindings.find? name := by
  simp [ScopeStack.lookupOutermost?, hs]

theorem AtTop.level {env : Environment} (h : env.AtTop) : env.scopes.level = 0 := by
  rcases h.scopes with ⟨scope, hs⟩
  exact level_eq hs

/-- The table of the superclass, or an empty one, has named positions. -/
theorem AtTop.named_inherited {env : Environment} (h : env.AtTop) {header : ClassHeader}
    {inherited : MemberTable} (hinherits : env.inherited header = .ok inherited) :
    ∃ names, inherited.Named names := by
  unfold Environment.inherited at hinherits
  split at hinherits
  · cases hinherits
    exact ⟨[], MemberTable.named_empty⟩
  · split at hinherits
    · rename_i table hfind
      cases hinherits
      exact h.named _ _ hfind
    · cases hinherits

theorem AtTop.add {env : Environment} (h : env.AtTop) {id : Ident} {ty : Ty}
    (hok : env.addErrors id ty = []) : (env.add id ty).AtTop := by
  rcases h.scopes with ⟨scope, hs⟩
  rcases add_scopes hs hok with ⟨hnew, hscopes⟩
  constructor
  · exact ⟨_, hscopes⟩
  · exact h.current
  · exact h.named
  · intro name table hfind
    rcases h.declared name table hfind with ⟨offset, hbound⟩
    rw [lookupOutermost?_single hs] at hbound
    rw [lookupOutermost?_single hscopes]
    have hne : name ≠ id.name := by
      rintro rfl
      rw [hnew] at hbound
      cases hbound
    refine ⟨offset, ?_⟩
    rw [Scope.adding, NameMap.find?_insert, if_neg hne]
    exact hbound

theorem AtTop.addClass {env : Environment} (h : env.AtTop) {header : ClassHeader}
    {methods : List Method} {inherited entered : MemberTable}
    (hclass : ClassDeclared env header methods inherited entered) :
    (env.addClass header (env.plan header methods)).AtTop := by
  rcases h.scopes with ⟨scope, hs⟩
  rcases addClass_scopes hs hclass.name with ⟨hnew, hscopes, hclasses, hcurrent⟩
  constructor
  · exact ⟨_, hscopes⟩
  · rw [hcurrent]
    exact h.current
  · intro name table hfind
    rw [hclasses, NameMap.find?_insert] at hfind
    split at hfind
    · cases hfind
      rcases h.named_inherited hclass.inherits with ⟨names, hnamed⟩
      exact ⟨_, hclass.named hnamed⟩
    · exact h.named name table hfind
  · intro name table hfind
    rw [hclasses, NameMap.find?_insert] at hfind
    rw [lookupOutermost?_single hscopes, Scope.adding, NameMap.find?_insert]
    split at hfind
    · rename_i hname
      cases hfind
      subst hname
      exact ⟨scope.nextOffset, by rw [if_pos rfl, classPlace, place_eq hs]; rfl⟩
    · rename_i hname
      rw [if_neg hname]
      rcases h.declared name table hfind with ⟨offset, hbound⟩
      rw [lookupOutermost?_single hs] at hbound
      exact ⟨offset, hbound⟩

/-- What is known of a class at top level that is declared without errors. -/
theorem AtTop.classDeclared {env : Environment} (h : env.AtTop) {header : ClassHeader}
    {methods : List Method} (hok : (Decl.classDef header methods).linkErrors env = []) :
    ∃ inherited entered, ClassDeclared env header methods inherited entered := by
  simp only [Decl.linkErrors, h.level, if_true, List.append_eq_nil_iff] at hok
  exact declared_of_linkErrors hok.1

/-- The classes behind a declared one. -/
theorem AtTop.find?_after_classDef {env : Environment} (h : env.AtTop) {header : ClassHeader}
    {methods : List Method} {inherited entered : MemberTable}
    (hclass : ClassDeclared env header methods inherited entered) (name : String) :
    (env.after (.classDef header methods)).classes.find? name =
      if name = header.id.name then some (env.plan header methods).table
      else env.classes.find? name := by
  rcases h.scopes with ⟨scope, hs⟩
  rcases addClass_scopes hs hclass.name with ⟨_, _, hclasses, _⟩
  simp only [Environment.after, h.level, if_true, hclasses, NameMap.find?_insert]

/-- The table of a class is known behind it. -/
theorem AtTop.find?_after_self {env : Environment} (h : env.AtTop) {header : ClassHeader}
    {methods : List Method} {inherited entered : MemberTable}
    (hclass : ClassDeclared env header methods inherited entered) :
    (env.after (.classDef header methods)).classes.find? header.id.name =
      some (env.plan header methods).table := by
  rw [h.find?_after_classDef hclass, if_pos rfl]

/-- Declarations without link errors lead from one top-level environment to another. -/
theorem AtTop.after {env : Environment} (h : env.AtTop) {d : Decl}
    (hok : d.linkErrors env = []) : (env.after d).AtTop := by
  cases d with
  | var pos id ty init binding =>
      simp only [Decl.linkErrors, List.append_eq_nil_iff] at hok
      exact h.add hok.2
  | function header body binding =>
      simp only [Decl.linkErrors, List.append_eq_nil_iff] at hok
      exact h.add hok.1.1.2
  | classDef header methods =>
      rcases h.classDeclared hok with ⟨inherited, entered, hclass⟩
      simp only [Environment.after, h.level, if_true]
      exact h.addClass hclass

end Environment

end ClassLet
