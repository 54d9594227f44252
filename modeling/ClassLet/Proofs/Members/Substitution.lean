import ClassLet.Proofs.Hierarchy.Chains
import ClassLet.Proofs.Linkage.NestedDeclarations
import ClassLet.Proofs.Members.Overrides
import ClassLet.Proofs.Written

/-!
# Objects of subclasses

Every class is compared with its direct superclass only, in the hierarchy known at that moment.
What is known of a program between two top-level declarations, `Settled`, is that every edge of
the hierarchy leads from one known table to another that it refines. A class adds its edge under
a name that had none, so the edges before it stay and with them all subtype relations.

Main statement: `ancestor_substitutable`, in a program without errors a class has all members of
every class above it, in the same places and with types below theirs.
-/

namespace ClassLet

theorem Hierarchy.extends_declareAll_edge {h : Hierarchy} {header : ClassHeader}
    (hnew : h.superclass? header.id.name = none) : (h.declareAll header.edge).Extends h := by
  intro x y hxy
  unfold ClassHeader.edge
  split
  · rename_i super _
    show (h.declare header.id.name super.name).superclass? x = some y
    have hne : x ≠ header.id.name := by
      rintro rfl
      rw [hnew] at hxy
      cases hxy
    rw [superclass?_declare, if_neg hne]
    exact hxy
  · exact hxy

/-!
# Known classes
-/

namespace Environment

/-- The name of a class that is declared has no table yet. -/
theorem AtTop.unknown {env : Environment} (h : env.AtTop) {header : ClassHeader} {plan : ClassPlan}
    (hok : errorOf (env.scopes.takeOffset.declare header.id (env.classPlace header plan)) = []) :
    env.classes.find? header.id.name = none := by
  rcases h.scopes with ⟨scope, hs⟩
  rcases addClass_scopes hs hok with ⟨hnew, _, _, _⟩
  cases hfind : env.classes.find? header.id.name with
  | none => rfl
  | some table =>
      rcases h.declared _ _ hfind with ⟨offset, hbound⟩
      rw [lookupOutermost?_single hs, hnew] at hbound
      cases hbound

theorem AtTop.superLayout {env : Environment} (h : env.AtTop) {header : ClassHeader}
    {super : Ident} {inherited : MemberTable} (hsuper : header.super = some super)
    (hinherits : env.inherited header = .ok inherited) :
    env.classes.find? super.name = some inherited ∧
      env.superLayout? header = some (inherited.layout super.name) := by
  simp only [Environment.inherited, hsuper] at hinherits
  split at hinherits
  · rename_i table hfind
    cases hinherits
    rcases h.declared _ _ hfind with ⟨offset, hbound⟩
    exact ⟨hfind, by simp [superLayout?, hsuper, hfind, hbound]⟩
  · cases hinherits

/-- Tables are never replaced. -/
theorem AtTop.find?_after {env : Environment} (h : env.AtTop) {d : Decl}
    (hok : d.linkErrors env = []) {name : String} {table : MemberTable}
    (hfind : env.classes.find? name = some table) :
    (env.after d).classes.find? name = some table := by
  cases d with
  | var pos id ty init binding => exact hfind
  | function header body binding => exact hfind
  | classDef header methods =>
      rcases h.classDeclared hok with ⟨inherited, entered, hclass⟩
      have hne : name ≠ header.id.name := by
        rintro rfl
        rw [h.unknown hclass.name] at hfind
        cases hfind
      rw [h.find?_after_classDef hclass, if_neg hne]
      exact hfind

theorem AtTop.find?_afterAll {env : Environment} (h : env.AtTop) {ds : List Decl}
    (hok : Decl.linkErrorsAll env ds = []) {name : String} {table : MemberTable}
    (hfind : env.classes.find? name = some table) :
    (env.afterAll ds).classes.find? name = some table := by
  induction ds generalizing env with
  | nil => exact hfind
  | cons d ds ih =>
      simp only [Decl.linkErrorsAll, List.append_eq_nil_iff] at hok
      exact ih (h.after hok.1) hok.2 (h.find?_after hok.1 hfind)

/-- A linked class carries the layout of the table that is known under its name. -/
theorem AtTop.table_of_mem {env : Environment} (h : env.AtTop) {ds : List Decl}
    (hok : Decl.linkErrorsAll env ds = []) {header : ClassHeader} {methods : List Method}
    (hmem : Decl.classDef header methods ∈ Decl.linkAll env ds) :
    ∃ table, (env.afterAll ds).classes.find? header.id.name = some table ∧
      header.layout = some (table.layout header.id.name) := by
  induction ds generalizing env with
  | nil => cases hmem
  | cons d ds ih =>
      simp only [Decl.linkErrorsAll, List.append_eq_nil_iff] at hok
      have hafter := h.after hok.1
      rw [Decl.linkAll, List.mem_cons] at hmem
      rcases hmem with hmem | hmem
      · cases d with
        | var pos id ty init binding => cases hmem
        | function header body binding => cases hmem
        | classDef source members =>
            rcases h.classDeclared hok.1 with ⟨inherited, entered, hclass⟩
            simp only [Decl.link, h.level, if_true, Decl.classDef.injEq] at hmem
            rcases hmem with ⟨rfl, rfl⟩
            exact ⟨(env.plan source members).table,
              hafter.find?_afterAll hok.2 (h.find?_after_self hclass), rfl⟩
      · exact ih hafter hok.2 hmem

/-- Every known table belongs to a linked class. -/
theorem AtTop.mem_of_table {env : Environment} (h : env.AtTop) {ds : List Decl}
    (hok : Decl.linkErrorsAll env ds = []) {name : String} {table : MemberTable}
    (hfind : (env.afterAll ds).classes.find? name = some table) :
    env.classes.find? name = some table ∨
      ∃ header methods, Decl.classDef header methods ∈ Decl.linkAll env ds ∧
        header.id.name = name := by
  induction ds generalizing env with
  | nil => exact Or.inl hfind
  | cons d ds ih =>
      simp only [Decl.linkErrorsAll, List.append_eq_nil_iff] at hok
      rcases ih (h.after hok.1) hok.2 hfind with hknown | ⟨header, methods, hmem, hname⟩
      · cases d with
        | var pos id ty init binding => exact Or.inl hknown
        | function header body binding => exact Or.inl hknown
        | classDef header methods =>
            rcases h.classDeclared hok.1 with ⟨inherited, entered, hclass⟩
            rw [h.find?_after_classDef hclass] at hknown
            split at hknown
            · rename_i hname
              have hmem : Decl.classDef (header.link env (env.plan header methods))
                  (Method.linkAll (env.insideClass header (env.plan header methods))
                    (env.plan header methods).methodPlaces methods) ∈
                  Decl.linkAll env (.classDef header methods :: ds) := by
                simp [Decl.linkAll, Decl.link, h.level]
              exact Or.inr ⟨_, _, hmem, hname.symm⟩
            · exact Or.inl hknown
      · exact Or.inr ⟨header, methods, List.mem_cons_of_mem _ hmem, hname⟩

end Environment

/-!
# Edges between refined tables
-/

/-- What is known between two top-level declarations of a program without errors. -/
structure Settled (env : Environment) (h : Hierarchy) : Prop where
  atTop : env.AtTop
  refines : ∀ sub super, h.superclass? sub = some super →
    ∃ own above, env.classes.find? sub = some own ∧ env.classes.find? super = some above ∧
      own.Refines above h

namespace Settled

theorem start : Settled Environment.start Hierarchy.empty where
  atTop := Environment.atTop_start
  refines := by
    intro sub super hedge
    simp [Hierarchy.superclass?, Hierarchy.empty] at hedge

theorem unknown {env : Environment} {h : Hierarchy} (hsettled : Settled env h) {name : String}
    (hnew : env.classes.find? name = none) : h.superclass? name = none := by
  cases hedge : h.superclass? name with
  | none => rfl
  | some super =>
      rcases hsettled.refines _ _ hedge with ⟨own, above, hown, _, _⟩
      rw [hnew] at hown
      cases hown

/-- More classes, and perhaps one more edge. -/
theorem after {env : Environment} {h : Hierarchy} (hsettled : Settled env h) {d : Decl}
    (hok : d.linkErrors env = []) (hchecked : ErrorFree ((d.link env).typingFailures h)) :
    Settled (env.after d) (h.declareAll (d.link env).edges) ∧
      (h.declareAll (d.link env).edges).Extends h := by
  have hatTop := hsettled.atTop
  have hafter := hatTop.after hok
  have hkeep : ∀ {k : Hierarchy}, k.Extends h → ∀ sub super, h.superclass? sub = some super →
      ∃ own above, (env.after d).classes.find? sub = some own ∧
        (env.after d).classes.find? super = some above ∧ own.Refines above k := by
    intro k hk sub super hedge
    rcases hsettled.refines _ _ hedge with ⟨own, above, hown, habove, hrefines⟩
    exact ⟨own, above, hatTop.find?_after hok hown, hatTop.find?_after hok habove,
      hrefines.mono hk⟩
  cases d with
  | var pos id ty init binding =>
      exact ⟨⟨hafter, hkeep fun _ _ hxy => hxy⟩, fun _ _ hxy => hxy⟩
  | function header body binding =>
      have herrors := hok
      simp only [Decl.linkErrors, List.append_eq_nil_iff] at herrors
      have hedges : ((Decl.function header body binding).link env).edges = [] :=
        Body.edges_link _ (Environment.nested_enter (env.add_scopes_ne_nil _ _) header.params)
          body herrors.2
      rw [hedges]
      exact ⟨⟨hafter, hkeep fun _ _ hxy => hxy⟩, fun _ _ hxy => hxy⟩
  | classDef header methods =>
      have herrors := hok
      simp only [Decl.linkErrors, hatTop.level, if_true, List.append_eq_nil_iff] at herrors
      rcases declared_of_linkErrors herrors.1 with ⟨inherited, entered, hclass⟩
      have hnew := hatTop.unknown hclass.name
      have hmethodEdges := Method.edgesAll_link (env.insideClass header
        (env.plan header methods)) (List.cons_ne_nil _ _) (env.plan header methods).methodPlaces
        herrors.2
      have hedges : ((Decl.classDef header methods).link env).edges = header.edge := by
        simp only [Decl.link, hatTop.level, if_true, Decl.edges, hmethodEdges, List.append_nil]
        rfl
      simp only [Decl.link, hatTop.level, if_true, Decl.typingFailures, hmethodEdges,
        Hierarchy.declareAll_nil] at hchecked
      have hoverrides : ErrorFree ((header.link env (env.plan header methods)).overrideFailures
          (h.declareAll header.edge) _) := (ErrorFree.append_iff.mp hchecked).2
      rw [hedges]
      have hextends : (h.declareAll header.edge).Extends h :=
        Hierarchy.extends_declareAll_edge (hsettled.unknown hnew)
      refine ⟨⟨hafter, ?_⟩, hextends⟩
      intro sub super hedge
      rcases Hierarchy.superclass?_declareAll hedge with hmem | hold
      · cases hsuper : header.super with
        | none => simp [ClassHeader.edge, hsuper] at hmem
        | some above =>
            simp only [ClassHeader.edge, hsuper, List.mem_singleton, Prod.mk.injEq] at hmem
            rcases hmem with ⟨rfl, rfl⟩
            rcases hatTop.superLayout hsuper hclass.inherits with ⟨hfind, hlayout⟩
            rcases hatTop.named_inherited hclass.inherits with ⟨names, hnamed⟩
            exact ⟨(env.plan header methods).table, inherited, hatTop.find?_after_self hclass,
              hatTop.find?_after hok hfind, hclass.refines hnamed hlayout hoverrides⟩
      · exact hkeep hextends sub super hold

theorem afterAll {env : Environment} {h : Hierarchy} (hsettled : Settled env h) {ds : List Decl}
    (hok : Decl.linkErrorsAll env ds = [])
    (hchecked : ErrorFree (Decl.typingFailuresAll h (Decl.linkAll env ds))) :
    Settled (env.afterAll ds) (h.declareAll (Decl.edgesAll (Decl.linkAll env ds))) ∧
      (h.declareAll (Decl.edgesAll (Decl.linkAll env ds))).Extends h := by
  induction ds generalizing env h with
  | nil => exact ⟨hsettled, fun _ _ hxy => hxy⟩
  | cons d ds ih =>
      simp only [Decl.linkErrorsAll, List.append_eq_nil_iff] at hok
      simp only [Decl.linkAll, Decl.typingFailuresAll] at hchecked
      rcases ErrorFree.append_iff.mp hchecked with ⟨hfirst, hrest⟩
      rcases hsettled.after hok.1 hfirst with ⟨hsettled', hextends⟩
      rcases ih hsettled' hok.2 hrest with ⟨hsettled'', hextends'⟩
      rw [Environment.afterAll_cons, Decl.linkAll, Decl.edgesAll, Hierarchy.declareAll_append]
      exact ⟨hsettled'', fun x y hxy => hextends' x y (hextends x y hxy)⟩

/-- Refinement along any number of edges. -/
theorem descends {env : Environment} {h : Hierarchy} (hsettled : Settled env h)
    {sub super : String} {own : MemberTable} (hdescends : h.Descends sub super)
    (hown : env.classes.find? sub = some own) :
    ∃ above, env.classes.find? super = some above ∧ own.Refines above h := by
  induction hdescends generalizing own with
  | refl => exact ⟨own, hown, MemberTable.Refines.refl h own⟩
  | step hedge _ ih =>
      rcases hsettled.refines _ _ hedge with ⟨own', next, hown', hnext, hrefines⟩
      rw [hown, Option.some.injEq] at hown'
      subst hown'
      rcases ih hnext with ⟨above, habove, hrefines'⟩
      exact ⟨above, habove, hrefines.trans hrefines'⟩

end Settled

/-!
# Programs
-/

/-- Fields and methods in the same places, with types below those of the other layout. -/
structure ClassLayout.SubstitutableFor (own above : ClassLayout) (h : Hierarchy) : Prop where
  fields_le : above.fields.length ≤ own.fields.length
  methods_le : above.methods.length ≤ own.methods.length
  field : ∀ (i : Nat) (ty ty' : Ty), own.fields[i]? = some ty → above.fields[i]? = some ty' →
    h.isSubtype ty ty' = true
  method : ∀ (slot : Nat) (s s' : Signature), own.methods[slot]? = some s →
    above.methods[slot]? = some s' → h.isSubtype (.arrow s) (.arrow s') = true

theorem length_le_of_getElem? {α β : Type} {xs : List α} {ys : List β}
    (h : ∀ (i : Nat) (x : α), xs[i]? = some x → ∃ y, ys[i]? = some y) : xs.length ≤ ys.length := by
  cases hxs : xs.length with
  | zero => exact Nat.zero_le _
  | succ n =>
      have hlt : n < xs.length := by omega
      rcases h n xs[n] (List.getElem?_eq_getElem hlt) with ⟨y, hy⟩
      exact (List.getElem?_eq_some_iff.mp hy).1

theorem MemberTable.Refines.substitutable {own above : MemberTable} {h : Hierarchy}
    (hrefines : own.Refines above h) (name super : String) :
    (own.layout name).SubstitutableFor (above.layout super) h where
  fields_le := by
    apply length_le_of_getElem?
    intro i ty hty
    rcases hrefines.field i ty hty with ⟨ty', hty', _⟩
    exact ⟨ty', hty'⟩
  methods_le := by
    apply length_le_of_getElem?
    intro s t ht
    simp only [MemberTable.layout, List.getElem?_map, Option.map_eq_some_iff] at ht
    rcases ht with ⟨e, he, rfl⟩
    rcases hrefines.method s e he with ⟨e', he', _, _⟩
    exact ⟨e'.signature, by simp [MemberTable.layout, he']⟩
  field := by
    intro i ty ty' hty hty'
    rcases hrefines.field i ty' hty' with ⟨ty'', hty'', hsub⟩
    exact (Option.some.inj (hty''.symm.trans hty)) ▸ hsub
  method := by
    intro slot s s' hs hs'
    simp only [MemberTable.layout, List.getElem?_map, Option.map_eq_some_iff] at hs hs'
    rcases hs with ⟨e, he, rfl⟩
    rcases hs' with ⟨e', he', rfl⟩
    rcases hrefines.method slot e' he' with ⟨e'', he'', _, hsub⟩
    exact (Option.some.inj (he''.symm.trans he)) ▸ hsub

namespace Program

/-- The program declares a class with the name of the layout, and always with that layout. -/
def HasLayout (p : Program) (layout : ClassLayout) : Prop :=
  (∃ header methods, Decl.classDef header methods ∈ p.decls ∧ header.id.name = layout.name) ∧
    ∀ header methods, Decl.classDef header methods ∈ p.decls → header.id.name = layout.name →
      header.layout = some layout

theorem settled {p : Program} (hlink : p.link.errors = [])
    (htyping : p.link.program.typing.errors = []) :
    Settled (Environment.start.afterAll p.decls) p.link.program.typing.hierarchy := by
  simp only [Program.link, List.append_eq_nil_iff] at hlink
  exact (Settled.start.afterAll hlink.1
    (ErrorFree.append_iff.mp (Typing.errorFree htyping)).1).1

theorem ancestor_substitutable {p : Program} (hlink : p.link.errors = [])
    (htyping : p.link.program.typing.errors = []) {header : ClassHeader} {methods : List Method}
    (hclass : Decl.classDef header methods ∈ p.link.program.decls) {above : String}
    (habove : above ∈ p.link.program.typing.hierarchy.ancestors header.id.name) :
    ∃ own inherited, header.layout = some own ∧ inherited.name = above ∧
      p.link.program.HasLayout inherited ∧
      own.SubstitutableFor inherited p.link.program.typing.hierarchy := by
  have hsettled := settled hlink htyping
  simp only [Program.link, List.append_eq_nil_iff] at hlink
  have hstart := Environment.atTop_start
  rcases hstart.table_of_mem hlink.1 hclass with ⟨own, hown, hlayout⟩
  rw [Hierarchy.mem_ancestors_iff] at habove
  rcases hsettled.descends habove hown with ⟨table, htable, hrefines⟩
  refine ⟨own.layout header.id.name, table.layout above, hlayout, rfl, ⟨?_, ?_⟩,
    hrefines.substitutable _ _⟩
  · rcases hstart.mem_of_table hlink.1 htable with hknown | hdeclared
    · simp [Environment.start] at hknown
    · exact hdeclared
  · intro header' methods' hclass' hname
    rcases hstart.table_of_mem hlink.1 hclass' with ⟨table', htable', hlayout'⟩
    change header'.id.name = above at hname
    subst hname
    rw [htable, Option.some.injEq] at htable'
    rw [hlayout', htable']

/-- The field is narrowed by the second class and the method by the third. -/
def narrowing : Program :=
  { decls := [
      Written.classOf "Base" none [("f", .int)]
        [Written.method "m" [("x", .bool)] .int ⟨[], .int Written.start 0⟩],
      Written.classOf "Middle" (some "Base") [("f", .bool)] [],
      Written.classOf "Leaf" (some "Middle") []
        [Written.method "m" [("x", .int)] .bool ⟨[], .bool Written.start true⟩]]
    body := .int Written.start 0
    pos := Written.start }

theorem ancestor_substitutable_narrowing :
    narrowing.link.errors = [] ∧ narrowing.link.program.typing.errors = [] ∧
      ∃ header methods, Decl.classDef header methods ∈ narrowing.link.program.decls ∧
        header.id.name = "Leaf" ∧
        "Base" ∈ narrowing.link.program.typing.hierarchy.ancestors "Leaf" ∧
        ∃ own inherited, header.layout = some own ∧ inherited.name = "Base" ∧
          narrowing.link.program.HasLayout inherited ∧
          own.SubstitutableFor inherited narrowing.link.program.typing.hierarchy := by
  have hlink : narrowing.link.errors = [] := by decide
  have htyping : narrowing.link.program.typing.errors = [] := by decide
  have habove : "Base" ∈ narrowing.link.program.typing.hierarchy.ancestors "Leaf" := by decide
  refine ⟨hlink, htyping, _, _, List.mem_of_getElem? (i := 2) rfl, rfl, habove, ?_⟩
  exact ancestor_substitutable hlink htyping (List.mem_of_getElem? (i := 2) rfl) habove

end Program

end ClassLet
