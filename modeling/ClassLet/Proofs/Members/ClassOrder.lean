import ClassLet.Proofs.Hierarchy.Chains
import ClassLet.Proofs.Linkage.Sequences
import ClassLet.Proofs.Members.Substitution

/-!
# The order of class declarations

In a program without link errors every class is declared once, at top level, and its superclass is
declared before it. The superclass edges are therefore those that the classes are declared with,
and they lead towards the beginning of the program.

Main statements: `class_at`, what is known of the class at a position, and
`declaresClass_of_superclass?`, where the edges come from.
-/

namespace ClassLet

/-!
# Classes between other declarations
-/

namespace Decl

/-- The superclass edge of a declaration at top level. -/
def edge : Decl → List (String × String)
  | .classDef header _ => header.edge
  | _ => []

end Decl

namespace Environment

theorem AtTop.afterAll {env : Environment} (h : env.AtTop) {ds : List Decl}
    (hok : Decl.linkErrorsAll env ds = []) : (env.afterAll ds).AtTop := by
  induction ds generalizing env with
  | nil => exact h
  | cons d ds ih =>
      simp only [Decl.linkErrorsAll, List.append_eq_nil_iff] at hok
      exact ih (h.after hok.1) hok.2

/-- Nothing below top level adds an edge. -/
theorem AtTop.edgesAll_link {env : Environment} (h : env.AtTop) {ds : List Decl}
    (hok : Decl.linkErrorsAll env ds = []) :
    Decl.edgesAll (Decl.linkAll env ds) = ds.flatMap Decl.edge := by
  induction ds generalizing env with
  | nil => rfl
  | cons d ds ih =>
      simp only [Decl.linkErrorsAll, List.append_eq_nil_iff] at hok
      rw [Decl.linkAll, Decl.edgesAll, ih (h.after hok.1) hok.2, List.flatMap_cons]
      congr 1
      have herrors := hok.1
      cases d with
      | var pos id ty init binding => rfl
      | function header body binding =>
          simp only [Decl.linkErrors, List.append_eq_nil_iff] at herrors
          exact Body.edges_link _
            (nested_enter (env.add_scopes_ne_nil _ _) header.params) body herrors.2
      | classDef header methods =>
          simp only [Decl.linkErrors, h.level, if_true, List.append_eq_nil_iff] at herrors
          have hmethods := Method.edgesAll_link (env.insideClass header (env.plan header methods))
            (List.cons_ne_nil _ _) (env.plan header methods).methodPlaces herrors.2
          simp only [Decl.link, h.level, if_true, Decl.edges, hmethods, List.append_nil]
          rfl

/-- A table that is known behind some declarations belongs to one of the classes among them. -/
theorem AtTop.exists_class {env : Environment} (h : env.AtTop) {ds : List Decl}
    (hok : Decl.linkErrorsAll env ds = []) {name : String} {table : MemberTable}
    (hfind : (env.afterAll ds).classes.find? name = some table) :
    env.classes.find? name = some table ∨
      ∃ (i : Nat) (header : ClassHeader) (methods : List Method),
        ds[i]? = some (.classDef header methods) ∧ header.id.name = name := by
  induction ds generalizing env with
  | nil => exact Or.inl hfind
  | cons d ds ih =>
      simp only [Decl.linkErrorsAll, List.append_eq_nil_iff] at hok
      rcases ih (h.after hok.1) hok.2 hfind with hknown | ⟨i, header, methods, hi, hname⟩
      · cases d with
        | var pos id ty init binding => exact Or.inl hknown
        | function header body binding => exact Or.inl hknown
        | classDef header methods =>
            by_cases hname : header.id.name = name
            · exact Or.inr ⟨0, header, methods, rfl, hname⟩
            · rcases h.classDeclared hok.1 with ⟨inherited, entered, hclass⟩
              rw [h.find?_after_classDef hclass, if_neg (Ne.symm hname)] at hknown
              exact Or.inl hknown
      · exact Or.inr ⟨i + 1, header, methods, by simpa using hi, hname⟩

end Environment

/-!
# Classes of a program
-/

namespace Program

/-- The environment of the declaration at a position. -/
def before (p : Program) (i : Nat) : Environment :=
  Environment.start.afterAll (p.decls.take i)

/-- What is known of the class at a position of a program without link errors. -/
structure ClassAt (p : Program) (i : Nat) (header : ClassHeader) (methods : List Method)
    (inherited entered : MemberTable) : Prop where
  position : p.decls[i]? = some (.classDef header methods)
  atTop : (p.before i).AtTop
  declared : ClassDeclared (p.before i) header methods inherited entered
  table : p.link.classes.find? header.id.name = some ((p.before i).plan header methods).table

variable {p : Program} {i j : Nat} {header header' : ClassHeader} {methods methods' : List Method}
  {inherited entered inherited' entered' : MemberTable}

theorem linkErrorsAll_of_link (hlink : p.link.errors = []) :
    Decl.linkErrorsAll Environment.start p.decls = [] := by
  simp only [Program.link, List.append_eq_nil_iff] at hlink
  exact hlink.1

theorem split_at {d : Decl} (hd : p.decls[i]? = some d) :
    p.decls = p.decls.take i ++ d :: p.decls.drop (i + 1) := by
  rcases List.getElem?_eq_some_iff.mp hd with ⟨hlt, rfl⟩
  rw [List.getElem_cons_drop, List.take_append_drop]

theorem class_at (hlink : p.link.errors = [])
    (hposition : p.decls[i]? = some (.classDef header methods)) :
    ∃ inherited entered, p.ClassAt i header methods inherited entered := by
  have hok := linkErrorsAll_of_link hlink
  have hsplit := split_at hposition
  rw [hsplit, Decl.linkErrorsAll_append, List.append_eq_nil_iff] at hok
  rcases hok with ⟨hbefore, hclass⟩
  have hatTop : (p.before i).AtTop := Environment.atTop_start.afterAll hbefore
  simp only [Decl.linkErrorsAll, List.append_eq_nil_iff] at hclass
  have herrors := hclass.1
  simp only [Decl.linkErrors, show (Environment.start.afterAll (p.decls.take i)).scopes.level = 0
    from hatTop.level, if_true, List.append_eq_nil_iff] at herrors
  rcases declared_of_linkErrors herrors.1 with ⟨inherited, entered, hdeclared⟩
  refine ⟨inherited, entered, hposition, hatTop, hdeclared, ?_⟩
  have hfind := (hatTop.after hclass.1).find?_afterAll hclass.2
    (hatTop.find?_after_self hdeclared)
  show (Environment.start.afterAll p.decls).classes.find? header.id.name = _
  rw [hsplit, Environment.afterAll_append, Environment.afterAll_cons]
  exact hfind

/-- A class that stands before a position is known there. -/
theorem find?_before (hlink : p.link.errors = [])
    (hclass : p.ClassAt i header methods inherited entered)
    (hlt : i < j) :
    (p.before j).classes.find? header.id.name = some ((p.before i).plan header methods).table := by
  have hok := linkErrorsAll_of_link hlink
  rw [← List.take_append_drop j p.decls, Decl.linkErrorsAll_append,
    List.append_eq_nil_iff] at hok
  have hposition : (p.decls.take j)[i]? = some (.classDef header methods) := by
    rw [List.getElem?_take_of_lt hlt]
    exact hclass.position
  have hprefix : ({ p with decls := p.decls.take j, body := .null p.pos } : Program).link.errors =
      [] := by
    simp only [Program.link, hok.1, List.nil_append]
    rfl
  rcases class_at hprefix hposition with ⟨inherited', entered', hclass'⟩
  have htable := hclass'.table
  have hbefore : ({ p with decls := p.decls.take j, body := .null p.pos } : Program).before i =
      p.before i := by
    simp only [Program.before, List.take_take, Nat.min_eq_left (Nat.le_of_lt hlt)]
  rw [hbefore] at htable
  exact htable

/-- A class is declared once. -/
theorem position_unique (hlink : p.link.errors = [])
    (hclass : p.ClassAt i header methods inherited entered)
    (hclass' : p.ClassAt j header' methods' inherited' entered')
    (hname : header.id.name = header'.id.name) : i = j := by
  rcases Nat.lt_trichotomy i j with hlt | heq | hlt
  · have hfind := find?_before hlink hclass hlt
    rw [hname, hclass'.atTop.unknown hclass'.declared.name] at hfind
    cases hfind
  · exact heq
  · have hfind := find?_before hlink hclass' hlt
    rw [← hname, hclass.atTop.unknown hclass.declared.name] at hfind
    cases hfind

/-- The superclass stands before the class and has the table that the class starts from. -/
theorem super_at (hlink : p.link.errors = [])
    (hclass : p.ClassAt i header methods inherited entered)
    {super : Ident} (hsuper : header.super = some super) :
    ∃ (j : Nat) (above : ClassHeader) (others : List Method) (first second : MemberTable),
      j < i ∧ p.ClassAt j above others first second ∧ above.id.name = super.name ∧
      ((p.before j).plan above others).table = inherited := by
  rcases hclass.atTop.superLayout hsuper hclass.declared.inherits with ⟨hfind, _⟩
  have hok := linkErrorsAll_of_link hlink
  rw [← List.take_append_drop i p.decls, Decl.linkErrorsAll_append,
    List.append_eq_nil_iff] at hok
  rcases Environment.atTop_start.exists_class hok.1 hfind with
    hknown | ⟨j, above, others, hj, hname⟩
  · simp [Environment.start] at hknown
  · have hlt : j < i := by
      have hlength := (List.getElem?_eq_some_iff.mp hj).1
      rw [List.length_take] at hlength
      omega
    rw [List.getElem?_take_of_lt hlt] at hj
    rcases class_at hlink hj with ⟨first, second, habove⟩
    have htable := find?_before hlink habove hlt
    rw [hname, hfind, Option.some.injEq] at htable
    exact ⟨j, above, others, first, second, hlt, habove, hname, htable.symm⟩

/-!
# Superclass edges
-/

/-- A class of this name stands at the position, with the given superclass. -/
def DeclaresClass (p : Program) (i : Nat) (name : String) (super : Option String) : Prop :=
  ∃ header methods, p.decls[i]? = some (.classDef header methods) ∧ header.id.name = name ∧
    header.super.map Ident.name = super

theorem mem_edges_iff {sub super : String} :
    (sub, super) ∈ p.decls.flatMap Decl.edge ↔ ∃ i, p.DeclaresClass i sub (some super) := by
  constructor
  · intro hmem
    rcases List.mem_flatMap.mp hmem with ⟨d, hd, hedge⟩
    rcases List.getElem?_of_mem hd with ⟨i, hi⟩
    cases d with
    | var pos id ty init binding => cases hedge
    | function header body binding => cases hedge
    | classDef header methods =>
        simp only [Decl.edge, ClassHeader.edge] at hedge
        split at hedge
        · rename_i above habove
          rw [List.mem_singleton, Prod.mk.injEq] at hedge
          exact ⟨i, header, methods, hi, hedge.1.symm, by rw [habove, hedge.2]; rfl⟩
        · cases hedge
  · rintro ⟨i, header, methods, hi, rfl, hsuper⟩
    rcases Option.map_eq_some_iff.mp hsuper with ⟨above, habove, rfl⟩
    refine List.mem_flatMap.mpr ⟨_, List.mem_of_getElem? hi, ?_⟩
    simp [Decl.edge, ClassHeader.edge, habove]

theorem hierarchy_eq (hlink : p.link.errors = []) :
    p.link.program.typing.hierarchy = Hierarchy.empty.declareAll (p.decls.flatMap Decl.edge) := by
  have hedges := Environment.atTop_start.edgesAll_link (linkErrorsAll_of_link hlink)
  simp only [Program.typing, Program.link, hedges]

/-- The edges are those that the classes are declared with. -/
theorem declaresClass_of_superclass? (hlink : p.link.errors = []) {sub super : String}
    (hedge : p.link.program.typing.hierarchy.superclass? sub = some super) :
    ∃ i, p.DeclaresClass i sub (some super) := by
  rw [hierarchy_eq hlink] at hedge
  rcases Hierarchy.superclass?_declareAll hedge with hmem | hempty
  · exact mem_edges_iff.mp hmem
  · simp [Hierarchy.superclass?, Hierarchy.empty] at hempty

/-- A class without an edge is declared without superclass. -/
theorem super_eq_none (hlink : p.link.errors = []) {name : String} {super : Option String}
    (hroot : p.link.program.typing.hierarchy.superclass? name = none)
    (hdeclares : p.DeclaresClass i name super) : super = none := by
  cases super with
  | none => rfl
  | some super =>
      have hmem := mem_edges_iff.mpr ⟨i, hdeclares⟩
      have hsome := Hierarchy.superclass?_declareAll_isSome (h := Hierarchy.empty)
        (Or.inr (List.mem_map_of_mem (f := Prod.fst) hmem))
      rw [← hierarchy_eq hlink, hroot] at hsome
      cases hsome

end Program

end ClassLet
