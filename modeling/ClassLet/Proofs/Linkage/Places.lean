import ClassLet.Proofs.Linkage.ClassDeclaration
import ClassLet.Proofs.Linkage.NestedDeclarations

/-!
# Places of a program without link errors

Wherever linking comes in a program without link errors, it is between two top-level declarations
or inside a body, and every class that is known can be found from there under its name.

Main statements: `Regular.after`, `Regular.enter` and `Regular.insideClass`, the ways from one place
to another.
-/

namespace ClassLet

namespace Environment

/-- The environment of a place in a program without link errors. -/
structure Regular (env : Environment) : Prop where
  place : env.AtTop ∨ env.Nested
  bound : ∀ name table, env.classes.find? name = some table →
    ∃ b, env.scopes.lookupOutermost? name = some b

/-- The methods of a class lie inside of it. -/
theorem nested_insideClass {env : Environment} {header : ClassHeader} {plan : ClassPlan}
    (h : (env.addClass header plan).scopes.scopes ≠ []) : (env.insideClass header plan).Nested := by
  unfold Nested
  rw [(insideClass_scopes env header plan).1, List.length_cons]
  exact Nat.succ_lt_succ (List.length_pos_iff.mpr h)

namespace Regular

variable {env : Environment}

theorem of_atTop (h : env.AtTop) : env.Regular where
  place := Or.inl h
  bound := by
    intro name table hfind
    rcases h.declared name table hfind with ⟨offset, hbound⟩
    exact ⟨_, hbound⟩

theorem start : Environment.start.Regular :=
  of_atTop atTop_start

theorem scopes_ne_nil (h : env.Regular) : env.scopes.scopes ≠ [] := by
  rcases h.place with htop | hnested
  · rcases htop.scopes with ⟨scope, hs⟩
    rw [hs]
    exact List.cons_ne_nil _ _
  · exact hnested.scopes_ne_nil

/-- Where classes may be declared. -/
theorem atTop (h : env.Regular) (hlevel : env.scopes.level = 0) : env.AtTop := by
  rcases h.place with htop | hnested
  · exact htop
  · exact absurd hlevel hnested.level

theorem add (h : env.Regular) {id : Ident} {ty : Ty} (hok : env.addErrors id ty = []) :
    (env.add id ty).Regular where
  place := by
    rcases h.place with htop | hnested
    · exact Or.inl (htop.add hok)
    · exact Or.inr (hnested.add id ty)
  bound := by
    intro name table hfind
    rcases h.bound name table hfind with ⟨b, hb⟩
    rcases List.exists_cons_of_ne_nil h.scopes_ne_nil with ⟨scope, rest, hs⟩
    rcases add_scopes hs hok with ⟨hnew, hscopes⟩
    refine ⟨b, lookupOutermost?_cons hs hscopes ?_ hb⟩
    intro hknown
    rw [Scope.adding, NameMap.find?_insert, if_neg, hknown]
    rintro rfl
    rw [hnew] at hknown
    cases hknown

theorem enter (h : env.Regular) {params : List Param} (hok : env.paramErrors params = []) :
    (env.enter params).Regular where
  place := Or.inr (nested_enter h.scopes_ne_nil params)
  bound := by
    intro name table hfind
    rcases h.bound name table hfind with ⟨b, hb⟩
    refine ⟨b, ?_⟩
    rw [lookupOutermost?_open h.scopes_ne_nil (enter_scopes hok).2]
    exact hb

theorem after (h : env.Regular) {d : Decl} (hok : d.linkErrors env = []) :
    (env.after d).Regular := by
  cases d with
  | var pos id ty init binding =>
      simp only [Decl.linkErrors, List.append_eq_nil_iff] at hok
      exact h.add hok.2
  | function header body binding =>
      simp only [Decl.linkErrors, List.append_eq_nil_iff] at hok
      exact h.add hok.1.1.2
  | classDef header methods =>
      by_cases hlevel : env.scopes.level = 0
      · exact of_atTop ((h.atTop hlevel).after hok)
      · simp [Decl.linkErrors, hlevel] at hok

theorem afterAll (h : env.Regular) (ds : List Decl) (hok : Decl.linkErrorsAll env ds = []) :
    (env.afterAll ds).Regular := by
  induction ds generalizing env with
  | nil => exact h
  | cons d ds ih =>
      simp only [Decl.linkErrorsAll, List.append_eq_nil_iff] at hok
      exact ih (h.after hok.1) hok.2

/-- The place of the methods of a class. -/
theorem insideClass (h : env.AtTop) {header : ClassHeader} {methods : List Method}
    (hok : header.linkErrors env methods = []) :
    (env.insideClass header (env.plan header methods)).Regular := by
  rcases declared_of_linkErrors hok with ⟨inherited, entered, hclass⟩
  have hafter := h.addClass hclass
  rcases hafter.scopes with ⟨scope, hs⟩
  have hscopes := (insideClass_scopes env header (env.plan header methods)).1
  constructor
  · exact Or.inr (nested_insideClass (hs ▸ List.cons_ne_nil _ _))
  · intro name table hfind
    rcases hafter.declared name table hfind with ⟨offset, hbound⟩
    have hne : (env.addClass header (env.plan header methods)).scopes.scopes ≠ [] :=
      hs ▸ List.cons_ne_nil _ _
    exact ⟨_, (lookupOutermost?_open hne hscopes name).trans hbound⟩

end Regular

end Environment

end ClassLet
