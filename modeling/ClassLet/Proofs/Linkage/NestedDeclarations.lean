import ClassLet.Proofs.Linkage.Scopes
import ClassLet.Typing

/-!
# Declarations inside bodies

Classes are declared at top level only, so the declarations inside a body are variables and
functions, at any depth.

Main statements: `Body.edges_link` and `Method.edgesAll_link`, bodies without link errors add no
superclass edge.
-/

namespace ClassLet

namespace ScopeStack

theorem length_setInnermost (s : ScopeStack) (scope : Scope) (hs : s.scopes ≠ []) :
    (s.setInnermost scope).scopes.length = s.scopes.length := by
  cases h : s.scopes with
  | nil => exact absurd h hs
  | cons first rest => simp [setInnermost, h]

theorem length_declareOrKeep (s : ScopeStack) (id : Ident) (binding : Binding)
    (hs : s.scopes ≠ []) : (s.declareOrKeep id binding).scopes.length = s.scopes.length := by
  unfold declareOrKeep declare
  split
  · rename_i s' h
    split at h
    · cases h
    · cases h
      exact length_setInnermost s _ hs
  · rfl

theorem length_declareEach (s : ScopeStack) (places : List (Ident × Binding))
    (hs : s.scopes ≠ []) : (s.declareEach places).scopes.length = s.scopes.length := by
  induction places generalizing s with
  | nil => rfl
  | cons place places ih =>
      have hlen := length_declareOrKeep s place.1 place.2 hs
      have hne : (s.declareOrKeep place.1 place.2).scopes ≠ [] := by
        rw [← List.length_pos_iff, hlen]
        exact List.length_pos_iff.mpr hs
      exact (ih _ hne).trans hlen

end ScopeStack

namespace Environment

/-- The place of the environment lies inside a body. -/
def Nested (env : Environment) : Prop :=
  1 < env.scopes.scopes.length

theorem Nested.level {env : Environment} (h : env.Nested) : env.scopes.level ≠ 0 := by
  unfold Nested at h
  unfold ScopeStack.level
  omega

theorem Nested.add {env : Environment} (h : env.Nested) (id : Ident) (ty : Ty) :
    (env.add id ty).Nested := by
  have hne : env.scopes.scopes ≠ [] := by
    rintro heq
    simp [Nested, heq] at h
  have htake := ScopeStack.length_setInnermost env.scopes
    { env.scopes.innermost with nextOffset := env.scopes.nextOffset - 1 } hne
  have hne' : env.scopes.takeOffset.scopes ≠ [] := by
    rw [← List.length_pos_iff]
    exact htake ▸ List.length_pos_iff.mpr hne
  unfold Nested
  rw [show (env.add id ty).scopes.scopes.length = env.scopes.takeOffset.scopes.length from
    ScopeStack.length_declareOrKeep _ _ _ hne']
  exact htake ▸ h

theorem Nested.after {env : Environment} (h : env.Nested) (d : Decl) : (env.after d).Nested := by
  cases d with
  | var pos id ty init binding => exact h.add id ty.ty
  | function header body binding => exact h.add header.id _
  | classDef header methods =>
      simp only [Environment.after, h.level, if_false]
      exact h

/-- A frame that is opened at some place lies deeper than the place. -/
theorem nested_enter {env : Environment} (hs : env.scopes.scopes ≠ []) (params : List Param) :
    (env.enter params).Nested := by
  have hlen := ScopeStack.length_declareEach env.scopes.openFresh
    (paramPlaces env.frameLevel params) (List.cons_ne_nil _ _)
  have hopen : env.scopes.openFresh.scopes.length = env.scopes.scopes.length + 1 := rfl
  have hpos := List.length_pos_iff.mpr hs
  unfold Nested
  rw [show (env.enter params).scopes.scopes.length = env.scopes.openFresh.scopes.length from hlen,
    hopen]
  omega

theorem Nested.scopes_ne_nil {env : Environment} (h : env.Nested) : env.scopes.scopes ≠ [] := by
  rintro heq
  simp [Nested, heq] at h

theorem add_scopes_ne_nil (env : Environment) (id : Ident) (ty : Ty) :
    (env.add id ty).scopes.scopes ≠ [] := by
  have htake : env.scopes.takeOffset.scopes ≠ [] := List.cons_ne_nil _ _
  rw [← List.length_pos_iff]
  show 0 < (env.scopes.takeOffset.declareOrKeep id (env.place ty)).scopes.length
  rw [ScopeStack.length_declareOrKeep _ _ _ htake]
  exact List.length_pos_iff.mpr htake

end Environment

/-!
# Edges of bodies
-/

mutual

theorem Decl.edges_link (env : Environment) (henv : env.Nested) :
    ∀ d : Decl, d.linkErrors env = [] → (d.link env).edges = []
  | .var pos id ty init binding, _ => rfl
  | .function header body binding, hok => by
      simp only [Decl.linkErrors, List.append_eq_nil_iff] at hok
      exact Body.edges_link _
        (Environment.nested_enter (env.add_scopes_ne_nil _ _) header.params) body hok.2
  | .classDef header methods, hok => by
      simp [Decl.linkErrors, henv.level] at hok

theorem Body.edges_link (env : Environment) (henv : env.Nested) :
    ∀ b : Body, b.linkErrors env = [] → (b.link env).edges = []
  | ⟨locals, result⟩, hok => by
      simp only [Body.linkErrors, List.append_eq_nil_iff] at hok
      exact Decl.edgesAll_link env henv locals hok.1

theorem Decl.edgesAll_link (env : Environment) (henv : env.Nested) :
    ∀ ds : List Decl, Decl.linkErrorsAll env ds = [] → Decl.edgesAll (Decl.linkAll env ds) = []
  | [], _ => rfl
  | d :: ds, hok => by
      simp only [Decl.linkErrorsAll, List.append_eq_nil_iff] at hok
      simp [Decl.linkAll, Decl.edgesAll, Decl.edges_link env henv d hok.1,
        Decl.edgesAll_link (env.after d) (henv.after d) ds hok.2]

end

theorem Method.edgesAll_link (env : Environment) (henv : env.scopes.scopes ≠ [])
    {methods : List Method} (places : List (Except LinkError Nat))
    (hok : Method.linkErrorsAll env methods = []) :
    Method.edgesAll (Method.linkAll env places methods) = [] := by
  induction methods generalizing places with
  | nil => rfl
  | cons m ms ih =>
      rcases m with ⟨header, body, slot⟩
      simp only [Method.linkErrorsAll, Method.linkErrors, List.append_eq_nil_iff] at hok
      have hbody := Body.edges_link _ (Environment.nested_enter henv header.params) body hok.1.2
      simp only [Method.linkAll, Method.edgesAll, Method.link, Method.edges, hbody,
        ih places.tail hok.2, List.append_nil]

end ClassLet
