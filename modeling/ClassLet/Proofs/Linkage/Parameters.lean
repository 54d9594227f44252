import ClassLet.Proofs.Linkage.Scopes
import ClassLet.Proofs.Semantics.Evaluation

/-!
# Parameters

The parameters of a frame have different names, each with the place of its position. Binding them
to arguments makes every name refer to the argument in its position and hides nothing else.

Main statements: `find?_paramPlaces` and `referent?_withArguments`.
-/

namespace ClassLet

theorem find?_foldl_insert {places : List (Ident × Binding)} (hdistinct : Distinct places)
    (m : NameMap Binding) (name : String) :
    (places.foldl (fun m place => m.insert place.1.name place.2) m).find? name =
      ((places.find? fun place => place.1.name == name).map Prod.snd).or (m.find? name) := by
  induction places generalizing m with
  | nil => rfl
  | cons place places ih =>
      simp only [Distinct, List.map_cons, List.nodup_cons] at hdistinct
      rw [List.foldl_cons, ih hdistinct.2, List.find?_cons, NameMap.find?_insert]
      by_cases hname : place.1.name = name
      · have hnone : (places.find? fun place => place.1.name == name) = none := by
          rw [List.find?_eq_none]
          intro other hother
          have hne : other.1.name ≠ name := by
            rintro heq
            exact hdistinct.1 (List.mem_map.mpr ⟨other, hother, heq.trans hname.symm⟩)
          simpa using hne
        rw [hnone, if_pos hname.symm]
        simp [hname]
      · have hne : (place.1.name == name) = false := by simpa using hname
        rw [if_neg (Ne.symm hname), hne]

namespace Environment

theorem getElem?_paramPlaces (level : Nat) (params : List Param) (i : Nat) :
    (paramPlaces level params)[i]? = params[i]?.map fun p =>
      (p.id, { level, ty := p.ty.ty, offset := Frame.firstParam + i }) := by
  rw [paramPlaces, List.getElem?_mapIdx]

theorem map_name_paramPlaces (level : Nat) (params : List Param) :
    (paramPlaces level params).map (fun place => place.1.name) = params.map fun p => p.id.name := by
  apply List.ext_getElem?
  intro i
  rw [List.getElem?_map, getElem?_paramPlaces, List.getElem?_map]
  cases params[i]? <;> rfl

/-- What the scope of a frame knows are its parameters. -/
theorem find?_paramPlaces {env : Environment} {params : List Param}
    (hok : env.paramErrors params = []) (name : String) :
    (∃ (i : Nat) (p : Param), params[i]? = some p ∧ p.id.name = name ∧
      (Scope.ofParams (paramPlaces env.frameLevel params)).bindings.find? name =
        some { level := env.frameLevel, ty := p.ty.ty, offset := Frame.firstParam + i }) ∨
    ((∀ p ∈ params, p.id.name ≠ name) ∧
      (Scope.ofParams (paramPlaces env.frameLevel params)).bindings.find? name = none) := by
  have hdistinct := (enter_scopes hok).1
  rw [Scope.ofParams, find?_foldl_insert hdistinct, NameMap.find?_empty]
  cases hfind : (paramPlaces env.frameLevel params).find? fun place => place.1.name == name with
  | some place =>
      have hname : place.1.name = name := by simpa using List.find?_some hfind
      rcases List.getElem?_of_mem (List.mem_of_find?_eq_some hfind) with ⟨i, hi⟩
      rw [getElem?_paramPlaces, Option.map_eq_some_iff] at hi
      rcases hi with ⟨p, hp, rfl⟩
      exact Or.inl ⟨i, p, hp, hname, rfl⟩
  | none =>
      refine Or.inr ⟨?_, rfl⟩
      intro p hp hname
      rcases List.getElem?_of_mem hp with ⟨i, hi⟩
      have hplace := getElem?_paramPlaces env.frameLevel params i
      rw [hi, Option.map_some] at hplace
      have hne := List.find?_eq_none.mp hfind _ (List.mem_of_getElem? hplace)
      exact hne (by simpa using hname)

theorem nodup_params {env : Environment} {params : List Param}
    (hok : env.paramErrors params = []) : (params.map fun p => p.id.name).Nodup := by
  rw [← map_name_paramPlaces env.frameLevel]
  exact (enter_scopes hok).1

end Environment

/-!
# Arguments
-/

namespace Visible

variable {visible : Visible} {name : String}

theorem withArguments_cons (visible : Visible) (p : Param) (params : List Param) (v : Int32)
    (args : List Int32) :
    visible.withArguments (p :: params) (v :: args) =
      .value p.id.name v :: visible.withArguments params args :=
  rfl

theorem withArguments_nil_right (visible : Visible) (params : List Param) :
    visible.withArguments params [] = visible := by
  cases params <;> rfl

theorem referent?_withArguments_of_ne {params : List Param} (args : List Int32)
    (hne : ∀ p ∈ params, p.id.name ≠ name) :
    (visible.withArguments params args).referent? name = visible.referent? name := by
  induction params generalizing args with
  | nil => rfl
  | cons p params ih =>
      cases args with
      | nil => rw [withArguments_nil_right]
      | cons v args =>
          rw [withArguments_cons, referent?, if_neg (hne p List.mem_cons_self)]
          exact ih args fun q hq => hne q (List.mem_cons_of_mem _ hq)

theorem referent?_withArguments {params : List Param} {args : List Int32} {i : Nat} {p : Param}
    {v : Int32} (hnodup : (params.map fun p => p.id.name).Nodup) (hp : params[i]? = some p)
    (hv : args[i]? = some v) :
    (visible.withArguments params args).referent? p.id.name = some (.value v) := by
  induction params generalizing args i with
  | nil => simp at hp
  | cons first params ih =>
      cases args with
      | nil => simp at hv
      | cons w args =>
          rw [withArguments_cons, referent?]
          cases i with
          | zero =>
              simp only [List.getElem?_cons_zero, Option.some.injEq] at hp hv
              rw [if_pos (by rw [hp]), hv]
          | succ i =>
              simp only [List.getElem?_cons_succ] at hp hv
              simp only [List.map_cons, List.nodup_cons] at hnodup
              have hne : first.id.name ≠ p.id.name := fun heq =>
                hnodup.1 (heq ▸ List.mem_map_of_mem (List.mem_of_getElem? hp))
              rw [if_neg hne]
              exact ih hnodup.2 hp hv

/-!
# Arguments hide no classes
-/

theorem class?_withArguments (params : List Param) (args : List Int32) :
    (visible.withArguments params args).class? name = visible.class? name := by
  induction params generalizing args with
  | nil => rfl
  | cons p params ih =>
      cases args with
      | nil => rw [withArguments_nil_right]
      | cons v args => exact ih args

theorem memberNames_withArguments (own : ClassHeader → List Method → List String)
    (params : List Param) (args : List Int32) :
    (visible.withArguments params args).memberNames own name = visible.memberNames own name := by
  induction params generalizing args with
  | nil => rfl
  | cons p params ih =>
      cases args with
      | nil => rw [withArguments_nil_right]
      | cons v args => exact ih args

theorem method?_withArguments (method : String) (params : List Param) (args : List Int32) :
    (visible.withArguments params args).method? method name = visible.method? method name := by
  induction params generalizing args with
  | nil => rfl
  | cons p params ih =>
      cases args with
      | nil => rw [withArguments_nil_right]
      | cons v args => exact ih args

end Visible

end ClassLet
