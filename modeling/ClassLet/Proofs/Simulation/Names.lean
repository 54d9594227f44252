import ClassLet.Proofs.Simulation.Members

/-!
# Names and addresses

The binding of a name gives the number of links to follow and an offset. They lead to the cell of
the entry that the name refers to, or to the object whose member it is.

Main statement: `Frames.finds`.
-/

namespace ClassLet

/-- The base that the code for a binding reaches from the base of the frame. -/
def Access (w : World) (inside : Bool) (level : Nat) (stack : List Int32) (base : Int32)
    (b : Binding) (target : Int32) : Prop :=
  (inside = true ∧ b.level = 0 ∧ target = w.topBase) ∨
    (¬(inside = true ∧ b.level = 0) ∧ Hops w stack (level - b.level) base target)

/-- What stands at the offset of a binding from a base is what the name refers to. -/
inductive Denotes (w : World) (k : Snapshot) (visible : Visible) (stack : List Int32)
    (name : String) (b : Binding) (target : Int32) : Prop where
  | value {v : Int32} :
      visible.referent? name = some (.value v) →
      Held w stack (target + Int32.ofInt b.offset) v →
      Fits w k b.ty v →
      Denotes w k visible stack name b target
  | function {inside : Bool} {env : Environment} {scope : Visible} {header : Header} {body : Body}
      {entry : Nat} {stack' : List Int32} :
      visible.referent? name = some (.function scope header body) →
      b.ty = .arrow header.signature →
      Held w stack (target + Int32.ofInt b.offset) (codeAddress entry) →
      Frames w k inside env scope target stack' →
      stack' <:+ stack →
      BodyReady w inside env header body entry →
      Denotes w k visible stack name b target
  | field {o : Object} {className : String} {table : MemberTable} {i : Nat} {ty : Ty} :
      visible.referent? name = some (.field target name) →
      k.objects.lookup target = some o →
      w.hierarchy.Descends o.className className →
      w.tables.find? className = some table →
      table.member? name = some (.ofField i ty) →
      b = .ofField i ty →
      Denotes w k visible stack name b target
  | method {o : Object} {className : String} {table : MemberTable} {slot : Nat}
      {signature : Signature} :
      visible.referent? name = some (.method target name) →
      k.objects.lookup target = some o →
      w.hierarchy.Descends o.className className →
      w.tables.find? className = some table →
      table.member? name = some (.ofMethod slot signature) →
      b = .ofMethod slot signature →
      Denotes w k visible stack name b target
  | classDef {members : ClassLayout} :
      b.ty = .layout members →
      Denotes w k visible stack name b target

theorem Denotes.extend {w : World} {k : Snapshot} {visible visible' : Visible}
    {stack stack' : List Int32} {name : String} {b : Binding} {target : Int32}
    (h : Denotes w k visible stack name b target)
    (hvisible : visible'.referent? name = visible.referent? name) (hstack : stack <:+ stack') :
    Denotes w k visible' stack' name b target := by
  cases h with
  | value hreferent hheld hfits =>
      exact value (hvisible.trans hreferent) (hheld.mono hstack) hfits
  | function hreferent hty hheld hframes hsuffix hready =>
      exact function (hvisible.trans hreferent) hty (hheld.mono hstack) hframes
        (hsuffix.trans hstack) hready
  | field hreferent ho hdescends htable hmember hb =>
      exact field (hvisible.trans hreferent) ho hdescends htable hmember hb
  | method hreferent ho hdescends htable hmember hb =>
      exact method (hvisible.trans hreferent) ho hdescends htable hmember hb
  | classDef hty => exact classDef hty

theorem Access.mono {w : World} {inside : Bool} {level : Nat} {stack stack' : List Int32}
    {base : Int32} {b : Binding} {target : Int32} (h : Access w inside level stack base b target)
    (hstack : stack <:+ stack') : Access w inside level stack' base b target := by
  rcases h with h | ⟨hnot, hhops⟩
  · exact Or.inl h
  · exact Or.inr ⟨hnot, hhops.mono hstack⟩

/-- The code for a binding reaches what the name refers to. -/
def Found (w : World) (k : Snapshot) (inside : Bool) (level : Nat) (visible : Visible)
    (stack : List Int32) (base : Int32) (name : String) (b : Binding) : Prop :=
  b.level ≤ level ∧ ∃ target, Access w inside level stack base b target ∧
    Denotes w k visible stack name b target

theorem Found.extend {w : World} {k : Snapshot} {inside : Bool} {level : Nat}
    {visible visible' : Visible} {stack stack' : List Int32} {base : Int32} {name : String}
    {b : Binding} (h : Found w k inside level visible stack base name b)
    (hvisible : visible'.referent? name = visible.referent? name) (hstack : stack <:+ stack') :
    Found w k inside level visible' stack' base name b := by
  rcases h with ⟨hle, target, haccess, hdenotes⟩
  exact ⟨hle, target, haccess.mono hstack, hdenotes.extend hvisible hstack⟩

/-- The code for every binding of an environment reaches what its name refers to. -/
def Finds (w : World) (k : Snapshot) (inside : Bool) (env : Environment) (visible : Visible)
    (base : Int32) (stack : List Int32) : Prop :=
  ∀ name b, env.scopes.lookup? name = some b →
    Found w k inside env.scopes.level visible stack base name b

theorem FitsAll.getElem? {w : World} {k : Snapshot} {ts : List Ty} {vs : List Int32}
    (h : FitsAll w k ts vs) {i : Nat} {t : Ty} (ht : ts[i]? = some t) :
    ∃ v, vs[i]? = some v ∧ Fits w k t v := by
  induction h generalizing i with
  | nil => simp at ht
  | cons hfits _ ih =>
      cases i with
      | zero =>
          simp only [List.getElem?_cons_zero, Option.some.injEq] at ht
          exact ⟨_, rfl, ht ▸ hfits⟩
      | succ i => exact ih (by simpa using ht)

/-- The cell of an argument, counted from the base of the frame. -/
theorem Held.argument {w : World} {args : List Int32} {i : Nat} {v : Int32} (hv : args[i]? = some v)
    (ra link fp : Int32) (rest : List Int32) :
    Held w (ra :: link :: (args ++ fp :: rest))
      (stackAddress w.memorySize (args.length + (1 + rest.length)) +
        Int32.ofInt (Frame.firstParam + i)) v := by
  rcases List.getElem?_eq_some_iff.mp hv with ⟨hlt, rfl⟩
  refine ⟨ra :: link :: args.take i, args.drop (i + 1) ++ fp :: rest, ?_, ?_⟩
  · have hsplit : args = args.take i ++ args[i] :: args.drop (i + 1) := by
      rw [← List.drop_eq_getElem_cons hlt, List.take_append_drop]
    have happend := congrArg (fun xs => ra :: link :: (xs ++ fp :: rest)) hsplit
    simpa only [List.append_assoc, List.cons_append] using happend
  · rw [stackAddress, stackAddress, ← Int32.ofInt_add]
    congr 1
    simp only [Frame.firstParam, List.length_append, List.length_drop, List.length_cons]
    omega

namespace Frames

variable {w : World} {k : Snapshot} {inside : Bool} {env : Environment} {visible : Visible}
  {base : Int32} {stack : List Int32}

theorem level_add (h : Frames w k inside env visible base stack) {id : Ident} {ty : Ty}
    (hok : env.addErrors id ty = []) : (env.add id ty).scopes.level = env.scopes.level := by
  rcases List.exists_cons_of_ne_nil h.scopes_ne_nil with ⟨scope, rest, hs⟩
  rw [Environment.level_eq (Environment.add_scopes hs hok).2, Environment.level_eq hs]

/-- The name that a declaration adds is found in the innermost frame. -/
theorem access_here (h : Frames w k inside env visible base stack) {b : Binding}
    (hb : b.level = env.scopes.level) (stack' : List Int32) :
    Access w inside env.scopes.level stack' base b base := by
  refine Or.inr ⟨?_, ?_⟩
  · rintro ⟨hinside, hzero⟩
    have hpos := h.level_pos hinside
    omega
  · rw [hb, Nat.sub_self]
    exact Hops.here base

/-- The cell of an entry that is declared is the next one of the frame. -/
theorem held_declared
    (hplace : base + Int32.ofInt env.scopes.nextOffset = stackAddress w.memorySize stack.length)
    (ty : Ty) (v : Int32) : Held w (v :: stack) (base + Int32.ofInt (env.place ty).offset) v := by
  change Held w (v :: stack) (base + Int32.ofInt env.scopes.nextOffset) v
  rw [hplace]
  exact Held.top w v stack

/-- A declaration puts one entry on top of the stack. The other names are found as before. -/
theorem finds_declared (h : Frames w k inside env visible base stack)
    (ih : Finds w k inside env visible base stack) {env' : Environment} {visible' : Visible}
    {declared : String} {v : Int32} {place : Binding}
    (hlookup : ∀ name, env'.scopes.lookup? name =
      if name = declared then some place else env.scopes.lookup? name)
    (hlevel : env'.scopes.level = env.scopes.level) (hplace : place.level = env.scopes.level)
    (hdeclared : Denotes w k visible' (v :: stack) declared place base)
    (hother : ∀ name, name ≠ declared → visible'.referent? name = visible.referent? name) :
    Finds w k inside env' visible' base (v :: stack) := by
  intro name b hb
  rw [hlookup] at hb
  rw [hlevel]
  by_cases hname : name = declared
  · rw [if_pos hname, Option.some.injEq] at hb
    subst hb hname
    exact ⟨Nat.le_of_eq hplace, base, h.access_here hplace _, hdeclared⟩
  · rw [if_neg hname] at hb
    exact (ih name b hb).extend (hother name hname) (List.suffix_cons v stack)

theorem finds_value (h : Frames w k inside env visible base stack)
    (ih : Finds w k inside env visible base stack) {id : Ident} {ty : Ty} {v : Int32}
    (hok : env.addErrors id ty = [])
    (hplace : base + Int32.ofInt env.scopes.nextOffset = stackAddress w.memorySize stack.length)
    (hfits : Fits w k ty v) :
    Finds w k inside (env.add id ty) (.value id.name v :: visible) base (v :: stack) := by
  rcases List.exists_cons_of_ne_nil h.scopes_ne_nil with ⟨scope, rest, hs⟩
  refine h.finds_declared ih (Environment.lookup?_add hs hok) (h.level_add hok) rfl ?_ ?_
  · refine Denotes.value ?_ (held_declared hplace ty v) hfits
    rw [Visible.referent?, if_pos rfl]
  · intro name hname
    rw [Visible.referent?, if_neg (Ne.symm hname)]

theorem finds_function (h : Frames w k inside env visible base stack)
    (ih : Finds w k inside env visible base stack) {header : Header} {body : Body} {entry : Nat}
    (hok : env.addErrors header.id (.arrow header.signature) = [])
    (hplace : base + Int32.ofInt env.scopes.nextOffset = stackAddress w.memorySize stack.length)
    (hready : BodyReady w inside (env.add header.id (.arrow header.signature)) header body entry) :
    Finds w k inside (env.add header.id (.arrow header.signature))
      (.function header body :: visible) base (codeAddress entry :: stack) := by
  rcases List.exists_cons_of_ne_nil h.scopes_ne_nil with ⟨scope, rest, hs⟩
  refine h.finds_declared ih (Environment.lookup?_add hs hok) (h.level_add hok) rfl ?_ ?_
  · -- A function sees itself, so its frames are the ones that it is added to.
    refine Denotes.function ?_ rfl (held_declared hplace _ _)
      (Frames.function h hok hplace hready) List.suffix_rfl hready
    rw [Visible.referent?, if_pos rfl]
  · intro name hname
    rw [Visible.referent?, if_neg (Ne.symm hname)]

theorem finds_classDef (h : Frames w k false env visible w.topBase stack)
    (ih : Finds w k false env visible w.topBase stack) {header : ClassHeader}
    {methods : List Method} {i : Nat} (hplaced : ClassPlaced w k env header methods i stack) :
    Finds w k false (env.declareClass header methods) (.classDef header methods :: visible)
      w.topBase (heapAddress i :: stack) := by
  rcases hplaced.ready with ⟨labels, hready, _⟩
  rcases hready.scopes with ⟨scope, hs, _, hscopes⟩
  have hlevel : (env.declareClass header methods).scopes.level = env.scopes.level := by
    rw [Environment.level_eq hscopes, Environment.level_eq hs]
  refine h.finds_declared ih hready.lookup? hlevel rfl (Denotes.classDef rfl) ?_
  intro name hname
  rw [Visible.referent?, if_neg (Ne.symm hname)]

/-- Inside a body the parameters hide the names around it, which are one link further away. -/
theorem finds_enter (h : Frames w k inside env visible base stack)
    (ih : Finds w k inside env visible base stack) {rest : List Int32} {params : List Param}
    {args : List Int32} {ra fp : Int32} (hok : env.paramErrors params = [])
    (hargs : FitsAll w k (params.map fun p => p.ty.ty) args) (hstack : stack <:+ rest) :
    Finds w k inside (env.enter params) (visible.withArguments params args)
      (stackAddress w.memorySize (args.length + (1 + rest.length)))
      (ra :: base :: (args ++ fp :: rest)) := by
  intro name b hb
  have hlevel : (env.enter params).scopes.level = env.frameLevel := by
    rw [Environment.level_eq (Environment.enter_scopes hok).2, Environment.frameLevel_eq]
  have hframe : env.frameLevel = env.scopes.level + 1 := by
    have := List.length_pos_iff.mpr h.scopes_ne_nil
    rw [Environment.frameLevel_eq, ScopeStack.level]
    omega
  rw [Environment.lookup?_enter hok] at hb
  rw [hlevel]
  rcases Environment.find?_paramPlaces hok name with ⟨i, p, hp, rfl, hfind⟩ | ⟨hne, hnone⟩
  · rw [hfind, Option.some_or, Option.some.injEq] at hb
    subst hb
    have hty : (params.map fun p => p.ty.ty)[i]? = some p.ty.ty := by
      rw [List.getElem?_map, hp]
      rfl
    rcases hargs.getElem? hty with ⟨v, hv, hfits⟩
    refine ⟨Nat.le_refl _, _, Or.inr ⟨?_, ?_⟩,
      Denotes.value (Visible.referent?_withArguments (Environment.nodup_params hok) hp hv)
        (Held.argument hv _ _ _ _) hfits⟩
    · rintro ⟨_, hzero⟩
      change env.frameLevel = 0 at hzero
      omega
    · rw [Nat.sub_self]
      exact Hops.here _
  · rw [hnone, Option.none_or] at hb
    rcases ih name b hb with ⟨hle, target, haccess, hdenotes⟩
    have hsuffix : stack <:+ ra :: base :: (args ++ fp :: rest) := by
      rcases hstack with ⟨more, rfl⟩
      exact ⟨ra :: base :: (args ++ fp :: more), by simp⟩
    refine ⟨by omega, target, ?_,
      hdenotes.extend (Visible.referent?_withArguments_of_ne args hne) hsuffix⟩
    rcases haccess with haccess | ⟨hnot, hhops⟩
    · exact Or.inl haccess
    · have hlink : Held w (ra :: base :: (args ++ fp :: rest))
          (stackAddress w.memorySize (args.length + (1 + rest.length))) base :=
        ⟨[ra], args ++ fp :: rest, rfl, by simp [Nat.add_comm]⟩
      refine Or.inr ⟨hnot, ?_⟩
      rw [hframe, Nat.sub_add_comm hle]
      exact Hops.next hlink (hhops.mono hsuffix)

section Members

variable {header : ClassHeader} {methods : List Method} {labels : List String} {object : Int32}
  {o : Object} {name : String} {b : Binding}

/-- What a method finds first are the members of its object. -/
theorem found_member (h : Frames w k false (env.declareClass header methods) visible base stack)
    (hready : ClassReady w env header methods labels) (ho : k.objects.lookup object = some o)
    (hdescends : w.hierarchy.Descends o.className header.id.name)
    (hmember : (env.plan header methods).table.member? name = some b) :
    Found w k true 1 (.members header.id.name object :: visible) stack object name b := by
  rcases h.named hready.find?_self with ⟨hnamed, hmethodNames⟩
  have haccess : ∀ {b' : Binding}, b'.level = 1 → Access w true 1 stack object b' object := by
    intro b' hone
    refine Or.inr ⟨fun h => absurd (hone.symm.trans h.2) (by decide), ?_⟩
    rw [hone]
    exact Hops.here object
  rcases hnamed.member_cases hmember with ⟨i, ty, hi, _, rfl⟩ | ⟨s, e, he, hname, rfl⟩
  · refine ⟨Nat.le_refl 1, object, haccess rfl, ?_⟩
    refine Denotes.field ?_ ho hdescends hready.table hmember rfl
    rw [Visible.referent?, if_pos (List.mem_of_getElem? hi)]
  · have hmethod : name ∈ (env.plan header methods).table.methodNames :=
      hname ▸ List.mem_map_of_mem (List.mem_of_getElem? he)
    refine ⟨Nat.le_refl 1, object, haccess rfl, ?_⟩
    refine Denotes.method ?_ ho hdescends hready.table hmember rfl
    rw [Visible.referent?, if_neg (fun hfield => hnamed.not_mem_both hfield hmethod),
      if_pos (hmethodNames ▸ hmethod)]

/-- A name that no member has is one of the outermost scope, which has a base of its own. -/
theorem found_outside
    (h : Frames w k false (env.declareClass header methods) visible w.topBase stack)
    (hready : ClassReady w env header methods labels)
    (hnone : (env.plan header methods).table.member? name = none)
    (hfound : Found w k false (env.declareClass header methods).scopes.level visible stack
      w.topBase name b) :
    Found w k true 1 (.members header.id.name object :: visible) stack object name b := by
  rcases h.named hready.find?_self with ⟨hnamed, hmethodNames⟩
  rcases hnamed.member?_eq_none hnone with ⟨hfield, hmethod⟩
  rcases hready.scopes with ⟨scope, _, _, hscopes⟩
  have houter : (env.declareClass header methods).scopes.level = 0 := Environment.level_eq hscopes
  rcases hfound with ⟨hle, target, haccess, hdenotes⟩
  have hzero : b.level = 0 := by omega
  have htop : target = w.topBase := by
    rcases haccess with ⟨_, _, htop⟩ | ⟨_, hhops⟩
    · exact htop
    · rw [houter, Nat.zero_sub] at hhops
      cases hhops
      rfl
  refine ⟨by omega, target, Or.inl ⟨rfl, hzero, htop⟩, hdenotes.extend ?_ List.suffix_rfl⟩
  rw [Visible.referent?, if_neg hfield, if_neg (hmethodNames ▸ hmethod)]

theorem finds_members
    (h : Frames w k false (env.declareClass header methods) visible w.topBase stack)
    (ih : Finds w k false (env.declareClass header methods) visible w.topBase stack)
    (hready : ClassReady w env header methods labels) (ho : k.objects.lookup object = some o)
    (hdescends : w.hierarchy.Descends o.className header.id.name) :
    Finds w k true (env.methodScope header methods) (.members header.id.name object :: visible)
      object stack := by
  intro name b hb
  have hlevel : (env.methodScope header methods).scopes.level = 1 := by
    rcases hready.scopes with ⟨_, _, _, hscopes⟩
    rw [Environment.level_eq (Environment.methodScope_scopes _ _ _), hscopes]
    rfl
  rw [Environment.methodScope, Environment.lookup?_insideClass] at hb
  rw [hlevel]
  cases hfind : (env.plan header methods).table.member? name with
  | some member =>
      rw [hfind, Option.some_or] at hb
      exact h.found_member hready ho hdescends (hfind.trans hb)
  | none =>
      rw [hfind, Option.none_or] at hb
      exact h.found_outside hready hfind (ih name b hb)

end Members

theorem finds (h : Frames w k inside env visible base stack) :
    Finds w k inside env visible base stack := by
  induction h with
  | start =>
      intro name b hb
      rw [Environment.lookup?_start] at hb
      cases hb
  | value hframes hok hplace hfits ih => exact hframes.finds_value ih hok hplace hfits
  | function hframes hok hplace hready ih => exact hframes.finds_function ih hok hplace hready
  | classDef hframes hplaced ih => exact hframes.finds_classDef ih hplaced
  | enter hframes hok hargs hstack ih => exact hframes.finds_enter ih hok hargs hstack
  | members hframes hready ho hdescends ih => exact hframes.finds_members ih hready ho hdescends

end Frames

end ClassLet
