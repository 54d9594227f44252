import ClassLet.Proofs.Generation.DeclarationCode
import ClassLet.Proofs.Members.Substitution

/-!
# Dispatch tables

The table of a class starts as that of its superclass and gets the label of each method in the slot
of the method. Only classes add a table, and a class at top level has a new name, so a table that is
known stays as it is.

Main statements: `Method.CompiledAll.slots` says what stands in each slot, and
`KnowsTables.afterAll` that no table is replaced.
-/

namespace ClassLet

variable {has : List Item → Prop} {ctx : CodeContext}

/-!
# Numbers of bodies
-/

mutual

/-- Linking changes notes only. -/
theorem Decl.bodyCount_link (env : Environment) : ∀ d : Decl, (d.link env).bodyCount = d.bodyCount
  | .var pos id ty init binding => rfl
  | .function header body binding => congrArg (· + 1) (Body.bodyCount_link _ body)
  | .classDef header methods => by
      unfold Decl.link
      split
      · exact Method.bodyCountAll_link _ _ methods
      · rfl

theorem Body.bodyCount_link (env : Environment) : ∀ b : Body, (b.link env).bodyCount = b.bodyCount
  | ⟨locals, _⟩ => Decl.bodyCountAll_link env locals

theorem Method.bodyCount_link (env : Environment) (place : Option Nat) :
    ∀ m : Method, (m.link env place).bodyCount = m.bodyCount
  | ⟨_, body, _⟩ => congrArg (· + 1) (Body.bodyCount_link _ body)

theorem Decl.bodyCountAll_link (env : Environment) :
    ∀ ds : List Decl, Decl.bodyCountAll (Decl.linkAll env ds) = Decl.bodyCountAll ds
  | [] => rfl
  | d :: ds => congrArg₂ (· + ·) (Decl.bodyCount_link env d) (Decl.bodyCountAll_link _ ds)

theorem Method.bodyCountAll_link (env : Environment) (places : List (Except LinkError Nat)) :
    ∀ ms : List Method, Method.bodyCountAll (Method.linkAll env places ms) = Method.bodyCountAll ms
  | [] => rfl
  | m :: ms =>
      congrArg₂ (· + ·) (Method.bodyCount_link env _ m)
        (Method.bodyCountAll_link env places.tail ms)

end

/-!
# Declarations inside bodies
-/

theorem Header.length_params_link (h : Header) (level : Nat) :
    (h.link level).params.length = h.params.length := by
  simp [Header.link, Environment.paramPlaces]

mutual

/-- A declaration inside a body adds no table. -/
theorem Decl.known_eq (env : Environment) (henv : env.Nested) {n : Nat}
    {known known' : DispatchLabels} {items : List Item} :
    ∀ d : Decl, d.linkErrors env = [] → (d.link env).Compiled has ctx n known known' items →
      known' = known
  | .var pos id ty init binding, _, h => by
      unfold Decl.link Decl.Compiled at h
      exact h.1
  | .function header body binding, hok, h => by
      simp only [Decl.linkErrors, List.append_eq_nil_iff] at hok
      unfold Decl.link Decl.Compiled at h
      rcases h with ⟨_, hbody⟩
      exact Body.known_eq _
        (Environment.nested_enter (env.add_scopes_ne_nil _ _) header.params) body hok.2 hbody
  | .classDef header methods, hok, _ => by
      simp [Decl.linkErrors, henv.level] at hok

theorem Body.known_eq (env : Environment) (henv : env.Nested) {n : Nat}
    {known known' : DispatchLabels} {label : String} {params : Nat} :
    ∀ b : Body, b.linkErrors env = [] → (b.link env).Compiled has ctx n known known' label params →
      known' = known
  | ⟨locals, result⟩, hok, h => by
      simp only [Body.linkErrors, List.append_eq_nil_iff] at hok
      unfold Body.link Body.Compiled at h
      rcases h with ⟨items, n, hlocals, _⟩
      exact Decl.knownAll_eq env henv locals hok.1 hlocals

theorem Decl.knownAll_eq (env : Environment) (henv : env.Nested) {n : Nat}
    {known known' : DispatchLabels} {items : List Item} :
    ∀ ds : List Decl, Decl.linkErrorsAll env ds = [] →
      Decl.CompiledAll has ctx n known known' (Decl.linkAll env ds) items → known' = known
  | [], _, h => by
      unfold Decl.linkAll Decl.CompiledAll at h
      exact h.1
  | d :: ds, hok, h => by
      simp only [Decl.linkErrorsAll, List.append_eq_nil_iff] at hok
      unfold Decl.linkAll Decl.CompiledAll at h
      rcases h with ⟨known₁, xs, ys, _, hfirst, hrest⟩
      have hrest' := Decl.knownAll_eq (env.after d) (henv.after d) ds hok.2 hrest
      exact hrest'.trans (Decl.known_eq env henv d hok.1 hfirst)

end

theorem Method.knownAll_eq (env : Environment) (henv : env.scopes.scopes ≠ [])
    {methods : List Method} (places : List (Except LinkError Nat)) {n : Nat}
    {known known' : DispatchLabels} {labels labels' : List String}
    (hok : Method.linkErrorsAll env methods = [])
    (h : Method.CompiledAll has ctx n known known' labels labels'
      (Method.linkAll env places methods)) : known' = known := by
  induction methods generalizing places n known labels with
  | nil =>
      unfold Method.linkAll Method.CompiledAll at h
      exact h.1
  | cons m ms ih =>
      rcases m with ⟨header, body, slot⟩
      simp only [Method.linkErrorsAll, Method.linkErrors, List.append_eq_nil_iff] at hok
      unfold Method.linkAll Method.CompiledAll at h
      rcases h with ⟨known₁, labels₁, hfirst, hrest⟩
      unfold Method.link Method.Compiled at hfirst
      rcases hfirst with ⟨s, _, _, hbody⟩
      have hknown := Body.known_eq _ (Environment.nested_enter henv header.params) body hok.1.2
        hbody
      exact (ih places.tail hok.2 hrest).trans hknown

/-!
# Slots
-/

theorem fillSlot?_spec {labels labels' : List String} {slot : Nat} {label : String}
    (h : fillSlot? labels slot label = some labels') :
    labels'[slot]? = some label ∧ ∀ s, s ≠ slot → labels'[s]? = labels[s]? := by
  unfold fillSlot? at h
  split at h
  · rename_i hlt
    cases h
    refine ⟨?_, ?_⟩
    · rw [List.getElem?_set_self hlt]
    · intro s hs
      rw [List.getElem?_set_ne (Ne.symm hs)]
  · split at h
    · rename_i heq
      cases h
      refine ⟨?_, ?_⟩
      · rw [heq, List.getElem?_concat_length]
      · intro s hs
        rw [List.getElem?_append]
        split
        · rfl
        · rw [List.getElem?_eq_none (by rw [List.length_singleton]; omega),
            List.getElem?_eq_none (by omega)]
    · cases h

/-- Different members have different places. -/
def DifferentPlaces {ε : Type} (places : List (Except ε Nat)) : Prop :=
  ∀ k k' s : Nat, places[k]? = some (.ok s) → places[k']? = some (.ok s) → k = k'

theorem MethodsPlaced.differentPlaces {table table' : MemberTable} {names : List String}
    {methods : List Method} {places : List (Except LinkError Nat)}
    (h : MethodsPlaced table table' names methods places)
    (hdistinct : (methods.map fun m => m.header.id.name).Nodup) : DifferentPlaces places := by
  intro k k' s hk hk'
  have hmethod : ∀ k : Nat, places[k]? = some (.ok s) → ∃ m, methods[k]? = some m ∧
      table'.dispatch[s]? = some (entryOf m) := by
    intro k hk
    have hlt : k < methods.length := by
      rw [← h.length_places]
      exact (List.getElem?_eq_some_iff.mp hk).1
    have hm : methods[k]? = some methods[k] := List.getElem?_eq_getElem hlt
    exact ⟨_, hm, h.placed k _ s hm hk⟩
  rcases hmethod k hk with ⟨m, hm, hentry⟩
  rcases hmethod k' hk' with ⟨m', hm', hentry'⟩
  have hname : m.header.id.name = m'.header.id.name := by
    rw [hentry, Option.some.injEq] at hentry'
    exact congrArg DispatchEntry.name hentry'
  have hlt : k < (methods.map fun m => m.header.id.name).length := by
    rw [List.length_map]
    exact (List.getElem?_eq_some_iff.mp hm).1
  refine (List.getElem?_inj hlt hdistinct).mp ?_
  rw [List.getElem?_map, List.getElem?_map, hm, hm']
  exact congrArg some hname

/-- The labels of the methods are in their slots, and the other slots have not changed. -/
theorem Method.CompiledAll.slots (env : Environment) {methods : List Method}
    {places : List (Except LinkError Nat)} (hplaced : AllPlaced places)
    (hlength : places.length = methods.length) (hdifferent : DifferentPlaces places)
    {n : Nat} {known known' : DispatchLabels} {labels labels' : List String}
    (h : Method.CompiledAll has ctx n known known' labels labels'
      (Method.linkAll env places methods)) :
    (∀ (k : Nat) (m : Method) (s : Nat), methods[k]? = some m → places[k]? = some (.ok s) →
      ∃ known known', labels'[s]? = some (functionText (n + Method.bodyCountAll (methods.take k))) ∧
        (m.body.link (env.enter m.header.params)).Compiled has ctx
          (n + Method.bodyCountAll (methods.take k) + 1) known known'
          (functionText (n + Method.bodyCountAll (methods.take k))) m.header.params.length) ∧
    ∀ s : Nat, (∀ k : Nat, places[k]? ≠ some (.ok s)) → labels'[s]? = labels[s]? := by
  induction methods generalizing places n known labels with
  | nil =>
      unfold Method.linkAll Method.CompiledAll at h
      rw [h.2]
      refine ⟨?_, fun s _ => rfl⟩
      intro k m s hm
      simp at hm
  | cons m ms ih =>
      cases places with
      | nil => cases hlength
      | cons place places =>
          rcases m with ⟨header, body, slot⟩
          rcases hplaced place List.mem_cons_self with ⟨s₀, rfl⟩
          unfold Method.linkAll Method.CompiledAll at h
          rcases h with ⟨known₁, labels₁, hfirst, hrest⟩
          unfold Method.link Method.Compiled at hfirst
          rcases hfirst with ⟨s₁, hslot, hfill, hbody⟩
          obtain rfl : s₀ = s₁ := Option.some.inj hslot
          rw [Header.length_params_link] at hbody
          rcases fillSlot?_spec hfill with ⟨hself, hother⟩
          rcases ih (fun p hp => hplaced p (List.mem_cons_of_mem _ hp)) (Nat.succ.inj hlength)
            (fun k k' s hk hk' => Nat.succ.inj (hdifferent (k + 1) (k' + 1) s hk hk')) hrest with
            ⟨hmethods, hkeeps⟩
          refine ⟨?_, ?_⟩
          · intro k m s hm hk
            cases k with
            | zero =>
                simp only [List.getElem?_cons_zero, Option.some.injEq, Except.ok.injEq] at hm hk
                subst hm hk
                refine ⟨known, known₁, ?_, hbody⟩
                -- No later method is placed in the slot.
                rw [hkeeps s₀ fun k hk => ?_, hself]
                · rfl
                · exact absurd (hdifferent 0 (k + 1) s₀ rfl hk) (Nat.succ_ne_zero k).symm
            | succ k =>
                rw [Method.bodyCount_link] at hmethods
                rw [List.take_succ_cons, Method.bodyCountAll, ← Nat.add_assoc]
                exact hmethods k m s hm hk
          · intro s hs
            have hne : s ≠ s₀ := fun heq => hs 0 (heq ▸ rfl)
            rw [hkeeps s fun k => hs (k + 1), hother s hne]

/-!
# Known tables
-/

/-- Labels are known for the classes of the environment, and for no others. -/
def KnowsTables (known : DispatchLabels) (env : Environment) : Prop :=
  ∀ name, (known.find? name).isSome = (env.classes.find? name).isSome

namespace KnowsTables

variable {known known' : DispatchLabels} {env : Environment}

theorem start : KnowsTables NameMap.empty Environment.start := by
  intro name
  rw [NameMap.find?_empty]
  rfl

theorem labels (h : KnowsTables known env) {name : String} {table : MemberTable}
    (hfind : env.classes.find? name = some table) : ∃ labels, known.find? name = some labels := by
  rw [← Option.isSome_iff_exists, h name, hfind]
  rfl

/-- What a class at top level makes of the known tables. -/
theorem compiled_class {n : Nat} (henv : env.AtTop) {header : ClassHeader} {methods : List Method}
    (hok : (Decl.classDef header methods).linkErrors env = []) {items : List Item}
    (h : ((Decl.classDef header methods).link env).Compiled has ctx n known known' items) :
    ∃ labels, labels.length = (env.plan header methods).table.dispatch.length ∧
      Method.CompiledAll has { ctx with insideClass := true } n known known
        (header.inheritedLabels known) labels
        (Method.linkAll (env.methodScope header methods) (env.plan header methods).methodPlaces
          methods) ∧
      known' = known.insert header.id.name labels ∧
      items = .bare .pushHp :: Code.storeLabels labels := by
  simp only [Decl.linkErrors, henv.level, if_true, List.append_eq_nil_iff] at hok
  simp only [Decl.link, henv.level, if_true] at h
  unfold Decl.Compiled at h
  rcases h with ⟨layout, known₁, labels, hlayout, hlength, hmethods, hknown, hitems⟩
  have hsame := Method.knownAll_eq _ (List.cons_ne_nil _ _) _ hok.2 hmethods
  subst hsame
  refine ⟨labels, ?_, hmethods, hknown, hitems⟩
  cases hlayout
  rw [hlength, MemberTable.layout, List.length_map]

theorem after (hknows : KnowsTables known env) (henv : env.AtTop) {d : Decl}
    (hok : d.linkErrors env = []) {n : Nat} {items : List Item}
    (h : (d.link env).Compiled has ctx n known known' items) :
    KnowsTables known' (env.after d) ∧
      ∀ name labels, known.find? name = some labels → known'.find? name = some labels := by
  cases d with
  | var pos id ty init binding =>
      unfold Decl.link Decl.Compiled at h
      rcases h with ⟨rfl, _⟩
      exact ⟨hknows, fun _ _ hfind => hfind⟩
  | function header body binding =>
      simp only [Decl.linkErrors, List.append_eq_nil_iff] at hok
      unfold Decl.link Decl.Compiled at h
      rcases h with ⟨_, hbody⟩
      have hsame := Body.known_eq _
        (Environment.nested_enter (env.add_scopes_ne_nil _ _) header.params) body hok.2 hbody
      subst hsame
      exact ⟨hknows, fun _ _ hfind => hfind⟩
  | classDef header methods =>
      rcases compiled_class henv hok h with ⟨labels, _, _, rfl, _⟩
      rcases henv.classDeclared hok with ⟨inherited, entered, hclass⟩
      refine ⟨?_, ?_⟩
      · intro name
        rw [henv.find?_after_classDef hclass, NameMap.find?_insert]
        split
        · rfl
        · exact hknows name
      · intro name labels' hfind
        have hne : name ≠ header.id.name := by
          rintro rfl
          have hnew := hknows header.id.name
          rw [hfind, henv.unknown hclass.name] at hnew
          cases hnew
        rw [NameMap.find?_insert, if_neg hne]
        exact hfind

theorem afterAll (hknows : KnowsTables known env) (henv : env.AtTop) {ds : List Decl}
    (hok : Decl.linkErrorsAll env ds = []) {n : Nat} {items : List Item}
    (h : Decl.CompiledAll has ctx n known known' (Decl.linkAll env ds) items) :
    ∀ name labels, known.find? name = some labels → known'.find? name = some labels := by
  induction ds generalizing env n known items with
  | nil =>
      unfold Decl.linkAll Decl.CompiledAll at h
      rcases h with ⟨rfl, _⟩
      exact fun _ _ hfind => hfind
  | cons d ds ih =>
      simp only [Decl.linkErrorsAll, List.append_eq_nil_iff] at hok
      unfold Decl.linkAll Decl.CompiledAll at h
      rcases h with ⟨known₁, xs, ys, _, hfirst, hrest⟩
      rcases hknows.after henv hok.1 hfirst with ⟨hknows', hkeeps⟩
      have hkeeps' := ih hknows' (henv.after hok.1) hok.2 hrest
      exact fun name labels hfind => hkeeps' name labels (hkeeps name labels hfind)

end KnowsTables

end ClassLet
