import ClassLet.Proofs.Simulation.Declarations

/-!
# Classes and top-level declarations

The code of a class writes the labels of its dispatch table to the heap and leaves the address of
the table in the next cell of the top-level frame. All top-level declarations one after the other
leave one cell each.

Main statements: `ClassReady.of_compiled`, a class without errors is ready for objects, and
`Declaring.topLevel`.
-/

namespace ClassLet

variable {w : World} {fuel : Nat} {p : Place} {c c' : Config} {st : Store}

/-!
# Classes without errors
-/

/-- The methods of a class are linked and checked one by one. -/
theorem Method.checked_of_mem {h : Hierarchy} {env : Environment} (henv : env.scopes.scopes ≠ [])
    {methods : List Method} (places : List (Except LinkError Nat))
    (hok : Method.linkErrorsAll env methods = [])
    (hchecked : ErrorFree (Method.typingFailuresAll h (Method.linkAll env places methods)))
    {m : Method} (hm : m ∈ methods) :
    m.linkErrors env = [] ∧
      ErrorFree ((m.body.link (env.enter m.header.params)).typingFailures h m.header) := by
  induction methods generalizing places with
  | nil => cases hm
  | cons first methods ih =>
      rcases first with ⟨header, body, slot⟩
      simp only [Method.linkErrorsAll, List.append_eq_nil_iff] at hok
      have hbody := hok.1
      simp only [Method.linkErrors, List.append_eq_nil_iff] at hbody
      have hedges := Body.edges_link _ (Environment.nested_enter henv header.params) body hbody.2
      simp only [Method.linkAll, Method.link, Method.typingFailuresAll, Method.typingFailures,
        Method.edges, hedges, Hierarchy.declareAll_nil, Body.typingFailures_link] at hchecked
      rcases ErrorFree.append_iff.mp hchecked with ⟨hfirst, hrest⟩
      rcases List.mem_cons.mp hm with rfl | hm
      · exact ⟨hok.1, hfirst⟩
      · exact ih places.tail hok.2 hrest hm

/-- The edges of a class at top level are those of its header. -/
theorem Environment.AtTop.edges_class {env : Environment} (h : env.AtTop) {header : ClassHeader}
    {methods : List Method} (hok : (Decl.classDef header methods).linkErrors env = []) :
    ((Decl.classDef header methods).link env).edges = header.edge := by
  simp only [Decl.linkErrors, h.level, if_true, List.append_eq_nil_iff] at hok
  have hmethods := Method.edgesAll_link (env.insideClass header (env.plan header methods))
    (List.cons_ne_nil _ _) (env.plan header methods).methodPlaces hok.2
  simp only [Decl.link, h.level, if_true, Decl.edges, hmethods, List.append_nil]
  rfl

theorem ClassHeader.superclass?_edge {header : ClassHeader} {super : Ident} (h : Hierarchy)
    (hsuper : header.super = some super) :
    (h.declareAll header.edge).superclass? header.id.name = some super.name := by
  simp only [ClassHeader.edge, hsuper]
  exact (Hierarchy.superclass?_declare h header.id.name super.name header.id.name).trans
    (if_pos rfl)

theorem ClassReady.of_compiled {env : Environment} {h : Hierarchy} (hsettled : Settled env h)
    {header : ClassHeader} {methods : List Method}
    (hok : (Decl.classDef header methods).linkErrors env = [])
    (hchecked : ErrorFree (((Decl.classDef header methods).link env).typingFailures h))
    (hextends : w.hierarchy.Extends
      (h.declareAll ((Decl.classDef header methods).link env).edges))
    {n : Nat} {known known' : DispatchLabels} {items : List Item} (hknows : KnowsTables known env)
    (hcompiled : ((Decl.classDef header methods).link env).Compiled w.im.Holds (w.context false) n
      known known' items)
    (htable : w.tables.find? header.id.name = some (env.plan header methods).table)
    (hknown : ∀ name labels, known'.find? name = some labels → w.labels.find? name = some labels) :
    ∃ labels, items = .bare .pushHp :: Code.storeLabels labels ∧
      ClassReady w env header methods labels := by
  have hatTop := hsettled.atTop
  have hkeeps := (hknows.after hatTop hok hcompiled).2
  rw [hatTop.edges_class hok] at hextends
  rcases KnowsTables.compiled_class hatTop hok hcompiled with
    ⟨labels, hlength, hmethods, hlabels, hitems⟩
  simp only [Decl.linkErrors, hatTop.level, if_true, List.append_eq_nil_iff] at hok
  rcases declared_of_linkErrors hok.1 with ⟨inherited, entered, hclass⟩
  rcases hatTop.named_inherited hclass.inherits with ⟨names, hnamed⟩
  have hplaced := hclass.methodsPlaced _ (hclass.fieldsPlaced names hnamed).named
  rcases hmethods.slots _ hclass.methodsAllPlaced hplaced.length_places
    (hplaced.differentPlaces hclass.methodsDistinct) with ⟨hown, hothers⟩
  simp only [Decl.link, hatTop.level, if_true, Decl.typingFailures] at hchecked
  have hbodies := (ErrorFree.append_iff.mp hchecked).1
  refine ⟨labels, hitems, ?_⟩
  exact {
    atTop := hatTop
    declared := ⟨inherited, entered, hclass⟩
    table := htable
    edge := fun super hsuper => hextends _ _ (header.superclass?_edge h hsuper)
    labelled := hknown _ _ (by rw [hlabels, NameMap.find?_insert_self])
    length := hlength
    own := by
      intro k m slot hm hslot
      rcases hown k m slot hm hslot with ⟨known₁, known₂, hlabel, hbody⟩
      rcases hbody.entry with ⟨entry, haddress⟩
      rcases Method.checked_of_mem (List.cons_ne_nil _ _) _ hok.2 hbodies
        (List.mem_of_getElem? hm) with ⟨hlinked, hfree⟩
      rcases m with ⟨header', body, slot'⟩
      simp only [Method.linkErrors, List.append_eq_nil_iff] at hlinked
      exact ⟨_, entry, hlabel, haddress, {
        params := hlinked.1
        linked := hlinked.2
        checked := ⟨_, hextends, hfree⟩
        compiled := ⟨_, known₁, known₂, _, hbody, haddress⟩ }⟩
    inherited := by
      intro super above hsuper habove s _ hfree
      have hfind := (hatTop.superLayout hsuper hclass.inherits).1
      rcases hknows.labels hfind with ⟨labels', hlabels'⟩
      have hsame := hknown _ _ (hkeeps _ _ hlabels')
      rw [habove, Option.some.injEq] at hsame
      subst hsame
      rw [hothers s hfree]
      simp [ClassHeader.inheritedLabels, hsuper, hlabels'] }

/-!
# Dispatch tables on the heap
-/

theorem Decl.eval_class (enter : Enter) (visible : Visible) (header : ClassHeader)
    (methods : List Method) (st : Store) :
    ((Decl.classDef header methods).eval enter visible).run st =
      .ok (.classDef header methods :: visible)
        { st with
          next := st.next +
            (Visible.methodNames (.classDef header methods :: visible)
              header.id.name).length } := by
  simp only [Decl.eval, Eval.takeCells, EStateM.run_bind, EStateM.run_modify, EStateM.run_pure]

/-- A dispatch table at the end of the heap. -/
theorem Matches.table {floor floor' : List Int32} (h : Matches w none floor c st)
    {cells : List Int32} (hfloor : floor <:+ floor')
    (hroom : c.hp + cells.length ≤ w.memorySize) (hheap : c'.heap = c.heap ++ cells)
    (hhp : c'.hp = c.hp + cells.length) (houtput : c'.output = c.output) :
    Matches w none floor' c' { st with next := st.next + cells.length } ∧
      (c.snapshot st floor).Grows
        (c'.snapshot { st with next := st.next + cells.length } floor') := by
  have hgrows : (c.snapshot st floor).Grows
      (c'.snapshot { st with next := st.next + cells.length } floor') := by
    refine ⟨?_, fun a o ho => ho, hfloor⟩
    show c.heap <+: c'.heap
    rw [hheap]
    exact List.prefix_append _ _
  refine ⟨?_, hgrows⟩
  constructor
  · rw [hheap, hhp, List.length_append, h.heap]
  · rw [hhp, ← h.next]
  · rw [hhp]
    exact hroom
  · exact houtput.trans h.output
  · exact fun a o ho => (h.objects a o ho).mono hgrows
  · exact fun hnone => absurd rfl hnone

namespace ClassReady

variable {env : Environment} {header : ClassHeader} {methods : List Method} {labels : List String}

theorem nextOffset (h : ClassReady w env header methods labels) :
    (env.declareClass header methods).scopes.nextOffset = env.scopes.nextOffset - 1 := by
  rcases h.scopes with ⟨scope, hs, _, hscopes⟩
  simp [ScopeStack.nextOffset, ScopeStack.innermost, hscopes, hs, Scope.adding]

/-- The labels lie on the heap from where it ended, and their address on top of the stack. -/
theorem placed (h : ClassReady w env header methods labels) {i : Nat} {heap stack : List Int32}
    {objects : List (Int32 × Object)} (hheap : heap.length = i)
    (hplace : w.topBase + Int32.ofInt env.scopes.nextOffset =
      stackAddress w.memorySize stack.length) :
    ClassPlaced w
      { heap := heap ++ labels.map w.im.listing.target, objects, floor := heapAddress i :: stack }
      env header methods i stack where
  ready := by
    refine ⟨labels, h, ?_⟩
    intro s label hlabel
    show (heap ++ _)[i + s]? = _
    rw [← hheap, List.getElem?_append_right (Nat.le_add_right _ _), Nat.add_sub_cancel_left,
      List.getElem?_map, hlabel]
    rfl
  floor := List.suffix_rfl
  place := hplace

end ClassReady

/-- A class. Its cell belongs to the part of the stack that stays from now on. -/
theorem Declaring.declareClass {env : Environment} {visible : Visible} {floor : List Int32}
    (h : Declaring w { inside := false, env, visible, floor } c st) (hbase : c.fp = w.topBase)
    {header : ClassHeader} {methods : List Method} {labels : List String}
    (hready : ClassReady w env header methods labels)
    (hcode : CodeAt w.im.listing c.ip (.bare .pushHp :: Code.storeLabels labels)) (enter : Enter) :
    Outcome w.im w.memorySize none fuel c
      (fun visible' st' c' => Declares w { inside := false, env, visible, floor } c st
        (c.ip + cellCount (.bare .pushHp :: Code.storeLabels labels)) 1
        { inside := false
          env := env.declareClass header methods
          visible := visible'
          floor := heapAddress c.hp :: c.stack } st' c')
      (((Decl.classDef header methods).eval enter visible).run st) := by
  refine Outcome.executes hcode (Straight.table h.state.heap (Nat.le_refl _)).executes ?_
  by_cases hroom : c.hp + labels.length ≤ w.memorySize
  · have hframes := h.frames
    have hplace := h.next
    rw [hbase] at hframes hplace
    have hfloor : floor <:+ heapAddress c.hp :: c.stack := h.floor.trans (List.suffix_cons _ _)
    rcases @Matches.table w c { c with
        ip := c.ip + cellCount (.bare .pushHp :: Code.storeLabels labels)
        stack := heapAddress c.hp :: c.stack
        heap := c.heap ++ labels.map w.im.listing.target
        hp := c.hp + labels.length } st floor _ h.state (labels.map w.im.listing.target) hfloor
      (by rwa [List.length_map]) rfl (by rw [List.length_map]) rfl with ⟨hstate, hgrows⟩
    rw [List.length_map] at hstate hgrows
    have hframes' := Frames.classDef (hframes.mono hgrows) (hready.placed h.state.heap hplace)
    -- As many cells are taken as the class has methods.
    have hcount : (Visible.methodNames (.classDef header methods :: visible)
        header.id.name).length = labels.length := by
      rw [← (hframes'.named hready.find?_self).2, MemberTable.methodNames, List.length_map,
        hready.length]
    rw [Decl.eval_class, hcount]
    refine Outcome.here ?_
    exact {
      declaring := {
        frames := by
          rw [← hbase] at hframes'
          exact hframes'
        next := by
          rw [hready.nextOffset]
          exact stackAddress_next h.next
        floor := List.suffix_rfl
        state := hstate }
      ip := rfl
      stack := ⟨[heapAddress c.hp], rfl, rfl⟩
      fp := rfl
      calls := rfl
      grows := hgrows }
  · refine Outcome.full _ rfl (Leads.here ?_)
    show w.memorySize ≤ c.hp + labels.length + _
    omega

/-!
# Top-level declarations
-/

/-- One of the top-level declarations. -/
theorem Declaring.declareAtTop {h : Hierarchy} {env : Environment} (hsettled : Settled env h)
    {visible : Visible} {floor : List Int32} {d : Decl} (hok : d.linkErrors env = [])
    (hchecked : ErrorFree ((d.link env).typingFailures h))
    (hextends : w.hierarchy.Extends (h.declareAll (d.link env).edges)) {n : Nat}
    {known known' : DispatchLabels} {items : List Item} (hknows : KnowsTables known env)
    (hcompiled : (d.link env).Compiled w.im.Holds (w.context false) n known known' items)
    (htables : ∀ name table, (env.after d).classes.find? name = some table →
      w.tables.find? name = some table)
    (hknown : ∀ name labels, known'.find? name = some labels → w.labels.find? name = some labels)
    (hbase : c.fp = w.topBase) (hcode : CodeAt w.im.listing c.ip items)
    (hdeclaring : Declaring w { inside := false, env, visible, floor } c st) :
    Outcome w.im w.memorySize none fuel c
      (fun visible' st' c' => ∃ floor', Declares w { inside := false, env, visible, floor } c st
        (c.ip + cellCount items) 1
        { inside := false, env := env.after d, visible := visible', floor := floor' } st' c')
      ((d.eval (Body.eval fuel) visible).run st) := by
  have hbelow : w.hierarchy.Extends h := fun x y hxy =>
    hextends x y ((hsettled.after hok hchecked).2 x y hxy)
  cases d with
  | classDef header methods =>
      rcases hsettled.atTop.classDeclared hok with ⟨inherited, entered, hclass⟩
      have htable : w.tables.find? header.id.name = some (env.plan header methods).table :=
        htables _ _ (hsettled.atTop.find?_after_self hclass)
      rcases ClassReady.of_compiled hsettled hok hchecked hextends hknows hcompiled htable hknown
        with ⟨labels, rfl, hready⟩
      simp only [Environment.after, hsettled.atTop.level, if_true]
      exact (hdeclaring.declareClass hbase hready hcode _).mono fun _ _ _ h => ⟨_, h⟩
  | var pos id ty init binding =>
      exact (hdeclaring.declare (bodiesFollow w fuel) hbelow (fun _ _ h => by cases h) hok hchecked
        hcompiled hcode).mono fun _ _ _ h => ⟨_, h⟩
  | function header body binding =>
      exact (hdeclaring.declare (bodiesFollow w fuel) hbelow (fun _ _ h => by cases h) hok hchecked
        hcompiled hcode).mono fun _ _ _ h => ⟨_, h⟩

theorem Declaring.topLevel {ds : List Decl} {h : Hierarchy} {env : Environment}
    (hsettled : Settled env h) {visible : Visible} {floor : List Int32}
    (hok : Decl.linkErrorsAll env ds = [])
    (hchecked : ErrorFree (Decl.typingFailuresAll h (Decl.linkAll env ds)))
    (hextends : w.hierarchy.Extends (h.declareAll (Decl.edgesAll (Decl.linkAll env ds)))) {n : Nat}
    {known known' : DispatchLabels} {items : List Item} (hknows : KnowsTables known env)
    (hcompiled : Decl.CompiledAll w.im.Holds (w.context false) n known known'
      (Decl.linkAll env ds) items)
    (htables : ∀ name table, (env.afterAll ds).classes.find? name = some table →
      w.tables.find? name = some table)
    (hknown : ∀ name labels, known'.find? name = some labels → w.labels.find? name = some labels)
    (hbase : c.fp = w.topBase) (hcode : CodeAt w.im.listing c.ip items)
    (hdeclaring : Declaring w { inside := false, env, visible, floor } c st) :
    Outcome w.im w.memorySize none fuel c
      (fun visible' st' c' => ∃ floor', Declares w { inside := false, env, visible, floor } c st
        (c.ip + cellCount items) ds.length
        { inside := false, env := env.afterAll ds, visible := visible', floor := floor' } st' c')
      ((Decl.evalAll (Body.eval fuel) visible ds).run st) := by
  induction ds generalizing h env visible floor n known items c st with
  | nil =>
      unfold Decl.linkAll Decl.CompiledAll at hcompiled
      rcases hcompiled with ⟨_, rfl⟩
      exact Outcome.here ⟨floor, Declares.refl hdeclaring⟩
  | cons d ds ih =>
      simp only [Decl.linkErrorsAll, List.append_eq_nil_iff] at hok
      rw [Decl.linkAll, Decl.typingFailuresAll] at hchecked
      rcases ErrorFree.append_iff.mp hchecked with ⟨hfirst, hrest⟩
      rw [Decl.linkAll, Decl.edgesAll, Hierarchy.declareAll_append] at hextends
      unfold Decl.linkAll Decl.CompiledAll at hcompiled
      rcases hcompiled with ⟨known₁, xs, ys, rfl, hcompiled₁, hcompiled₂⟩
      have hatTop := hsettled.atTop.after hok.1
      rcases hsettled.after hok.1 hfirst with ⟨hsettled', _⟩
      have hgrows := (hsettled'.afterAll hok.2 hrest).2
      rcases hknows.after hsettled.atTop hok.1 hcompiled₁ with ⟨hknows', _⟩
      have hkeeps := hknows'.afterAll hatTop hok.2 hcompiled₂
      refine Outcome.bind (hdeclaring.declareAtTop hsettled hok.1 hfirst
        (fun x y hxy => hextends x y (hgrows x y hxy)) hknows hcompiled₁
        (fun name table hfind => htables name table (hatTop.find?_afterAll hok.2 hfind))
        (fun name labels hfind => hknown name labels (hkeeps name labels hfind)) hbase
        hcode.left) ?_
      rintro visible' st' c' ⟨floor', hdeclares⟩
      have hcode' : CodeAt w.im.listing c'.ip ys := hdeclares.ip ▸ hcode.right
      refine (ih hsettled' hok.2 hrest hextends hknows' hcompiled₂ htables
        (hdeclares.fp.trans hbase) hcode' hdeclares.declaring).mono ?_
      rintro visible'' st'' c'' ⟨floor'', hdeclares'⟩
      refine ⟨floor'', (hdeclares.trans hdeclares').moved ?_ ?_⟩
      · rw [hdeclares.ip, cellCount_append, Nat.add_assoc]
      · rw [List.length_cons, Nat.add_comm]

end ClassLet
