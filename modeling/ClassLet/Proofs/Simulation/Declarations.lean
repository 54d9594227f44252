import ClassLet.Proofs.Generation.DispatchTables
import ClassLet.Proofs.Simulation.Expressions

/-!
# Declarations and bodies

A declaration leaves one cell on the stack, where the next place of its frame is: the value of a
variable or the address of the routine of a function. The routine of a body opens a frame, runs
through its declarations, leaves the result in place of the frame and returns to the call.

Main statement: `bodiesFollow`, by induction on the fuel.
-/

namespace ClassLet

/-!
# Between declarations
-/

/-- Between two declarations the stack ends with the cell of the first one. -/
structure Declaring (w : World) (p : Place) (c : Config) (st : Store) : Prop where
  frames : Frames w (c.snapshot st p.floor) p.inside p.env p.visible c.fp c.stack
  next : c.fp + Int32.ofInt p.env.scopes.nextOffset = stackAddress w.memorySize c.stack.length
  floor : p.floor <:+ c.stack
  state : Matches w none p.floor c st

/-- Declarations have been executed and each has left a cell on the stack. -/
structure Declares (w : World) (p : Place) (c : Config) (st : Store) (ip count : Nat) (p' : Place)
    (st' : Store) (c' : Config) : Prop where
  declaring : Declaring w p' c' st'
  ip : c'.ip = ip
  stack : ∃ cells, cells.length = count ∧ c'.stack = cells ++ c.stack
  fp : c'.fp = c.fp
  calls : c'.calls = c.calls
  grows : (c.snapshot st p.floor).Grows (c'.snapshot st' p'.floor)

namespace Declares

variable {w : World} {p p' p'' : Place} {c c' c'' : Config} {st st' st'' : Store}
  {a b count count' : Nat}

theorem refl (h : Declaring w p c st) : Declares w p c st c.ip 0 p st c where
  declaring := h
  ip := rfl
  stack := ⟨[], rfl, rfl⟩
  fp := rfl
  calls := rfl
  grows := Snapshot.Grows.refl _

theorem trans (h : Declares w p c st a count p' st' c')
    (h' : Declares w p' c' st' b count' p'' st'' c'') :
    Declares w p c st b (count + count') p'' st'' c'' where
  declaring := h'.declaring
  ip := h'.ip
  stack := by
    rcases h.stack with ⟨cells, hlength, hstack⟩
    rcases h'.stack with ⟨cells', hlength', hstack'⟩
    refine ⟨cells' ++ cells, ?_, ?_⟩
    · rw [List.length_append, hlength, hlength', Nat.add_comm]
    · rw [hstack', hstack, List.append_assoc]
  fp := h'.fp.trans h.fp
  calls := h'.calls.trans h.calls
  grows := h.grows.trans h'.grows

theorem moved (h : Declares w p c st a count p' st' c') (hab : a = b) {count' : Nat}
    (hcount : count = count') : Declares w p c st b count' p' st' c' :=
  hab ▸ hcount ▸ h

end Declares

/-- The cell of the next declaration lies below that of the last one. -/
theorem stackAddress_next {memorySize n : Nat} {base : Int32} {offset : Int}
    (h : base + Int32.ofInt offset = stackAddress memorySize n) :
    base + Int32.ofInt (offset - 1) = stackAddress memorySize (n + 1) := by
  rw [Int.sub_eq_add_neg, Int32.ofInt_add, ← Int32.add_assoc, h, stackAddress, stackAddress,
    ← Int32.ofInt_add]
  congr 1
  omega

theorem Environment.nextOffset_add {env : Environment} (hne : env.scopes.scopes ≠ []) {id : Ident}
    {ty : Ty} (hok : env.addErrors id ty = []) :
    (env.add id ty).scopes.nextOffset = env.scopes.nextOffset - 1 := by
  rcases List.exists_cons_of_ne_nil hne with ⟨scope, rest, hs⟩
  have hscopes := (Environment.add_scopes hs hok).2
  simp [ScopeStack.nextOffset, ScopeStack.innermost, hscopes, hs, Scope.adding]

/-- Linking changes nothing in a header that is looked at when a body is checked. -/
theorem Body.typingFailures_link (h : Hierarchy) (header : Header) (level : Nat) (b : Body) :
    b.typingFailures h (header.link level) = b.typingFailures h header := by
  rcases b with ⟨locals, result⟩
  rfl

/-- The label of a body has an address. -/
theorem Body.Compiled.entry {w : World} {ctx : CodeContext} {k : Nat}
    {known known' : DispatchLabels} {label : String} {params : Nat} {b : Body}
    (h : b.Compiled w.im.Holds ctx k known known' label params) :
    ∃ entry, w.im.listing.address? label = some entry := by
  rcases b with ⟨locals, result⟩
  unfold Body.Compiled at h
  rcases h with ⟨items, n, _, _, entry, exit, hcode, _, _⟩
  exact ⟨entry, hcode.address w.im.coherent⟩

namespace Declaring

variable {w : World} {fuel : Nat} {p : Place} {c c' : Config} {st st' : Store}

theorem at_place (h : Declaring w p c st) : At w none p c st where
  frames := ⟨c.stack, h.frames, List.suffix_rfl⟩
  floor := h.floor
  state := h.state

/-- The cell of a variable or function has been pushed. -/
theorem add (h : Declaring w p c st) {id : Ident} {ty : Ty} {v : Int32} {a : Nat}
    {visible : Visible} (hok : p.env.addErrors id ty = [])
    (harrives : Arrives w none p.floor c st a [v] st' c')
    (hframes : Frames w (c'.snapshot st' p.floor) p.inside (p.env.add id ty) visible c.fp
      (v :: c.stack)) :
    Declares w p c st a 1 { p with env := p.env.add id ty, visible } st' c' where
  declaring := {
    frames := by
      rw [harrives.fp, harrives.stack]
      exact hframes
    next := by
      show c'.fp + Int32.ofInt (p.env.add id ty).scopes.nextOffset = _
      rw [Environment.nextOffset_add h.frames.scopes_ne_nil hok, harrives.fp, harrives.stack]
      exact stackAddress_next h.next
    floor := by
      rw [harrives.stack]
      exact h.floor.trans (List.suffix_append _ _)
    state := harrives.state }
  ip := harrives.ip
  stack := ⟨[v], rfl, harrives.stack⟩
  fp := harrives.fp
  calls := harrives.calls
  grows := harrives.grows

/-- A variable or a function. -/
theorem declare (hbodies : BodiesFollow w fuel) {k : Hierarchy} (hk : w.hierarchy.Extends k)
    {d : Decl} (hplain : ∀ header methods, d ≠ .classDef header methods)
    (hok : d.linkErrors p.env = []) (hchecked : ErrorFree ((d.link p.env).typingFailures k))
    {n : Nat} {known known' : DispatchLabels} {items : List Item}
    (hcompiled : (d.link p.env).Compiled w.im.Holds (w.context p.inside) n known known' items)
    (hcode : CodeAt w.im.listing c.ip items) (h : Declaring w p c st) :
    Outcome w.im w.memorySize none fuel c
      (fun visible => Declares w p c st (c.ip + cellCount items) 1
        { p with env := p.env.after d, visible })
      ((d.eval (Body.eval fuel) p.visible).run st) := by
  cases d with
  | var pos id ty init binding =>
      simp only [Decl.linkErrors, List.append_eq_nil_iff] at hok
      unfold Decl.link Decl.Compiled at hcompiled
      rcases hcompiled with ⟨_, hcomplete, n, rfl⟩
      rcases Expr.hasType_of_checked hk hok.1.1 hcomplete hchecked with ⟨found, hinit, hbelow⟩
      refine Outcome.bind (Expr.follows hbodies init none found n (Or.inl rfl) hinit c st hcode
        h.at_place (Bound.room_none _ _)) ?_
      rintro v st' c' ⟨harrives, hfits⟩
      have hframes := h.frames.mono harrives.grows
      exact Outcome.here (h.add hok.2 harrives
        (Frames.value hframes hok.2 h.next (hfits.subtype hbelow)))
  | function header body binding =>
      simp only [Decl.linkErrors, List.append_eq_nil_iff] at hok
      rcases hok with ⟨⟨⟨_, hname⟩, hparams⟩, hbody⟩
      unfold Decl.link Decl.Compiled at hcompiled
      rcases hcompiled with ⟨rfl, hroutine⟩
      rw [Header.length_params_link] at hroutine
      rcases hroutine.entry with ⟨entry, haddress⟩
      have hready : BodyReady w p.inside (p.env.add header.id (.arrow header.signature)) header body
          entry := {
        params := hparams
        linked := hbody
        checked := by
          unfold Decl.link Decl.typingFailures at hchecked
          rw [Body.typingFailures_link] at hchecked
          exact ⟨k, hk, hchecked⟩
        compiled := ⟨_, known, known', _, hroutine, haddress⟩ }
      refine Outcome.executes hcode (Executes.pushLabel _ (Bound.allows_none _)) ?_
      rw [Listing.target_of_address haddress]
      have harrives : Arrives w none p.floor c st (c.ip + cellCount [.pushLabel (functionText n)])
          [codeAddress entry] st
          { c with
            ip := c.ip + cellCount [.pushLabel (functionText n)]
            stack := codeAddress entry :: c.stack } :=
        (Arrives.refl h.state).rearranged rfl rfl rfl rfl rfl rfl rfl
      exact Outcome.here (h.add hname harrives (Frames.function h.frames hname h.next hready))
  | classDef header methods => exact absurd rfl (hplain header methods)

/-- The declarations of a body. -/
theorem locals (hbodies : BodiesFollow w fuel) {k : Hierarchy} (hk : w.hierarchy.Extends k)
    {ds : List Decl} (hnested : p.env.Nested) (hok : Decl.linkErrorsAll p.env ds = [])
    (hchecked : ErrorFree (Decl.typingFailuresAll k (Decl.linkAll p.env ds)))
    {n : Nat} {known known' : DispatchLabels} {items : List Item}
    (hcompiled : Decl.CompiledAll w.im.Holds (w.context p.inside) n known known'
      (Decl.linkAll p.env ds) items)
    (hcode : CodeAt w.im.listing c.ip items) (h : Declaring w p c st) :
    Outcome w.im w.memorySize none fuel c
      (fun visible => Declares w p c st (c.ip + cellCount items) ds.length
        { p with env := p.env.afterAll ds, visible })
      ((Decl.evalAll (Body.eval fuel) p.visible ds).run st) := by
  induction ds generalizing p c st n known items with
  | nil =>
      unfold Decl.linkAll Decl.CompiledAll at hcompiled
      rcases hcompiled with ⟨_, rfl⟩
      exact Outcome.here (Declares.refl h)
  | cons d ds ih =>
      simp only [Decl.linkErrorsAll, List.append_eq_nil_iff] at hok
      rw [Decl.linkAll, Decl.typingFailuresAll, Decl.edges_link p.env hnested d hok.1,
        Hierarchy.declareAll_nil] at hchecked
      rcases ErrorFree.append_iff.mp hchecked with ⟨hfirst, hrest⟩
      unfold Decl.linkAll Decl.CompiledAll at hcompiled
      rcases hcompiled with ⟨known₁, xs, ys, rfl, hcompiled₁, hcompiled₂⟩
      have hplain : ∀ header methods, d ≠ .classDef header methods := by
        rintro header methods rfl
        simp [Decl.linkErrors, hnested.level] at hok
      refine Outcome.bind (h.declare hbodies hk hplain hok.1 hfirst hcompiled₁ hcode.left) ?_
      intro visible st' c' hdeclares
      have hcode' : CodeAt w.im.listing c'.ip ys := hdeclares.ip ▸ hcode.right
      refine (ih (hnested.after d) hok.2 hrest hcompiled₂ hcode' hdeclares.declaring).mono ?_
      intro visible' st'' c'' hdeclares'
      refine (hdeclares.trans hdeclares').moved ?_ ?_
      · rw [hdeclares.ip, cellCount_append, Nat.add_assoc]
      · rw [List.length_cons, Nat.add_comm]

end Declaring

/-!
# Bodies
-/

variable {w : World}

/-- A routine has opened its frame. -/
theorem Declaring.entered {inside : Bool} {env : Environment} {visible : Visible} {link : Int32}
    {stack args floor : List Int32} {params : List Param} {c c' : Config} {st : Store} {ra : Int32}
    (hframes : Frames w (c.snapshot st floor) inside env visible link stack)
    (hparams : env.paramErrors params = []) (hstack : stack <:+ c.stack)
    (hfloor : floor <:+ c.stack)
    (hargs : FitsAll w (c.snapshot st floor) (params.map fun p => p.ty.ty) args)
    (hstate : Matches w none floor c st)
    (hstack' : c'.stack = ra :: link :: (args ++ c.fp :: c.stack))
    (hfp : c'.fp = stackAddress w.memorySize (args ++ c.fp :: c.stack).length)
    (hheap : c'.heap = c.heap) (hhp : c'.hp = c.hp) (houtput : c'.output = c.output) :
    Declaring w
      { inside, env := env.enter params, visible := visible.withArguments params args, floor }
      c' st where
  frames := by
    have hsame : c'.snapshot st floor = c.snapshot st floor := by
      unfold Config.snapshot
      rw [hheap]
    have hlength : (args ++ c.fp :: c.stack).length = args.length + (1 + c.stack.length) := by
      rw [List.length_append, List.length_cons, Nat.add_comm c.stack.length]
    rw [hsame, hstack', hfp, hlength]
    exact Frames.enter hframes hparams hargs hstack
  next := by
    have hscopes := (Environment.enter_scopes hparams).2
    have hoffset : (env.enter params).scopes.nextOffset = -2 := by
      simp [ScopeStack.nextOffset, ScopeStack.innermost, hscopes, Scope.ofParams, Frame.firstLocal]
    rw [hoffset, hfp, hstack', List.length_cons, List.length_cons]
    generalize (args ++ c.fp :: c.stack).length = n
    have hbase : stackAddress w.memorySize n + Int32.ofInt 0 = stackAddress w.memorySize n :=
      Int32.add_zero _
    have hlink := stackAddress_next hbase
    have hra := stackAddress_next hlink
    exact hra
  floor := by
    rw [hstack']
    have hsuffix : c.stack <:+ ra :: link :: (args ++ c.fp :: c.stack) :=
      ⟨ra :: link :: (args ++ [c.fp]), by simp⟩
    exact hfloor.trans hsuffix
  state := hstate.same hheap hhp houtput

/-- Behind the result of a body the frame is taken off the stack and the machine returns. -/
theorem Outcome.leaves (call : Call) {fuel : Nat} {link v : Int32} {cells args floor : List Int32}
    {ty : Ty} {c c' : Config} {st st' : Store}
    (hcode : CodeAt w.im.listing c'.ip (Code.epilogue cells.length args.length))
    (hbody : w.im.Body args.length call.entry c'.ip
      (c'.ip + cellCount (Code.dropFrame cells.length args.length)))
    (hcalls : c'.calls = { call with fp := c.fp, rest := c.stack, result := none } :: c.calls)
    (hback : call.back ≤ w.im.code.length) (hbehind : ¬w.im.Entry call.back)
    (hstack : c'.stack =
      v :: (cells ++ codeAddress call.back :: link :: (args ++ c.fp :: c.stack)))
    (hstate : Matches w none floor c' st')
    (hgrows : (c.snapshot st floor).Grows (c'.snapshot st' floor))
    (hfits : Fits w (c'.snapshot st' floor) ty v) :
    Outcome w.im w.memorySize none fuel c' (Valued w none floor c st call.back ty) (.ok v st') := by
  refine Outcome.step (Step.finish (hcode.opcode w.im.coherent) hcalls hbody hstack)
    (Bound.allows_none _) ?_
  refine Outcome.executes hcode.left.tail (Executes.dropFrame rfl) ?_
  have hleave := @Step.leave w.im w.memorySize
    { c' with
      ip := c'.ip + cellCount (Code.dropFrame cells.length args.length)
      stack := codeAddress call.back :: v :: c.stack
      fp := c.fp
      ra := codeAddress call.back
      tm := v
      calls := { call with fp := c.fp, rest := c.stack, result := some v } :: c.calls } args.length
    c'.ip _ c.calls (hcode.right.opcode w.im.coherent) rfl hbody rfl rfl rfl hback hbehind
  have hexit : c'.ip + 1 + cellCount (Code.dropFrame cells.length args.length).tail =
      c'.ip + cellCount (Code.dropFrame cells.length args.length) :=
    Nat.add_assoc _ 1 _
  rw [← hexit] at hleave
  refine Outcome.step hleave (Bound.allows_none _) (Outcome.here ⟨?_, hfits⟩)
  exact {
    ip := rfl
    stack := rfl
    fp := rfl
    calls := rfl
    state := hstate.same rfl rfl rfl
    grows := hgrows }

/-- The first instructions of a routine save the return address above the new base. -/
theorem CodeAt.opens {im : Image} {memorySize : Nat} {c : Config} {link : Int32}
    {below : List Int32} {rest : List Item}
    (hcode : CodeAt im.listing c.ip (.bare .setFp :: .bare .pushRa :: rest))
    (hstack : c.stack = link :: below) :
    Steps im memorySize none 2 c
      { c with
        ip := c.ip + 1 + 1
        stack := c.ra :: c.stack
        fp := stackAddress memorySize below.length } := by
  have hsetFp : Step im memorySize c
      { c with ip := c.ip + 1, fp := stackAddress memorySize below.length } :=
    Step.effect (hcode.opcode im.coherent) (Effect.setFp hstack)
  have hsecond : im.code[c.ip + 1]? = some Opcode.pushRa.cell := hcode.tail.opcode im.coherent
  have hpushRa : Step im memorySize
      { c with ip := c.ip + 1, fp := stackAddress memorySize below.length }
      { c with
        ip := c.ip + 1 + 1
        stack := c.ra :: c.stack
        fp := stackAddress memorySize below.length } :=
    Step.effect hsecond Effect.pushRa
  exact Steps.step hsetFp (Bound.allows_none _)
    (Steps.step hpushRa (Bound.allows_none _) (Steps.refl _))

/-- With one more call inside each other, a routine opens its frame, follows the declarations and
the result of its body, and returns. -/
theorem BodiesFollow.succ {fuel : Nat} (hbodies : BodiesFollow w fuel) :
    BodiesFollow w (fuel + 1) := by
  intro inside env visible header body entry back link stack args floor c st hready hframes hstack
    hfloor hargs hstate hback hbehind
  rcases body with ⟨locals, result⟩
  rcases hready.routine with ⟨_, known, known', label, items, n, exit, code, hcompiled, hcomplete,
    hshape, hcode, hroutine, hexit⟩
  rcases hready.checked with ⟨k, hk, hchecked⟩
  have hlinked := hready.linked
  simp only [Body.linkErrors, List.append_eq_nil_iff] at hlinked
  have hnested : (env.enter header.params).Nested :=
    Environment.nested_enter hframes.scopes_ne_nil header.params
  unfold Body.link Body.typingFailures at hchecked
  rw [Decl.edgesAll_link _ hnested locals hlinked.1, Hierarchy.declareAll_nil] at hchecked
  rcases ErrorFree.append_iff.mp hchecked with ⟨hlocals, hresult⟩
  rcases Expr.hasType_of_checked hk hlinked.2 hcomplete hresult with ⟨found, htyped, hbelow⟩
  have hlength : args.length = header.params.length := by
    rw [← hargs.length_eq, Header.signature, List.length_map]
  subst hshape
  have hbegin : CodeAt w.im.listing entry (.bare .setFp :: .bare .pushRa :: _) := hcode.tail
  have hinner : CodeAt w.im.listing (entry + 1 + 1) (_ ++ Code.epilogue _ _) := hbegin.tail.tail
  have hopened := @CodeAt.opens w.im w.memorySize
    { c with
      ip := entry
      stack := link :: (args ++ c.fp :: c.stack)
      ra := codeAddress back
      calls := { entry, back, fp := c.fp, rest := c.stack, result := none } :: c.calls }
    _ _ _ hbegin rfl
  have hentered : Declaring w
      { inside, env := env.enter header.params
        visible := visible.withArguments header.params args, floor }
      { c with
        ip := entry + 1 + 1
        stack := codeAddress back :: link :: (args ++ c.fp :: c.stack)
        fp := stackAddress w.memorySize (args ++ c.fp :: c.stack).length
        ra := codeAddress back
        calls := { entry, back, fp := c.fp, rest := c.stack, result := none } :: c.calls } st :=
    Declaring.entered hframes hready.params hstack hfloor hargs hstate rfl rfl rfl rfl rfl
  refine (Outcome.after hopened (Outcome.bind (hentered.locals hbodies hk hnested hlinked.1 hlocals
    hcompiled hinner.left.left) ?_)).lower (Nat.add_comm 2 fuel ▸ Nat.le_succ _)
  -- The result is evaluated, and the frame is taken off.
  intro visible' st₁ c₁ hdeclares
  have hcode₁ : CodeAt w.im.listing c₁.ip _ := hdeclares.ip ▸ hinner.left.right
  refine (Expr.follows hbodies result none found n (Or.inl rfl) htyped c₁ st₁ hcode₁
    hdeclares.declaring.at_place (Bound.room_none _ _)).andThen ?_
  rintro v st₂ c₂ ⟨harrives, hfits⟩
  rcases hdeclares.stack with ⟨cells, hcells, hstack₁⟩
  have hip : c₂.ip = entry + 1 + 1 + cellCount (items ++
      (result.link ((env.enter header.params).afterAll locals)).code (w.context inside) n) := by
    rw [harrives.ip, hdeclares.ip, Nat.add_assoc, ← cellCount_append]
  have hcode₂ : CodeAt w.im.listing c₂.ip (Code.epilogue cells.length args.length) := by
    rw [hcells, hlength, hip]
    exact hinner.right
  have hbody : w.im.Body args.length entry c₂.ip
      (c₂.ip + cellCount (Code.dropFrame cells.length args.length)) := by
    have hplaced := hroutine.body hcode hexit
    rw [hcells, hlength, hip]
    convert hplaced using 1
    rw [Code.cellCount_routine] at hexit
    omega
  have hcalls : c₂.calls =
      { entry, back, fp := c.fp, rest := c.stack, result := none } :: c.calls := by
    rw [harrives.calls, hdeclares.calls]
  have hstack₂ : c₂.stack =
      v :: (cells ++ codeAddress back :: link :: (args ++ c.fp :: c.stack)) := by
    rw [harrives.stack, hstack₁]
    rfl
  exact Outcome.leaves { entry, back } hcode₂ hbody hcalls hback hbehind hstack₂ harrives.state
    (hdeclares.grows.trans harrives.grows) (hfits.subtype hbelow)

/-- The routines of bodies do what evaluation does, however deep the calls. -/
theorem bodiesFollow (w : World) (fuel : Nat) : BodiesFollow w fuel := by
  induction fuel with
  | zero =>
      intro inside env visible header body entry back link stack args floor c st _ _ _ _ _ _ _ _
      exact Outcome.outOfFuel (Leads.here trivial)
  | succ fuel ih => exact ih.succ

end ClassLet
