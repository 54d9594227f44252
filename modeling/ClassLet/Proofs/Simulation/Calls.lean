import ClassLet.Proofs.Machine.Bodies
import ClassLet.Proofs.Simulation.Constructions

/-!
# Calls

A call leaves the frame pointer, the arguments and a link on the stack and jumps to the routine of
a body. The link of a function is the base of the frame that declares it, the one of a method the
object. Which method is called depends on the class of the object; whatever it is, it takes the
arguments and gives a result of the type that the class known at the call promises.

Main statements: `Follows.call` and `Follows.methodCall`.
-/

namespace ClassLet

variable {w : World} {fuel : Nat} {p : Place}

/-!
# Routines
-/

theorem Decl.length_linkAll (env : Environment) (ds : List Decl) :
    (Decl.linkAll env ds).length = ds.length := by
  induction ds generalizing env with
  | nil => rfl
  | cons d ds ih => simp [Decl.linkAll, ih]

/-- Where the code of a body lies. -/
theorem BodyReady.routine {inside : Bool} {env : Environment} {header : Header} {locals : List Decl}
    {result : Expr} {entry : Nat} (h : BodyReady w inside env header ⟨locals, result⟩ entry) :
    ∃ k known known' label items n exit code,
      Decl.CompiledAll w.im.Holds (w.context inside) k known known'
        (Decl.linkAll (env.enter header.params) locals) items ∧
      (result.link ((env.enter header.params).afterAll locals)).Complete ∧
      code = Code.routine label locals.length header.params.length
        (items ++ (result.link ((env.enter header.params).afterAll locals)).code
          (w.context inside) n) ∧
      CodeAt w.im.listing entry code ∧ w.im.Routine entry exit ∧
      exit + 1 = entry + cellCount code := by
  rcases h.compiled with ⟨k, known, known', label, hcompiled, haddress⟩
  unfold Body.link Body.Compiled at hcompiled
  rcases hcompiled with ⟨items, n, hlocals, hcomplete, entry', exit, hcode, hroutine, hexit⟩
  rw [Decl.length_linkAll] at hcode hexit
  have hentry := hcode.address w.im.coherent
  rw [haddress, Option.some.injEq] at hentry
  subst hentry
  exact ⟨k, known, known', label, items, n, exit, _, hlocals, hcomplete, rfl, hcode, hroutine,
    hexit⟩

/-- The routines of bodies do what evaluation with the given fuel does. The configuration is the
one to come back to, apart from the result. -/
def BodiesFollow (w : World) (fuel : Nat) : Prop :=
  ∀ {inside : Bool} {env : Environment} {visible : Visible} {header : Header} {body : Body}
    {entry back : Nat} {link : Int32} {stack args floor : List Int32} {c : Config} {st : Store},
    BodyReady w inside env header body entry →
    Frames w (c.snapshot st floor) inside env visible link stack →
    stack <:+ c.stack →
    floor <:+ c.stack →
    FitsAll w (c.snapshot st floor) header.signature.params args →
    Matches w none floor c st →
    back ≤ w.im.code.length →
    ¬w.im.Entry back →
    Outcome w.im w.memorySize none fuel
      { c with
        ip := entry
        stack := link :: (args ++ c.fp :: c.stack)
        ra := codeAddress back
        calls := { entry, back, fp := c.fp, rest := c.stack, result := none } :: c.calls }
      (Valued w none floor c st back header.signature.result)
      ((Body.eval fuel (visible.withArguments header.params args) body).run st)

theorem Outcome.enters (hbodies : BodiesFollow w fuel) (c : Config) {inside : Bool}
    {env : Environment}
    {visible : Visible} {header : Header} {body : Body} {entry a : Nat} {link : Int32}
    {stack args floor : List Int32} {st : Store}
    (hcode : CodeAt w.im.listing a [.bare .call]) (hbehind : ¬w.im.Entry (a + 1))
    (hready : BodyReady w inside env header body entry)
    (hframes : Frames w (c.snapshot st floor) inside env visible link stack)
    (hstack : stack <:+ c.stack) (hfloor : floor <:+ c.stack)
    (hargs : FitsAll w (c.snapshot st floor) header.signature.params args)
    (hstate : Matches w none floor c st) :
    Outcome w.im w.memorySize none fuel
      { c with ip := a, stack := codeAddress entry :: link :: (args ++ c.fp :: c.stack) }
      (Valued w none floor c st (a + 1) header.signature.result)
      ((Body.eval fuel (visible.withArguments header.params args) body).run st) := by
  rcases body with ⟨locals, result⟩
  rcases hready.routine with ⟨_, _, _, _, _, _, exit, _, _, _, rfl, hroutineCode, hroutine, hexit⟩
  have hbody := hroutine.body hroutineCode hexit
  have hlength : header.params.length = args.length := by
    rw [← hargs.length_eq, Header.signature, List.length_map]
  rw [hlength] at hbody
  have hback : a + 1 ≤ w.im.code.length := by
    rw [Image.code, w.im.coherent.length_encode]
    exact hcode.le_cellCount
  have henter := @Step.enter w.im w.memorySize
    { c with ip := a, stack := codeAddress entry :: link :: (args ++ c.fp :: c.stack) } entry _ exit
    link args c.stack (hcode.opcode w.im.coherent) hbody rfl
  exact Outcome.step henter (Bound.allows_none _)
    (hbodies hready hframes hstack hfloor hargs hstate hback hbehind)

/-- The items in front of a call put the address of a routine and its link on the arguments. The
type that the call goes by may be less precise than the one of the routine. -/
theorem Outcome.called (hbodies : BodiesFollow w fuel) {c c₂ : Config} {st st₂ : Store}
    {inside : Bool} {env : Environment} {visible : Visible} {header : Header} {body : Body}
    {entry a : Nat} {link : Int32} {stack args floor : List Int32} {find : List Item}
    {signature : Signature} (harrives : Arrives w none floor c st a (args ++ [c.fp]) st₂ c₂)
    (hcode : CodeAt w.im.listing a (find ++ [.bare .call]))
    (hloads : find.getLast? = some (.bare .load))
    (hfind : Executes w.im w.memorySize none find c₂
      { c₂ with stack := codeAddress entry :: link :: c₂.stack, tm := link })
    (hready : BodyReady w inside env header body entry)
    (hframes : Frames w (c₂.snapshot st₂ floor) inside env visible link stack)
    (hstack : stack <:+ c.stack) (hfloor : floor <:+ c.stack)
    (hargs : FitsAll w (c₂.snapshot st₂ floor) signature.params args)
    (hsub : w.hierarchy.isSubtype (.arrow header.signature) (.arrow signature) = true) :
    Outcome w.im w.memorySize none fuel c₂
      (Valued w none floor c st (a + cellCount (find ++ [.bare .call])) signature.result)
      ((Body.eval fuel (visible.withArguments header.params args) body).run st₂) := by
  rw [Hierarchy.isSubtype_arrow, Bool.and_eq_true] at hsub
  obtain rfl := harrives.ip
  have hstack₂ : c₂.stack = args ++ c₂.fp :: c.stack := by
    rw [harrives.stack, harrives.fp, List.append_assoc]
    rfl
  rw [hstack₂] at hfind
  -- The configuration to come back to.
  have hsaved : Arrives w none floor c st _ [] st₂ { c₂ with stack := c.stack, tm := link } :=
    harrives.rearranged rfl rfl rfl rfl rfl rfl rfl
  refine Outcome.executes hcode.left hfind ?_
  refine (Outcome.enters hbodies { c₂ with stack := c.stack, tm := link } hcode.right
    (w.not_entry hcode hloads) hready hframes hstack hfloor (hargs.subtype hsub.2)
    hsaved.state).mono ?_
  rintro v st' c' ⟨harrives', hfits⟩
  refine ⟨(hsaved.trans harrives').moved ?_, hfits.subtype hsub.1⟩
  rw [cellCount_append, ← Nat.add_assoc]
  rfl

/-!
# Methods
-/

theorem Binding.ofField_ne_ofMethod (i : Nat) (ty : Ty) (slot : Nat) (signature : Signature) :
    Binding.ofField i ty ≠ .ofMethod slot signature := by
  intro h
  have hoffset := congrArg Binding.offset h
  simp only [Binding.ofField, Binding.ofMethod] at hoffset
  omega

/-- The method that an object has under a name, and where its routine is found. -/
theorem At.dispatch {c : Config} {st : Store} (hat : At w none p c st) {object : Int32} {o : Object}
    {className name : String} {table : MemberTable} {slot : Nat} {signature : Signature}
    (ho : st.objects.lookup object = some o)
    (hdescends : w.hierarchy.Descends o.className className)
    (htable : w.tables.find? className = some table)
    (hmember : table.member? name = some (.ofMethod slot signature)) :
    ∃ pointer entry env visible stack header body,
      c.Reads w.memorySize object pointer ∧
      c.Reads w.memorySize (pointer + Int32.ofInt slot) (codeAddress entry) ∧
      BodyReady w true env header body entry ∧
      Frames w (c.snapshot st p.floor) true env visible object stack ∧ stack <:+ p.floor ∧
      w.hierarchy.isSubtype (.arrow header.signature) (.arrow signature) = true ∧
      ∀ enter args, (Eval.dispatch enter object name args).run st =
        (enter (visible.withArguments header.params args) body).run st := by
  have hobject : (Eval.object object).run st = .ok o st := Eval.object_ok ho
  have hnull := hat.state.address_ne_null ho
  have hplaced := hat.state.objects _ _ ho
  cases hplaced with
  | @mk i j own ownTable scope stack values hpointer hclass hfits hcells =>
      rcases hclass.frames with ⟨hown, env, hframes, hknown⟩
      rcases w.refines hdescends hown with ⟨table', htable', hrefines⟩
      rw [htable, Option.some.injEq] at htable'
      subst htable'
      rcases w.named htable with ⟨names, hnamed⟩
      rcases hnamed.member_cases hmember with ⟨i', ty, _, _, hsame⟩ | ⟨s, e, he, rfl, hsame⟩
      · exact absurd hsame.symm (Binding.ofField_ne_ofMethod _ _ _ _)
      · obtain ⟨rfl, rfl⟩ : slot = s ∧ signature = e.signature := by
          simp only [Binding.ofMethod, Binding.mk.injEq, Ty.method.injEq, true_and] at hsame
          exact ⟨by omega, hsame.1⟩
        rcases hrefines.method slot e he with ⟨e', he', hname, hsub⟩
        rcases hframes.serves hknown he' with
          ⟨labels, label, found, entry, hlabels, _, hlabel, haddress, hmethod, hserves⟩
        have hcell := hclass.cell hlabels hlabel
        rw [Listing.target_of_address haddress] at hcell
        cases hserves with
        | @mk env' visible' stack' header methods m k entry hframes' hplaced' hentry hbody hbelow =>
            rcases hplaced'.ready with ⟨labels', hready, _⟩
            have hmembers := Frames.members (Frames.classDef hframes' hplaced') hready ho hbelow
            refine ⟨heapAddress j, entry, _, _, _, m.header, m.body, Config.Reads.heap hpointer, ?_,
              hbody, hmembers, hplaced'.floor, ?_, ?_⟩
            · have hslot : heapAddress j + Int32.ofInt slot = heapAddress (j + slot) := by
                rw [heapAddress, heapAddress, ← Int32.ofInt_add, Int.natCast_add]
              rw [hslot]
              exact Config.Reads.heap hcell
            · rw [← hentry] at hsub
              exact hsub
            · intro enter args
              rw [hname] at hmethod
              simp only [Eval.dispatch, hnull, if_false, EStateM.run_bind, hobject, hmethod]

/-!
# Calls by name
-/

/-- The frame pointer is saved below the arguments. -/
theorem FollowsAll.saved {items : List Item} {g : Eval (List Int32)} {tys : List Ty}
    (h : FollowsAll w fuel p id items g tys) {c : Config} {st : Store}
    (hcode : CodeAt w.im.listing c.ip (.bare .pushFp :: items)) (hat : At w none p c st) :
    Outcome w.im w.memorySize none fuel c
      (fun vs st' c' =>
        Arrives w none p.floor c st (c.ip + cellCount (.bare .pushFp :: items)) (vs ++ [c.fp])
          st' c' ∧
        FitsAll w (c'.snapshot st' p.floor) tys vs)
      (g.run st) := by
  refine Outcome.effect hcode Effect.pushFp (Bound.allows_none _) ?_
  have hsaved : Arrives w none p.floor c st (c.ip + 1) [c.fp] st
      { c with ip := c.ip + 1, stack := c.fp :: c.stack } :=
    (Arrives.refl hat.state).rearranged rfl rfl rfl rfl rfl rfl rfl
  refine (h _ st hcode.tail (hat.arrived hsaved)).mono ?_
  rintro vs st' c' ⟨harrives, hfits⟩
  refine ⟨(hsaved.trans harrives).moved ?_, hfits⟩
  rw [cellCount_cons, ← Nat.add_assoc]
  rfl

namespace Follows

theorem call {callee : String} {b : Binding} {signature : Signature} {items : List Item}
    {g : Eval (List Int32)} {cells : Nat} (hbodies : BodiesFollow w fuel)
    (hb : p.env.scopes.lookup? callee = some b) (hsignature : b.ty.signature? = some signature)
    (hargs : FollowsAll w fuel p id items g signature.params) :
    Follows w none fuel p cells
      (.bare .pushFp :: items ++ (Code.base (w.context p.inside)
          { binding := b, useLevel := p.env.scopes.level } ++ (Code.duplicate ++
        ((if b.ty.isMethod then [.bare .load] else []) ++
          (Code.loadAt b.offset ++ [.bare .call])))))
      (do
        let values ← g
        match p.visible.referent? callee with
        | some (.function scope header body) =>
            Body.eval fuel (scope.withArguments header.params values) body
        | some (.method object member) => Eval.dispatch (Body.eval fuel) object member values
        | _ => throw .stuck)
      signature.result := by
  intro c st hcode hat _
  refine Outcome.bind (hargs.saved hcode.left hat) ?_
  rintro vs st₂ c₂ ⟨harrives, hfits⟩
  rcases hat.frames with ⟨stack, hframes, hstack⟩
  have hframes₂ : Frames w (c₂.snapshot st₂ p.floor) p.inside p.env p.visible c₂.fp stack := by
    rw [harrives.fp]
    exact hframes.mono harrives.grows
  have hsuffix : stack <:+ c₂.stack := by
    rw [harrives.stack]
    exact hstack.trans (List.suffix_append _ _)
  rcases hframes₂.finds callee b hb with ⟨_, target, haccess, hdenotes⟩
  have hbase := Executes.base (haccess.mono hsuffix)
  generalize Code.base (w.context p.inside) { binding := b, useLevel := p.env.scopes.level } = base
    at hcode hbase ⊢
  rw [cellCount_append, ← Nat.add_assoc]
  cases hdenotes with
  | @function inside env scope header body entry stack' hreferent hty hheld hframes' hbelow
      hready =>
      rw [hty] at hsignature
      cases hsignature
      rw [hreferent]
      have hitems : base ++ (Code.duplicate ++ ((if b.ty.isMethod then [.bare .load] else []) ++
          (Code.loadAt b.offset ++ [.bare .call]))) =
          (base ++ (Code.duplicate ++ Code.loadAt b.offset)) ++ [.bare .call] := by
        simp [hty, Ty.isMethod]
      rw [hitems] at hcode ⊢
      have hfind := hbase.append (Executes.find b.offset rfl
        ((hheld.reads hsuffix).mono List.prefix_rfl (List.suffix_cons _ _)))
      exact Outcome.called hbodies harrives hcode.right (by simp [Code.loadAt]) hfind hready
        hframes' (hbelow.trans hstack) hat.floor hfits (Hierarchy.isSubtype_refl _ _)
  | @method o className table slot signature hreferent ho hdescends htable hmember hmethod =>
      subst hmethod
      cases hsignature
      rw [hreferent]
      rcases (hat.arrived harrives).dispatch ho hdescends htable hmember with
        ⟨pointer, entry, env, visible, stack', header, body, hpointer, hentry, hready, hframes',
          hbelow, hsub, hdispatch⟩
      rw [hdispatch]
      have hitems : base ++ (Code.duplicate ++
          ((if (Binding.ofMethod slot signature).ty.isMethod then [.bare .load] else []) ++
            (Code.loadAt (Binding.ofMethod slot signature).offset ++ [.bare .call]))) =
          (base ++ (Code.duplicate ++ (.bare .load :: Code.loadAt slot))) ++ [.bare .call] := by
        simp [Binding.ofMethod, Ty.isMethod]
      rw [hitems] at hcode ⊢
      have hfind := hbase.append (Executes.findMethod slot rfl
        (hpointer.mono List.prefix_rfl (List.suffix_cons _ _))
        (hentry.mono List.prefix_rfl (List.suffix_cons _ _)))
      exact Outcome.called hbodies harrives hcode.right (by simp [Code.loadAt]) hfind hready
        hframes' (hbelow.trans hat.floor) hat.floor hfits hsub
  | value hreferent hheld hvalue =>
      rw [hvalue.signature?_eq_none] at hsignature
      cases hsignature
  | field hreferent ho hdescends htable hmember hfield =>
      subst hfield
      rcases (harrives.state.objects _ _ ho).field hdescends htable hmember with ⟨_, _, _, hvalue⟩
      rw [show (Binding.ofField _ _).ty.signature? = none from hvalue.signature?_eq_none]
        at hsignature
      cases hsignature
  | classDef hty =>
      rw [hty] at hsignature
      cases hsignature

theorem methodCall {object method className : String} {b member : Binding} {table : MemberTable}
    {signature : Signature} {items : List Item} {g : Eval (List Int32)} {cells : Nat}
    (hbodies : BodiesFollow w fuel) (hb : p.env.scopes.lookup? object = some b)
    (hty : b.ty = .ref className) (hknown : p.env.classes.find? className = some table)
    (hmember : table.member? method = some member) (hmethod : member.ty = .method signature)
    (hargs : FollowsAll w fuel p id items g signature.params) :
    Follows w none fuel p cells
      (.bare .pushFp :: items ++ (Code.base (w.context p.inside)
          { binding := b, useLevel := p.env.scopes.level } ++ (Code.loadAt b.offset ++
        (Code.duplicate ++ (.bare .load :: (Code.loadAt member.offset ++ [.bare .call]))))))
      (do
        let values ← g
        let receiver ← Eval.readName p.visible object
        Eval.dispatch (Body.eval fuel) receiver method values)
      signature.result := by
  intro c st hcode hat _
  refine Outcome.bind (hargs.saved hcode.left hat) ?_
  rintro vs st₂ c₂ ⟨harrives, hfits⟩
  have hat₂ := hat.arrived harrives
  rcases hat₂.readName hb (by rw [hty]; rfl) (by rw [hty]; exact fun _ h => nomatch h) with
    ⟨target, v, haccess, hread, hreads, hvalue⟩
  have hreceiver : Executes w.im w.memorySize none
      (Code.base (w.context p.inside) { binding := b, useLevel := p.env.scopes.level } ++
        Code.loadAt b.offset) c₂ { c₂ with stack := v :: c₂.stack } :=
    (Executes.base haccess).append
      (Executes.loadAt b.offset rfl (hreads.mono List.prefix_rfl List.suffix_rfl))
  generalize Code.base (w.context p.inside) { binding := b, useLevel := p.env.scopes.level } = base
    at hcode hreceiver ⊢
  rw [cellCount_append, ← Nat.add_assoc]
  have hrun : ((Eval.readName p.visible object) >>= fun receiver =>
      Eval.dispatch (Body.eval fuel) receiver method vs).run st₂ =
        (Eval.dispatch (Body.eval fuel) v method vs).run st₂ := by
    rw [EStateM.run_bind, hread]
  rw [hrun]
  rw [hty] at hvalue
  cases hvalue with
  | nullRef =>
      have hnull : (Eval.dispatch (Body.eval fuel) (-1) method vs).run st₂ =
          .error .nullReceiver st₂ := rfl
      rw [hnull]
      have hcode₂ : CodeAt w.im.listing c₂.ip ((base ++ Code.loadAt b.offset) ++
          (Code.duplicate ++ (.bare .load :: (Code.loadAt member.offset ++ [.bare .call])))) := by
        rw [harrives.ip, List.append_assoc]
        exact hcode.right
      refine Outcome.executes hcode₂.left hreceiver ?_
      refine Outcome.executes hcode₂.right.left (Executes.duplicate rfl) ?_
      exact Outcome.nullReceiver (Leads.here
        ⟨⟨member.offset, hcode₂.right.right⟩, ⟨_, rfl⟩, harrives.state.output⟩)
  | @object _ _ o ho hdescends =>
      rcases hat₂.frames with ⟨stack, hframes, _⟩
      rcases hframes.class_of_find hknown with ⟨scope, _, _, _, _, hclass, _⟩
      have htable := hclass.frames.1
      rcases w.named htable with ⟨names, hnamed⟩
      rcases hnamed.member_cases hmember with ⟨i, ty, _, _, rfl⟩ | ⟨slot, e, _, _, rfl⟩
      · -- No cell has the type of a method, so no object has a field of such a type.
        rcases (harrives.state.objects _ _ ho).field hdescends htable hmember with
          ⟨_, _, _, hcell⟩
        change ty = .method signature at hmethod
        rw [hmethod] at hcell
        cases hcell.signature?_eq_none
      · cases hmethod
        rcases hat₂.dispatch ho hdescends htable hmember with
          ⟨pointer, entry, env, visible, stack', header, body, hpointer, hentry, hready, hframes',
            hbelow, hsub, hdispatch⟩
        rw [hdispatch]
        have hitems : base ++ (Code.loadAt b.offset ++ (Code.duplicate ++ (.bare .load ::
            (Code.loadAt (Binding.ofMethod slot e.signature).offset ++ [.bare .call])))) =
            ((base ++ Code.loadAt b.offset) ++
              (Code.duplicate ++ (.bare .load :: Code.loadAt slot))) ++ [.bare .call] := by
          simp [Binding.ofMethod]
        rw [hitems] at hcode ⊢
        have hfind := hreceiver.append (Executes.findMethod slot rfl
          (hpointer.mono List.prefix_rfl (List.suffix_cons _ _))
          (hentry.mono List.prefix_rfl (List.suffix_cons _ _)))
        exact Outcome.called hbodies harrives hcode.right
          (by simp [Code.duplicate, Code.loadAt]) hfind hready hframes' (hbelow.trans hat.floor)
          hat.floor hfits hsub

end Follows

end ClassLet
