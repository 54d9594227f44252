import ClassLet.Proofs.Machine.Bodies
import ClassLet.Proofs.Simulation.Traces

/-!
# Safety of compiled programs

However long the code of a program runs, as long as heap and stack are apart it never jumps where it
should not: a `js` either enters a routine or leaves the one that was entered last, from its last
instruction and to the cell behind the call. The run can only fail by a division by zero or at a
method call on `null`, and if it halts, the value on top of the stack is one of the type of the
program.

Main statement: `Program.safe_run`.
-/

namespace ClassLet

/-!
# Calls under way
-/

namespace Machine

/-- The given number of instructions leads from one machine to the other and leaves these calls
unfinished, the innermost first. -/
inductive Calls (im : Image) (m : Machine) : Nat → Machine → List Call → Prop where
  | start : Calls im m 0 m []
  | other {n : Nat} {m' m'' : Machine} {calls : List Call} :
      Calls im m n m' calls →
      m'.code[m'.ip]? ≠ some Opcode.call.cell →
      Exec.step.run m' = .ok .running m'' →
      Calls im m (n + 1) m'' calls
  | enter {n exit : Nat} {m' m'' : Machine} {calls : List Call} :
      Calls im m n m' calls →
      m'.code[m'.ip]? = some Opcode.call.cell →
      Exec.step.run m' = .ok .running m'' →
      im.Routine m''.ip exit →
      Calls im m (n + 1) m'' ({ entry := m''.ip, back := m'.ip + 1 } :: calls)
  | leave {n : Nat} {m' m'' : Machine} {call : Call} {calls : List Call} :
      Calls im m n m' (call :: calls) →
      m'.code[m'.ip]? = some Opcode.call.cell →
      Exec.step.run m' = .ok .running m'' →
      im.Routine call.entry m'.ip →
      m''.ip = call.back →
      Calls im m (n + 1) m'' calls

end Machine

/-- The calls of a configuration, without what is behind them. -/
def Config.underWay (c : Config) : List Call :=
  c.calls.map Activation.toCall

namespace Represents

variable {im : Image} [im.Addressable] {memorySize : Nat} {c c' : Config} {m m' : Machine}
  {n : Nat}

/-- The next step, with the calls behind it. -/
theorem nextCalls (h : Represents im memorySize c m') (hcalls : m.Calls im n m' c.underWay)
    (hapart : m'.Apart) (hstep : Step im memorySize c c') :
    ∃ m'', Exec.step.run m' = .ok .running m'' ∧ m.Calls im (n + 1) m'' c'.underWay := by
  rcases h.next hapart hstep with ⟨m'', hrun, _⟩
  have hopcode : ∀ {op : Opcode}, im.code[c.ip]? = some op.cell →
      m'.code[m'.ip]? = some op.cell := fun hop => (h.fetch 0).trans hop
  have hother : ∀ {op : Opcode}, im.code[c.ip]? = some op.cell → op ≠ .call →
      m'.code[m'.ip]? ≠ some Opcode.call.cell := by
    intro op hop hne hcall
    rw [hopcode hop, Option.some.injEq] at hcall
    exact hne (Opcode.cell_inj hcall)
  -- A call takes its target off the stack, so what is behind it fits into the memory.
  have hjumped : c'.heap.length + c'.stack.length ≤ memorySize → m''.ip = c'.ip := by
    intro hfits
    rcases h.step hstep (toInt_step hstep) hfits with ⟨m₂, hrun₂, h₂⟩
    rw [hrun] at hrun₂
    cases hrun₂
    exact h₂.ip
  have hle := h.fits
  refine ⟨m'', hrun, ?_⟩
  cases hstep with
  | effect hop heffect =>
      rcases heffect.calls with ⟨hsame, hne⟩
      show m.Calls im (n + 1) m'' (_ : Config).underWay
      rw [Config.underWay, hsame]
      exact Machine.Calls.other hcalls (hother hop hne) hrun
  | push hop => exact Machine.Calls.other hcalls (hother hop (by simp)) hrun
  | jump hop => exact Machine.Calls.other hcalls (hother hop (by simp)) hrun
  | taken hop htest =>
      refine Machine.Calls.other hcalls (hother hop ?_) hrun
      rintro rfl
      cases htest
  | passed hop htest =>
      refine Machine.Calls.other hcalls (hother hop ?_) hrun
      rintro rfl
      cases htest
  | @enter entry finish exit link args rest hop hbody hstack =>
      have hip : m''.ip = entry := hjumped (by
        simp only [hstack, List.length_cons] at hle ⊢
        omega)
      have hentered := Machine.Calls.enter hcalls (hopcode hop) hrun (hip ▸ hbody.routine)
      rw [hip, h.ip] at hentered
      exact hentered
  | finish hop hunder =>
      rw [Config.underWay, hunder] at hcalls
      exact Machine.Calls.other hcalls (hother hop (by simp)) hrun
  | @leave params finish activation calls hop hunder hbody hstack =>
      have hip : m''.ip = activation.back := hjumped (by
        simp only [hstack, List.length_cons] at hle ⊢
        omega)
      rw [Config.underWay, hunder] at hcalls
      exact Machine.Calls.leave hcalls (hopcode hop) hrun (h.ip ▸ hbody.routine) hip

/-- The calls behind a state of a run. -/
theorem calls_of_steps {start : Config} (h : Represents im memorySize start m)
    (hcalls : start.underWay = []) (hsteps : Steps im memorySize none n start c)
    (hreaches : m.Reaches n m') (hapart : ∀ j m'', j ≤ n → m.Reaches j m'' → m''.Apart) :
    m.Calls im n m' c.underWay := by
  induction n generalizing c m' with
  | zero =>
      cases hsteps
      cases hreaches
      exact hcalls ▸ Machine.Calls.start
  | succ n ih =>
      rcases hsteps.last with ⟨c₁, hbefore, hstep⟩
      rcases hreaches.split with ⟨m₁, hreaches₁, hlast⟩
      have hapart₁ : ∀ j m'', j ≤ n → m.Reaches j m'' → m''.Apart := fun j m'' hj =>
        hapart j m'' (Nat.le_succ_of_le hj)
      have h₁ := h.followed hbefore hreaches₁ hapart₁
      rcases h₁.nextCalls (ih hbefore hreaches₁ hapart₁) (hapart₁ n m₁ (Nat.le_refl n) hreaches₁)
        hstep with ⟨m₂, hrun, hcalls'⟩
      cases hlast with
      | step hrun' hnone =>
          cases hnone
          rw [hrun] at hrun'
          cases hrun'
          exact hcalls'

end Represents

/-!
# Values of a type
-/

/-- After a run that ends with the store, the cell is a value of the type. -/
def Store.Holds (st : Store) (h : Hierarchy) : Ty → Int32 → Prop
  | .int, _ => True
  | .bool, v => v = 0 ∨ v = 1
  | .null, v => v = -1
  | .ref name, v =>
      v = -1 ∨ ∃ o, st.objects.lookup v = some o ∧ h.isSubtype (.ref o.className) (.ref name) = true
  | _, _ => False

theorem Fits.holds {w : World} {c : Config} {st : Store} {floor : List Int32} {ty : Ty} {v : Int32}
    (h : Fits w (c.snapshot st floor) ty v) : st.Holds w.hierarchy ty v := by
  cases h with
  | int => trivial
  | bool hv => exact hv
  | null => rfl
  | nullRef => exact Or.inl rfl
  | object ho hdescends =>
      refine Or.inr ⟨_, ho, ?_⟩
      rw [Hierarchy.isSubtype, Hierarchy.compare_plain _ _ _ rfl]
      exact (Hierarchy.isBelow_ref _ _ _).mpr hdescends

/-!
# How a run goes on
-/

namespace Program

theorem bodyType_compile (p : Program) (memorySize : Int32) :
    (p.compile memorySize).bodyType = p.link.program.typing.bodyType := by
  simp only [compile]
  split
  · split <;> rfl
  · rfl

/-- What the next step from a machine can be, after a number of steps from the start. -/
inductive GoesOn (p : Program) (ty : Ty) (im : Image) (m : Machine) (n : Nat) (m' : Machine) :
    Prop where
  | running {m'' : Machine} {calls : List Call} :
      Exec.step.run m' = .ok .running m'' →
      m.Calls im (n + 1) m'' calls →
      GoesOn p ty im m n m'
  | halting {m'' : Machine} {fuel : Nat} {v : Int32} {st : Store} :
      Exec.step.run m' = .ok .halted m'' →
      m''.memory.read? m''.sp = some v →
      p.eval fuel = .ok v st →
      st.Holds p.link.program.typing.hierarchy ty v →
      GoesOn p ty im m n m'
  | dividingByZero {m'' : Machine} {fuel : Nat} {st : Store} :
      CodeAt im.listing m'.ip [.bare .div] →
      Exec.step.run m' = .error (.divisionByZero m'.ip) m'' →
      p.eval fuel = .error .divisionByZero st →
      GoesOn p ty im m n m'
  | callingNull {m'' : Machine} {fuel : Nat} {offset : Int} {st : Store} :
      CodeAt im.listing m'.ip (.bare .load :: (Code.loadAt offset ++ [.bare .call])) →
      Exec.step.run m' = .error (.memoryOutOfRange (-1) m'.ip) m'' →
      p.eval fuel = .error .nullReceiver st →
      GoesOn p ty im m n m'

theorem GoesOn.of_ending {p : Program} {w : World} {ty : Ty} {c : Config} {m m' : Machine} {n : Nat}
    (h : Represents w.im w.memorySize c m')
    (hhierarchy : w.hierarchy = p.link.program.typing.hierarchy) (hending : p.Ending w ty c) :
    GoesOn p ty w.im m n m' := by
  cases hending with
  | halting hr hhalting =>
      rcases hhalting.stack with ⟨rest, hstack⟩
      rcases hhalting.fits with ⟨_, _, hfits⟩
      exact GoesOn.halting (h.halts (hhalting.code.opcode w.im.coherent)) (h.read_top hstack) hr
        (hhierarchy ▸ hfits.holds)
  | dividingByZero hr hdivides =>
      rcases hdivides.stack with ⟨left, rest, hstack⟩
      rcases h.divides (hdivides.code.opcode w.im.coherent) hstack with ⟨sp, htrap⟩
      exact GoesOn.dividingByZero (h.ip ▸ hdivides.code) htrap hr
  | callingNull hr hnull =>
      rcases hnull.stack with ⟨rest, hstack⟩
      rcases hnull.code with ⟨offset, hcode⟩
      rcases h.loads_null (hcode.opcode w.im.coherent) hstack with ⟨sp, htrap⟩
      exact GoesOn.callingNull (h.ip ▸ hcode) htrap hr

theorem Loaded.goesOn {p : Program} {t : Target} {b : Build} {w : World} {m m' : Machine} {ty : Ty}
    (h : Loaded p t b w m ty) {n : Nat} (hreaches : m.Reaches n m')
    (hapart : ∀ j m'', j ≤ n → m.Reaches j m'' → m''.Apart) :
    ∃ calls, m.Calls w.im n m' calls ∧ GoesOn p ty w.im m n m' := by
  rcases h.trace hreaches hapart with ⟨c, hsteps, h', hnext⟩
  have hcalls := h.start.calls_of_steps rfl hsteps hreaches hapart
  rcases hnext with ⟨c', hstep⟩ | hending
  · rcases h'.nextCalls hcalls (hapart n m' (Nat.le_refl n) hreaches) hstep with
      ⟨m'', hrun, hcalls'⟩
    exact ⟨_, hcalls, GoesOn.running hrun hcalls'⟩
  · exact ⟨_, hcalls, GoesOn.of_ending h' h.hierarchy hending⟩

/-- Every step of a run of a program: no opcode is unknown and no address of the code is out of
range. -/
theorem safe_run {p : Program} {t : Target} {b : Build} (hbuild : t.build p = .ok b)
    (hcode : isAddressable b.code.length = true) :
    ∃ im m ty, (p.compile (Int32.ofNat t.memorySize)).listing = some im.listing ∧
      (p.compile (Int32.ofNat t.memorySize)).bodyType = some ty ∧ b.code = im.code ∧
      Machine.load b.code t.codeSize t.memorySize = .ok m ∧
      ∀ n m', m.Reaches n m' → (∀ j m'', j ≤ n → m.Reaches j m'' → m''.Apart) →
        ∃ calls, m.Calls im n m' calls ∧ GoesOn p ty im m n m' := by
  rcases loaded hbuild hcode with ⟨w, m, ty, hloaded⟩
  exact ⟨w.im, m, ty, hloaded.listed, (bodyType_compile p _).trans hloaded.bodyType,
    hloaded.encoded, hloaded.load, fun _ _ hreaches hapart => hloaded.goesOn hreaches hapart⟩

/-- The method of no object is called. -/
def callingNull : Program :=
  { decls := [
      Written.classOf "A" none [] [Written.method "m" [] .int ⟨[], .int Written.start 0⟩],
      .var Written.start (Written.ident "o") (Written.type (.ref "A")) (.null Written.start) none]
    body := .methodCall Written.start (Written.ident "o") (Written.ident "m") [] none none
    pos := Written.start }

theorem callingNull_compiledRun :
    ∃ ip, callingNull.compiledRun {} 100 =
      some (41, .error (.trap (.memoryOutOfRange (-1) ip)), true) :=
  ⟨23, by decide +kernel⟩

theorem safe_run_null :
    let t : Target := {}
    ∃ b m, t.build callingNull = .ok b ∧ isAddressable b.code.length = true ∧
      Machine.load b.code t.codeSize t.memorySize = .ok m ∧
      (∀ n m', m.Reaches n m' → m'.Apart) ∧
      ∀ n m', m.Reaches n m' →
        (∃ m'', Exec.step.run m' = .ok .running m'') ∨
          ∃ m'', Exec.step.run m' = .error (.memoryOutOfRange (-1) m'.ip) m'' := by
  rcases callingNull_compiledRun with ⟨ip, hcompiled⟩
  rcases returns_of_compiledRun (by decide) hcompiled nofun (by decide) with
    ⟨b, hbuild, hlength, _, hapart⟩
  have hcode : isAddressable b.code.length = true := by
    rw [hlength]
    decide
  rcases safe_run hbuild hcode with ⟨im, m, ty, _, _, _, hload, hsafe⟩
  have hrun := hapart rfl m hload
  refine ⟨b, m, hbuild, hcode, hload, hrun, ?_⟩
  intro n m' hreaches
  have heval : ∀ fuel, ∃ failure st, callingNull.eval fuel = .error failure st ∧
      failure ≠ .divisionByZero := by
    intro fuel
    cases fuel with
    | zero => exact ⟨.outOfFuel, _, rfl, by simp⟩
    | succ fuel => exact ⟨.nullReceiver, _, rfl, by simp⟩
  rcases hsafe n m' hreaches fun j m'' _ => hrun j m'' with ⟨calls, _, hgoesOn⟩
  cases hgoesOn with
  | running hrun _ => exact Or.inl ⟨_, hrun⟩
  | @halting _ fuel _ _ _ _ hok _ =>
      rcases heval fuel with ⟨failure, st, herror, _⟩
      rw [hok] at herror
      cases herror
  | @dividingByZero _ fuel _ _ _ hdivides =>
      rcases heval fuel with ⟨failure, st, herror, hne⟩
      rw [hdivides] at herror
      cases herror
      exact absurd rfl hne
  | callingNull _ htrap _ => exact Or.inr ⟨_, htrap⟩

/-- No cell value is the address that the first jump should go to. -/
theorem safe_run_outlying :
    ∃ (t : Target) (b : Build) (m m' trapped : Machine), t.memorySize = 2147483647 ∧
      t.build outlying = .ok b ∧ Machine.load b.code t.codeSize t.memorySize = .ok m ∧
      (∀ n m'', m.Reaches n m'' → m''.Apart) ∧ m.Reaches 2 m' ∧
      Exec.step.run m' = .error (.codeOutOfRange (-1610612736) 4) trapped := by
  rcases outlying_stops with
    ⟨t, b, m, m', trapped, hmemory, hbuild, hload, hapart, hreaches, htrap, _⟩
  exact ⟨t, b, m, m', trapped, hmemory, hbuild, hload, hapart, hreaches, htrap⟩

end Program

end ClassLet
