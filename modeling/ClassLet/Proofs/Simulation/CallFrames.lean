import ClassLet.Proofs.Simulation.MemorySizes
import ClassLet.Proofs.Simulation.Traces

/-!
# Calls and their callers

A body finds the arguments, the frame pointer of the caller and the return address in the frame
that the call has left for it, and takes just this frame off the stack again. Whatever it calls in
between does the same, so behind the return the caller has its registers and its part of the stack
as before, with the result on top.

Main statement: `Program.caller_restored`.
-/

namespace ClassLet

namespace Machine

/-- The given number of instructions leads from one machine to the other, and so many of the bodies
that have been entered on the way have not been left yet. -/
inductive Within (im : Image) (m : Machine) : Nat → Machine → Nat → Prop where
  | start : Within im m 0 m 0
  | other {n depth : Nat} {m' m'' : Machine} :
      Within im m n m' depth →
      m'.code[m'.ip]? ≠ some Opcode.call.cell →
      Exec.step.run m' = .ok .running m'' →
      Within im m (n + 1) m'' depth
  | enter {n depth : Nat} {m' m'' : Machine} :
      Within im m n m' depth →
      m'.code[m'.ip]? = some Opcode.call.cell →
      Exec.step.run m' = .ok .running m'' →
      im.Entry m''.ip →
      Within im m (n + 1) m'' (depth + 1)
  | leave {n depth : Nat} {m' m'' : Machine} :
      Within im m n m' (depth + 1) →
      m'.code[m'.ip]? = some Opcode.call.cell →
      Exec.step.run m' = .ok .running m'' →
      ¬im.Entry m''.ip →
      Within im m (n + 1) m'' depth

/-- The jump of the first machine enters a body, and the one of the third machine, so many
instructions later, is the return from this body. -/
structure CallReturns (im : Image) (n : Nat) (m m₁ m₂ m₃ : Machine) : Prop where
  calls : m.code[m.ip]? = some Opcode.call.cell
  entered : Exec.step.run m = .ok .running m₁
  entry : im.Entry m₁.ip
  within : m₁.Within im n m₂ 0
  returns : m₂.code[m₂.ip]? = some Opcode.call.cell
  left : Exec.step.run m₂ = .ok .running m₃
  behind : ¬im.Entry m₃.ip

/-- Before the given number of instructions the body comes to its epilogue, with the value on top of
the stack. -/
def Gives (im : Image) (params : Nat) (m : Machine) (n : Nat) (v : Int32) : Prop :=
  ∃ j m' locals, j < n ∧ m.Within im j m' 0 ∧
    CodeAt im.listing m'.ip (Code.epilogue locals params) ∧ m'.memory.read? m'.sp = some v

/-- What the caller of a body finds behind the return; the first machine has just entered the body.
The cell of the link lies in front of the arguments, and the one where the frame pointer was saved
behind them. -/
structure Restores (params : Nat) (m m' : Machine) : Prop where
  ip : (m'.ip : Int) = m.ra.toInt
  fp : m'.fp = m.fp
  saved : m.memory.read? m'.sp = some m.fp
  sp : m'.sp.toInt = m.sp.toInt + params + 1
  above : ∀ a : Int32, m'.sp.toInt < a.toInt → m'.memory.read? a = m.memory.read? a

theorem Gives.mono {im : Image} {params n n' : Nat} {m : Machine} {v : Int32}
    (h : m.Gives im params n v) (hle : n ≤ n') : m.Gives im params n' v := by
  rcases h with ⟨j, m', locals, hj, hrest⟩
  exact ⟨j, m', locals, Nat.lt_of_lt_of_le hj hle, hrest⟩

theorem Within.reaches {im : Image} {n depth : Nat} {m m' : Machine}
    (h : m.Within im n m' depth) : m.Reaches n m' := by
  induction h with
  | start => exact Reaches.refl m
  | other _ _ hrun ih => exact ih.snoc hrun
  | enter _ _ hrun _ ih => exact ih.snoc hrun
  | leave _ _ hrun _ ih => exact ih.snoc hrun

theorem Within.last {im : Image} {n depth : Nat} {m m'' : Machine}
    (h : m.Within im (n + 1) m'' depth) :
    ∃ m' before, m.Within im n m' before ∧ Exec.step.run m' = .ok .running m'' ∧
      (m'.code[m'.ip]? ≠ some Opcode.call.cell ∧ before = depth ∨
        m'.code[m'.ip]? = some Opcode.call.cell ∧
          (im.Entry m''.ip ∧ before + 1 = depth ∨ ¬im.Entry m''.ip ∧ before = depth + 1)) := by
  cases h with
  | other hbefore hother hrun => exact ⟨_, _, hbefore, hrun, Or.inl ⟨hother, rfl⟩⟩
  | enter hbefore hcall hrun hentry =>
      exact ⟨_, _, hbefore, hrun, Or.inr ⟨hcall, Or.inl ⟨hentry, rfl⟩⟩⟩
  | leave hbefore hcall hrun hentry =>
      exact ⟨_, _, hbefore, hrun, Or.inr ⟨hcall, Or.inr ⟨hentry, rfl⟩⟩⟩

/-- Instructions that are not calls, in a run that does not end before. -/
theorem Within.goesOn {im : Image} {m : Machine} {i n k total depth : Nat}
    (h : (m.run i).2.Within im n (m.run (i + n)).2 depth) (hrun : (m.run total).1 = .outOfSteps)
    (hle : i + n + k ≤ total)
    (hother : ∀ j < k, (m.run (i + n + j)).2.code[(m.run (i + n + j)).2.ip]? ≠
      some Opcode.call.cell) :
    (m.run i).2.Within im (n + k) (m.run (i + n + k)).2 depth := by
  induction k with
  | zero => exact h
  | succ k ih =>
      exact Within.other (ih (by omega) fun j hj => hother j (by omega)) (hother k (by omega))
        (step_of_run hrun (by omega))

end Machine

/-!
# Inside a call
-/

variable {im : Image} {memorySize : Nat} {c c' : Config} {m m' : Machine}

/-- On top of the activation there are so many others, and if it has its result, the result has the
property. -/
def Config.Inside (activation : Activation) (calls : List Activation) (given : Int32 → Prop)
    (depth : Nat) (c : Config) : Prop :=
  ∃ inner result, inner.length = depth ∧ c.calls = inner ++ { activation with result } :: calls ∧
    ∀ v, result = some v → given v

namespace Config.Inside

variable {activation other : Activation} {calls : List Activation} {given given' : Int32 → Prop}
  {depth : Nat}

theorem mono (h : c.Inside activation calls given depth) (hgiven : ∀ v, given v → given' v)
    (hcalls : c'.calls = c.calls) : c'.Inside activation calls given' depth := by
  rcases h with ⟨inner, result, hlength, hunder, hresult⟩
  exact ⟨inner, result, hlength, hcalls.trans hunder, fun v hv => hgiven v (hresult v hv)⟩

theorem enter (h : c.Inside activation calls given depth) (hcalls : c'.calls = other :: c.calls) :
    c'.Inside activation calls given (depth + 1) := by
  rcases h with ⟨inner, result, rfl, hunder, hresult⟩
  exact ⟨other :: inner, result, rfl, by rw [hcalls, hunder]; rfl, hresult⟩

theorem leave (h : c.Inside activation calls given (depth + 1))
    (hcalls : c.calls = other :: c'.calls) : c'.Inside activation calls given depth := by
  rcases h with ⟨inner, result, hlength, hunder, hresult⟩
  cases inner with
  | nil => cases hlength
  | cons first inner =>
      rw [hcalls, List.cons_append] at hunder
      exact ⟨inner, result, Nat.succ.inj hlength, (List.cons.inj hunder).2, hresult⟩

/-- An instruction that is not a call. At the end of a body it evaluates the result of the innermost
call. -/
theorem step (h : c.Inside activation calls given depth) (hstep : Step im memorySize c c')
    (hother : im.code[c.ip]? ≠ some Opcode.call.cell)
    (hgiven : ∀ params exit v rest, depth = 0 → im.Body params activation.entry c.ip exit →
      c.stack = v :: rest → given v) :
    c'.Inside activation calls given depth := by
  rcases hstep.other_cases hother with
    hsame | ⟨params, exit, innermost, under, v, rest, hunder, hbody, hstack, hcalls⟩
  · exact h.mono (fun _ hv => hv) hsame
  · rcases h with ⟨inner, result, rfl, hcalls', hresult⟩
    rw [hunder] at hcalls'
    cases inner with
    | nil =>
        obtain ⟨rfl, rfl⟩ := List.cons.inj hcalls'
        refine ⟨[], some v, rfl, hcalls, fun w hw => ?_⟩
        cases hw
        exact hgiven params exit v rest rfl hbody hstack
    | cons first inner =>
        obtain ⟨rfl, rfl⟩ := List.cons.inj hcalls'
        exact ⟨{ innermost with result := some v } :: inner, result, rfl, hcalls, hresult⟩

end Config.Inside

namespace Represents

/-- A body that has been entered is the one that is left when the run comes back to it. -/
theorem inside [im.Addressable] (h : Represents im memorySize c m)
    {n depth params finish exit : Nat} {activation : Activation} {calls : List Activation}
    (hcalls : c.calls = activation :: calls)
    (hresult : activation.result = none) (hbody : im.Body params activation.entry finish exit)
    (hwithin : m.Within im n m' depth) (hsteps : Steps im memorySize none n c c')
    (hapart : ∀ j m'', j ≤ n → m.Reaches j m'' → m''.Apart) :
    c'.Inside activation calls (m.Gives im params n) depth := by
  induction n generalizing c' m' depth with
  | zero =>
      cases hwithin
      cases hsteps
      exact ⟨[], none, rfl, by rw [hcalls, ← hresult]; rfl, fun v hv => nomatch hv⟩
  | succ n ih =>
      rcases hsteps.last with ⟨c₁, hto, hstep⟩
      rcases hwithin.last with ⟨m₁, before, hbefore, hrun, hlast⟩
      have hapart₁ : ∀ j m'', j ≤ n → m.Reaches j m'' → m''.Apart := fun j m'' hj =>
        hapart j m'' (Nat.le_succ_of_le hj)
      have h₁ := h.followed hto hbefore.reaches hapart₁
      have h₂ := h.followed hsteps hwithin.reaches hapart
      have hinside := (ih hbefore hto hapart₁).mono (fun v hv => hv.mono (Nat.le_succ n)) rfl
      rcases hlast with ⟨hother, rfl⟩ | ⟨hcall, hlast⟩
      · have hop : im.code[c₁.ip]? ≠ some Opcode.call.cell := fun hcall =>
          hother ((h₁.fetch 0).trans hcall)
        refine hinside.step hstep hop ?_
        rintro params' exit' v rest rfl hbody' hstack
        obtain ⟨rfl, _⟩ := hbody.unique hbody'
        rcases hbody'.epilogue with ⟨locals, hcode⟩
        exact ⟨n, m₁, locals, Nat.lt_succ_self n, hbefore, h₁.ip ▸ hcode, h₁.read_top hstack⟩
      · rw [h₂.ip] at hlast
        rcases hstep.call_cases ((h₁.fetch 0).symm.trans hcall) with
          ⟨_, _, _, henters⟩ | ⟨_, _, hleaves⟩
        · rcases hlast with ⟨_, rfl⟩ | ⟨hleft, _⟩
          · exact hinside.enter henters.calls
          · exact absurd henters.entry hleft
        · rcases hlast with ⟨hentered, _⟩ | ⟨_, rfl⟩
          · exact absurd hentered hleaves.behind
          · exact hinside.leave hleaves.calls

/-- Two configurations that agree below the frame of a call and in the frame pointer. -/
theorem restores (h : Represents im memorySize c m) (h' : Represents im memorySize c' m')
    {link v : Int32} {args rest : List Int32} (hstack : c.stack = link :: (args ++ c.fp :: rest))
    (hstack' : c'.stack = v :: rest) (hfp : c'.fp = c.fp) (hip : (c'.ip : Int) = c.ra.toInt) :
    m.Restores args.length m' where
  ip := by
    rw [h'.ip, h.ra]
    exact hip
  fp := by
    rw [h'.fp, h.fp]
    exact hfp
  saved := by
    rw [h'.sp_cons hstack', h.fp]
    exact h.stackCells (link :: args) rest c.fp hstack
  sp := by
    rw [h.toInt_sp, h'.toInt_sp, hstack, hstack']
    simp only [List.length_cons, List.length_append]
    omega
  above := by
    intro a hlt
    rw [h'.toInt_sp, hstack', List.length_cons] at hlt
    have hbelow : rest <:+ c.stack := ⟨link :: (args ++ [c.fp]), by simp [hstack]⟩
    exact h.read_eq h' (List.nil_prefix) (List.nil_prefix) hbelow (hstack' ▸ List.suffix_cons _ _)
      (Or.inr (by omega))

/-- A call, the run of the body, and the return from it. -/
theorem callReturns [im.Addressable] (h : Represents im memorySize c m)
    {n params finish exit : Nat} {m₁ m₂ m₃ : Machine} (hcall : Machine.CallReturns im n m m₁ m₂ m₃)
    (hbody : im.Body params m₁.ip finish exit) (hsteps : Steps im memorySize none (n + 2) c c')
    (hapart : ∀ j m', j ≤ n + 2 → m.Reaches j m' → m'.Apart) :
    m₃.ip = m.ip + 1 ∧ m₁.Restores params m₃ ∧
      ∃ v, m₁.Gives im params n v ∧ m₃.memory.read? m₃.sp = some v := by
  have hlast := Machine.Reaches.step hcall.entered (hcall.within.reaches.snoc hcall.left)
  have h₃ := h.followed hsteps hlast hapart
  have hlater : ∀ j m', j ≤ n → m₁.Reaches j m' → m'.Apart := fun j m' hj hreaches =>
    hapart (j + 1) m' (by omega) (Machine.Reaches.step hcall.entered hreaches)
  cases hsteps with
  | @step _ _ c₁ _ hcallStep hallows hsteps =>
      have h₁ := h.followed (Steps.step hcallStep hallows (Steps.refl c₁))
        (Machine.Reaches.step hcall.entered (Machine.Reaches.refl m₁))
        fun j m' hj => hapart j m' (by omega)
      rw [h₁.ip] at hbody
      rcases hcallStep.call_cases ((h.fetch 0).symm.trans hcall.calls) with
        ⟨link, args, rest, henters⟩ | ⟨_, _, hleaves⟩
      · rcases henters.body with ⟨finish', exit', hbody'⟩
        obtain ⟨rfl, _⟩ := hbody.unique hbody'
        rcases hsteps.last with ⟨c₂, hinner, hreturnStep⟩
        have h₂ := h₁.followed hinner hcall.within.reaches hlater
        rcases hreturnStep.call_cases ((h₂.fetch 0).symm.trans hcall.returns) with
          ⟨_, _, _, hentered⟩ | ⟨activation, v, hleaves⟩
        · exact absurd (h₃.ip ▸ hentered.entry) hcall.behind
        · rcases h₁.inside henters.calls rfl hbody hcall.within hinner hlater with
            ⟨inner, result, hlength, hunder, hgives⟩
          obtain rfl := List.length_eq_zero_iff.mp hlength
          rw [hleaves.calls, List.nil_append, List.cons.injEq] at hunder
          obtain ⟨rfl, _⟩ := hunder
          have hback : c'.ip = m.ip + 1 := by
            rw [hleaves.ip, h.ip]
          have hcell : c.ip < im.code.length :=
            (List.getElem?_eq_some_iff.mp ((h.fetch 0).symm.trans hcall.calls)).1
          have hra : (c'.ip : Int) = c₁.ra.toInt := by
            rw [henters.ra, toInt_codeAddress Image.Addressable.code hcell, hleaves.ip]
          exact ⟨h₃.ip.trans hback,
            h₁.restores h₃ henters.stack hleaves.stack hleaves.fp hra,
            v, hgives v hleaves.result, h₃.read_top hleaves.stack⟩
      · exact absurd (h₁.ip ▸ hcall.entry) hleaves.behind

end Represents

namespace Program

/-- Whatever a body that has been called does, its return restores the caller, as long as heap and
stack are apart. A jump goes to an address that is the value of a cell, so the code has to be
addressable as the memory is. -/
theorem caller_restored {p : Program} {t : Target} {b : Build} (hbuild : t.build p = .ok b)
    (hcode : isAddressable b.code.length = true) :
    ∃ im m, (p.compile (Int32.ofNat t.memorySize)).listing = some im.listing ∧ b.code = im.code ∧
      Machine.load b.code t.codeSize t.memorySize = .ok m ∧
      (∀ a, im.Entry a ↔ ∃ i params, p.arities[i]? = some params ∧
        im.listing.address? (functionText i) = some a) ∧
      ∀ n k i params m₁ m₂ m₃ m₄, m.Reaches n m₁ → Machine.CallReturns im k m₁ m₂ m₃ m₄ →
        p.arities[i]? = some params → im.listing.address? (functionText i) = some m₂.ip →
        (∀ j m', j ≤ n + (k + 2) → m.Reaches j m' → m'.Apart) →
        m₄.ip = m₁.ip + 1 ∧ m₂.Restores params m₄ ∧
          ∃ v, m₂.Gives im params k v ∧ m₄.memory.read? m₄.sp = some v := by
  rcases loaded hbuild hcode with ⟨w, m, ty, hloaded⟩
  refine ⟨w.im, m, hloaded.listed, hloaded.encoded, hloaded.load, fun a => ⟨?_, ?_⟩, ?_⟩
  · exact hloaded.numbered.entries a
  · rintro ⟨i, params, _, haddress⟩
    exact ⟨functionText i, ⟨i, rfl⟩, haddress⟩
  · intro n k i params m₁ m₂ m₃ m₄ hreaches hcall hi haddress hapart
    have hrun := Machine.Reaches.step hcall.entered (hcall.within.reaches.snoc hcall.left)
    rcases hloaded.traceTwo hreaches hrun hapart with ⟨c₁, c₄, _, h₁, hsteps, _⟩
    rcases hloaded.numbered.body_at hi haddress with ⟨finish, exit, hbody⟩
    exact h₁.callReturns hcall hbody hsteps fun j m' hj hreaches' =>
      hapart (n + j) m' (Nat.add_le_add_left hj n) (hreaches.trans hreaches')

/-- A function that calls itself once. -/
def recursing : Program :=
  { decls := [.function (Written.header "f" [("again", .bool)] .int)
      ⟨[], .ifElse Written.start (.name (Written.ident "again") none)
        (.call Written.start (Written.ident "f") [.bool Written.start false] none)
        (.int Written.start 7)⟩ none]
    body := .call Written.start (Written.ident "f") [.bool Written.start true] none
    pos := Written.start }

/-- Which instructions of the run are calls, and where they lead to. -/
def RecursingCalls (m : Machine) : Prop :=
  (m.run 57).1 = .outOfSteps ∧
    (∀ j < 57, (m.run j).2.code[(m.run j).2.ip]? = some Opcode.call.cell ↔
      j ∈ [11, 30, 48, 56]) ∧
    [12, 31, 49, 57].map (fun j => (m.run j).2.ip) = [17, 17, 45, 16]

instance (m : Machine) : Decidable (RecursingCalls m) :=
  inferInstanceAs (Decidable (_ ∧ _ ∧ _))

theorem recursing_calls :
    (recursing.compile 10000).listing.map (fun l => (l.address? (functionText 0),
      (Machine.load l.encode 10000 10000).toOption.map fun m => decide (RecursingCalls m))) =
        some (some 17, some true) := by
  decide +kernel

theorem recursing_compiledRun : recursing.compiledRun {} 100 = some (53, .ok [], true) := by
  decide +kernel

/-- The function calls itself, and both calls are left. -/
theorem RecursingCalls.callReturns {im : Image} {m : Machine} (h : RecursingCalls m)
    (hentry : ∀ a, im.Entry a ↔ a = 17) :
    Machine.CallReturns im 44 (m.run 11).2 (m.run 12).2 (m.run 56).2 (m.run 57).2 := by
  rcases h with ⟨hrun, hops, hips⟩
  simp only [List.map_cons, List.map_nil, List.cons.injEq, and_true] at hips
  rcases hips with ⟨hcalled, hcalledAgain, hleftAgain, hleft⟩
  have hcall : ∀ {j : Nat}, j < 57 → j ∈ [11, 30, 48, 56] →
      (m.run j).2.code[(m.run j).2.ip]? = some Opcode.call.cell := fun hj hmem =>
    (hops _ hj).mpr hmem
  have hother : ∀ {j : Nat}, j < 57 → j ∉ [11, 30, 48, 56] →
      (m.run j).2.code[(m.run j).2.ip]? ≠ some Opcode.call.cell := fun hj hmem heq =>
    hmem ((hops _ hj).mp heq)
  have hstep : ∀ {j : Nat}, j < 57 → Exec.step.run (m.run j).2 = .ok .running (m.run (j + 1)).2 :=
    fun hj => Machine.step_of_run hrun hj
  have hfirst : (m.run 12).2.Within im 18 (m.run 30).2 0 :=
    Machine.Within.start.goesOn (k := 18) hrun (by decide) fun j hj =>
      hother (by omega) (by simp; omega)
  have hagain : (m.run 12).2.Within im 19 (m.run 31).2 1 :=
    Machine.Within.enter hfirst (hcall (by decide) (by decide)) (hstep (by decide))
      ((hentry _).mpr hcalledAgain)
  have hsecond : (m.run 12).2.Within im 36 (m.run 48).2 1 :=
    hagain.goesOn (k := 17) hrun (by decide) fun j hj => hother (by omega) (by simp; omega)
  have hback : (m.run 12).2.Within im 37 (m.run 49).2 0 :=
    Machine.Within.leave hsecond (hcall (by decide) (by decide)) (hstep (by decide))
      (by rw [hentry, hleftAgain]; decide)
  exact {
    calls := hcall (by decide) (by decide)
    entered := hstep (by decide)
    entry := (hentry _).mpr hcalled
    within := hback.goesOn (k := 7) hrun (by decide) fun j hj =>
      hother (by omega) (by simp; omega)
    returns := hcall (by decide) (by decide)
    left := hstep (by decide)
    behind := by
      rw [hentry, hleft]
      decide }

theorem caller_restored_recursing :
    let t : Target := {}
    ∃ b im m, t.build recursing = .ok b ∧ isAddressable b.code.length = true ∧ b.code = im.code ∧
      Machine.load b.code t.codeSize t.memorySize = .ok m ∧
      m.Reaches 11 (m.run 11).2 ∧
      Machine.CallReturns im 44 (m.run 11).2 (m.run 12).2 (m.run 56).2 (m.run 57).2 ∧
      recursing.arities[0]? = some 1 ∧
      im.listing.address? (functionText 0) = some (m.run 12).2.ip ∧
      (∀ j m', m.Reaches j m' → m'.Apart) ∧
      (m.run 57).2.ip = (m.run 11).2.ip + 1 ∧ (m.run 12).2.Restores 1 (m.run 57).2 ∧
      ∃ v, (m.run 12).2.Gives im 1 44 v ∧
        (m.run 57).2.memory.read? (m.run 57).2.sp = some v := by
  rcases returns_of_compiledRun (by decide) recursing_compiledRun nofun (by decide) with
    ⟨b, hbuild, hlength, _, hapart⟩
  have hcode : isAddressable b.code.length = true := by
    rw [hlength]
    decide
  rcases caller_restored hbuild hcode with
    ⟨im, m, hlisted, hencoded, hload, hentries, hrestored⟩
  have hlisted' : (recursing.compile 10000).listing = some im.listing := hlisted
  have hload' : Machine.load im.listing.encode 10000 10000 = .ok m := by
    rw [← Image.code, ← hencoded]
    exact hload
  have hobserved := recursing_calls
  rw [hlisted', Option.map_some, Option.some.injEq, Prod.mk.injEq, hload'] at hobserved
  rcases hobserved with ⟨haddress, hdecided⟩
  have hcalls : RecursingCalls m := of_decide_eq_true (Option.some.inj hdecided)
  have hentry : ∀ a, im.Entry a ↔ a = 17 := by
    intro a
    rw [hentries]
    constructor
    · rintro ⟨i, params, hi, ha⟩
      cases i with
      | zero => exact Option.some.inj (ha.symm.trans haddress)
      | succ i => cases hi
    · rintro rfl
      exact ⟨0, 1, rfl, haddress⟩
  have hreturns := hcalls.callReturns hentry
  have hreaches : m.Reaches 11 (m.run 11).2 := by
    rcases (Machine.Reaches.of_run (Prod.ext hcalls.1 rfl)).le (show 11 ≤ 57 by decide) with
      ⟨m', h⟩
    rw [h.run_eq]
    exact h
  have hbody : im.listing.address? (functionText 0) = some (m.run 12).2.ip := by
    rw [haddress, ← (hentry _).mp hreturns.entry]
  have hroom := hapart rfl m hload
  exact ⟨b, im, m, hbuild, hcode, hencoded, hload, hreaches, hreturns, rfl, hbody, hroom,
    hrestored 11 44 0 1 _ _ _ _ hreaches hreturns rfl hbody fun j m' _ => hroom j m'⟩

/-- The conditional of the function jumps to the operand of a push, which is the opcode that goes to
an address from the stack. On top of the stack is the return address. -/
def leaving : Program :=
  calling (.skipping (.int Written.start 0) (.doubled .add (.divisionOf 10) 31)) none

/-- The code up to the first instructions of the second branch. -/
def leavingCells : List Int32 :=
  callingCells 15 ++ [Opcode.setFp.cell, Opcode.pushRa.cell] ++
    [Opcode.push.cell, 1, Opcode.push.cell, 1, Opcode.jumpEq.cell, 24, Opcode.push.cell, 10,
      Opcode.push.cell, 0, Opcode.div.cell]

theorem leaving_cells (memorySize : Int32) :
    ∃ im : Image, (leaving.compile memorySize).listing = some im.listing ∧
      (∀ a, im.Entry a ↔ a = 15) ∧ im.listing.address? (functionText 0) = some 15 ∧
      leavingCells <+: im.listing.encode := by
  have hskipped := (Expr.constant_divisionOf 10).doubled .add rfl 31
  rcases calling_listing ((Expr.Constant.int 0).skipping hskipped rfl) memorySize with
    ⟨im, n, hlisting, hentry, haddress, hfirst, hcode⟩
  exact ⟨im, hlisting, hentry, haddress,
    append_prefix_of_drop hfirst (Expr.cells_skipping_divisionOf im.coherent hcode)⟩

/-- Between the call and what takes the place of the return there is no other call. -/
theorem leaving_callReturns {im : Image} (hentry : ∀ a, im.Entry a ↔ a = 15) (more : List Int32) :
    let m := (Machine.start leavingCells 10000).extended more
    ∃ m₁ m₂ m₃ m₄, m.Reaches 10 m₁ ∧ Machine.CallReturns im 5 m₁ m₂ m₃ m₄ ∧ m₂.ip = 15 ∧
      m₂.memory.read? (m₂.sp + 1) = some m₂.fp ∧ m₄.fp ≠ m₂.fp := by
  let s := Machine.start leavingCells 10000
  have hrun : (s.run 17).1 = .outOfSteps := by decide +kernel
  have hcall : ∀ j ∈ [10, 16], (s.run j).2.code[(s.run j).2.ip]? = some Opcode.call.cell := by
    decide +kernel
  have hother : ∀ j < 5, ∃ op ∈ [Opcode.setFp, .pushRa, .push, .jumpEq],
      (s.run (11 + j)).2.code[(s.run (11 + j)).2.ip]? = some op.cell := by
    decide +kernel
  have hcalled : (s.run 11).2.ip = 15 ∧
      (s.run 11).2.memory.read? ((s.run 11).2.sp + 1) = some (s.run 11).2.fp := by
    decide +kernel
  have hleft : (s.run 17).2.ip = 14 ∧ (s.run 17).2.fp ≠ (s.run 11).2.fp := by decide +kernel
  intro m
  have hreaches : ∀ j ≤ 17, m.Reaches j ((s.run j).2.extended more) := fun j =>
    s.reaches_run_extended more hrun
  have hstate : ∀ j ≤ 17, (m.run j).2 = (s.run j).2.extended more := fun j hj => by
    rw [(hreaches j hj).run_eq]
  have hrun' : (m.run 17).1 = .outOfSteps := by rw [(hreaches 17 (Nat.le_refl 17)).run_eq]
  have hwithin : (m.run 11).2.Within im 5 (m.run 16).2 0 := by
    refine Machine.Within.start.goesOn (k := 5) hrun' (by decide) fun j hj hcalls => ?_
    rcases hother j hj with ⟨op, hop, hcell⟩
    rw [Nat.add_zero, hstate (11 + j) (by omega)] at hcalls
    have hsame := ((s.run (11 + j)).2.cell_extended more hcell).symm.trans hcalls
    rw [Opcode.cell_inj (Option.some.inj hsame)] at hop
    exact absurd hop (by decide)
  have hreturns : Machine.CallReturns im 5 (m.run 10).2 (m.run 11).2 (m.run 16).2 (m.run 17).2 := {
    calls := by
      rw [hstate 10 (by decide)]
      exact (s.run 10).2.cell_extended more (hcall 10 (by decide))
    entered := Machine.step_of_run hrun' (by decide)
    entry := by
      rw [hentry, hstate 11 (by decide)]
      exact hcalled.1
    within := hwithin
    returns := by
      rw [hstate 16 (by decide)]
      exact (s.run 16).2.cell_extended more (hcall 16 (by decide))
    left := Machine.step_of_run hrun' (by decide)
    behind := by
      rw [hentry, hstate 17 (by decide)]
      exact fun hip => absurd (hip.symm.trans hleft.1) (by decide) }
  refine ⟨_, _, _, _, ?_, hreturns, ?_⟩
  · rw [hstate 10 (by decide)]
    exact hreaches 10 (by decide)
  · rw [hstate 11 (by decide), hstate 17 (by decide)]
    exact ⟨hcalled.1, hcalled.2, hleft.2⟩

/-- The frame pointer of the caller is not restored. -/
theorem caller_restored_leaving :
    ∃ (t : Target) (b : Build) (im : Image) (m m₁ m₂ m₃ m₄ : Machine),
      t.build leaving = .ok b ∧
      (leaving.compile (Int32.ofNat t.memorySize)).listing = some im.listing ∧ b.code = im.code ∧
      Machine.load b.code t.codeSize t.memorySize = .ok m ∧ (∀ n m', m.Reaches n m' → m'.Apart) ∧
      m.Reaches 10 m₁ ∧ Machine.CallReturns im 5 m₁ m₂ m₃ m₄ ∧ leaving.arities[0]? = some 0 ∧
      im.listing.address? (functionText 0) = some m₂.ip ∧
      m₂.memory.read? (m₂.sp + 1) = some m₂.fp ∧ m₄.fp ≠ m₂.fp := by
  rcases leaving_cells (Int32.ofNat 10000) with ⟨im, hlisting, hentry, haddress, hcells⟩
  have hmemory : isAddressable 10000 = true := by decide
  rcases build_of_cells hmemory hlisting hcells with ⟨b, more, hbuild, hcode, hload⟩
  have hends : (Machine.start leavingCells 10000).endsInside 20 = true := by decide +kernel
  rcases leaving_callReturns hentry more with
    ⟨m₁, m₂, m₃, m₄, hreaches, hreturns, hip, hsaved, hfp⟩
  exact ⟨_, b, im, _, m₁, m₂, m₃, m₄, hbuild, hlisting, hcode, hload,
    fun n m' => Machine.apart_of_endsInside more hends, hreaches, hreturns, rfl,
    haddress.trans (congrArg some hip.symm), hsaved, hfp⟩

end Program

end ClassLet
