import ClassLet.Proofs.Simulation.CompiledRuns

/-!
# Programs without declarations

An expression on its own calls nothing and constructs nothing. Its run always comes to an end, and
with as many memory cells as the expression has nodes it prints what the evaluation prints and fails
where the evaluation fails; with fewer cells it may also run out of memory.

Main statement: `Program.plain_run`.
-/

namespace ClassLet

/-!
# Evaluation
-/

/-- The evaluation gives a value or divides by zero. -/
def Eval.Plain {α : Type} (f : Eval α) : Prop :=
  ∀ st, (∃ a st', f.run st = .ok a st') ∨ ∃ st', f.run st = .error .divisionByZero st'

namespace Eval.Plain

variable {α β : Type} {f : Eval α} {g : α → Eval β}

theorem pure (a : α) : Plain (Pure.pure a) :=
  fun st => Or.inl ⟨a, st, rfl⟩

theorem bind (hf : Plain f) (hg : ∀ a, Plain (g a)) : Plain (f >>= g) := by
  intro st
  rw [EStateM.run_bind]
  rcases hf st with ⟨a, st', hrun⟩ | ⟨st', hrun⟩
  · rw [hrun]
    exact hg a st'
  · rw [hrun]
    exact Or.inr ⟨st', rfl⟩

theorem operator (op : BinaryOp) (left right : Int32) : Plain (op.eval left right) := by
  cases op with
  | div =>
      intro st
      by_cases hzero : right = 0
      · exact Or.inr ⟨st, by simp only [BinaryOp.eval, if_pos hzero]; rfl⟩
      · exact Or.inl ⟨left / right, st, by
          simp only [BinaryOp.eval, if_neg hzero, EStateM.run_pure]⟩
  | _ => exact pure _

end Eval.Plain

/-- Where nothing is declared, an evaluation calls nothing. -/
theorem Expr.plain {k : Hierarchy} (enter : Enter) (visible : Visible) :
    ∀ (e : Expr) (ty : Ty), HasType k .start e ty → Eval.Plain (e.eval enter visible)
  | .int pos value, ty, h => Eval.Plain.pure _
  | .bool pos value, ty, h => Eval.Plain.pure _
  | .null pos, ty, h => Eval.Plain.pure _
  | .missing pos, ty, h => by cases h
  | .name id target, ty, h => by
      cases h with
      | name hb => cases hb
  | .call pos callee args target, ty, h => by
      cases h with
      | call hb => cases hb
  | .methodCall pos object method args receiver entry, ty, h => by
      cases h with
      | methodCall hb => cases hb
  | .construct pos className args target, ty, h => by
      cases h with
      | construct hfind => cases hfind
  | .ifElse pos condition whenTrue whenFalse, ty, h => by
      cases h with
      | ifElse hcondition _ htrue hfalse =>
          refine Eval.Plain.bind (plain enter visible condition _ hcondition) fun holds => ?_
          split
          · exact plain enter visible whenTrue _ htrue
          · exact plain enter visible whenFalse _ hfalse
  | .not pos operand, ty, h => by
      cases h with
      | not hoperand =>
          exact (plain enter visible operand _ hoperand).bind fun _ => Eval.Plain.pure _
  | .binary pos op left right, ty, h => by
      cases h with
      | binary hleft hright =>
          refine Eval.Plain.bind (plain enter visible left _ hleft) fun l => ?_
          split
          · exact Eval.Plain.pure l
          · exact (plain enter visible right _ hright).bind fun r => Eval.Plain.operator op l r
  | .print pos operand, ty, h => by
      cases h with
      | print hoperand =>
          exact (plain enter visible operand _ hoperand).bind fun v => fun st =>
            Or.inl ⟨v, _, rfl⟩
termination_by structural e => e

/-!
# Runs
-/

namespace Target

variable {t : Target} {code : List Int32} {m : Machine}

theorem Returns.of_halts (hload : Machine.load code t.codeSize t.memorySize = .ok m) {v : Int32}
    {printed : List Int32} (h : m.HaltsWith v printed) : t.Returns code (.ok printed) := by
  rcases h with ⟨n, halted, hrun, houtput, _⟩
  refine ⟨n, fun steps hsteps => ?_⟩
  simp only [run, hload, hrun steps hsteps, houtput]

theorem Returns.of_traps (hload : Machine.load code t.codeSize t.memorySize = .ok m)
    {trap : Nat → Trap} {printed : List Int32} (h : m.TrapsWith trap printed) :
    ∃ ip, t.Returns code (.error (.trap (trap ip))) := by
  rcases h with ⟨n, ip, trapped, hrun, _⟩
  refine ⟨ip, n, fun steps hsteps => ?_⟩
  simp only [run, hload, hrun steps hsteps]

end Target

/-- A run without a heap is followed to its end unless the memory is too small for its stack. -/
theorem Represents.leadsBounded {im : Image} [im.Addressable] {memorySize : Nat} {c : Config}
    {m : Machine} (h : Represents im memorySize c m) (hheap : c.heap = []) {depth least : Nat}
    {goal : Config → Prop} (hleads : LeadsIn im memorySize (some depth) least c goal) :
    (∃ n m' c', m.Reaches n m' ∧ Represents im memorySize c' m' ∧ goal c') ∨
      memorySize < depth ∧ ∃ printed, m.TrapsWith (.memoryOutOfRange (-1)) printed := by
  rcases hleads with ⟨n, c', hsteps, _, hgoal⟩
  rcases h.followBounded hheap hsteps with
    ⟨m', hreaches, h'⟩ | ⟨hsmall, k, m', ip, m'', hreaches, htrap⟩
  · exact Or.inl ⟨n, m', c', hreaches, h', hgoal⟩
  · exact Or.inr ⟨hsmall, _, k, ip, m'', fun steps hsteps =>
      hreaches.run_trapped htrap hsteps, rfl⟩

/-- The run prints what the evaluation prints, up to a division by zero if there is one. -/
def Machine.RunsLike (m : Machine) (r : EStateM.Result Failure Store Int32) : Prop :=
  (∃ v st, r = .ok v st ∧ m.HaltsWith v st.printed) ∨
    ∃ st, r = .error .divisionByZero st ∧ m.TrapsWith .divisionByZero st.printed

namespace Program

/-- Without declarations, the stack never needs more cells than the body has nodes. -/
theorem Loaded.followsBounded {p : Program} {t : Target} {b : Build} {w : World} {m : Machine}
    {ty : Ty} (h : Loaded p t b w m ty) (hplain : p.decls = []) (fuel : Nat) :
    Outcome w.im w.memorySize (some p.body.nodes) fuel (Config.start w.topBase)
      (Config.Halting w (some p.body.nodes) ty) (p.eval (fuel + 1)) := by
  rcases p with ⟨decls, body, pos⟩
  obtain rfl : decls = [] := hplain
  rcases h.compiled with ⟨items, n, hcompiled, hcode⟩
  unfold Decl.linkAll Decl.CompiledAll at hcompiled
  rcases hcompiled with ⟨_, rfl⟩
  refine Outcome.halts (Or.inr rfl) rfl h.typed hcode (At.start w _) ?_
  intro depth hdepth
  cases hdepth
  exact Nat.le_of_eq (Nat.zero_add _)

theorem Loaded.runs_plain {p : Program} {t : Target} {b : Build} {w : World} {m : Machine}
    {ty : Ty} (h : Loaded p t b w m ty) (hplain : p.decls = []) (fuel : Nat) :
    m.RunsLike (p.eval (fuel + 1)) ∨
      t.memorySize < p.body.nodes ∧ ∃ printed, m.TrapsWith (.memoryOutOfRange (-1)) printed := by
  have hfollows := h.followsBounded hplain fuel
  have hresult := Expr.plain (Body.eval fuel) [] p.body ty (by
    have htyped := h.typed
    rwa [hplain] at htyped) Store.empty
  have heval : p.eval (fuel + 1) = (p.body.eval (Body.eval fuel) []).run Store.empty := by
    unfold eval
    rw [hplain]
    rfl
  rw [← h.memorySize]
  rw [← heval] at hresult
  rcases hresult with ⟨v, st, hrun⟩ | ⟨st, hrun⟩
  · rw [hrun] at hfollows
    cases hfollows with
    | full _ hnone => cases hnone
    | value hleads =>
        rcases h.start.leadsBounded rfl hleads with ⟨n, m', c', hreaches, h', hhalting⟩ | hsmall
        · exact Or.inl (Or.inl ⟨v, st, hrun, h'.haltsWith hreaches hhalting⟩)
        · exact Or.inr hsmall
  · rw [hrun] at hfollows
    cases hfollows with
    | full _ hnone => cases hnone
    | divisionByZero hleads =>
        rcases h.start.leadsBounded rfl hleads with ⟨n, m', c', hreaches, h', hdivides⟩ | hsmall
        · exact Or.inl (Or.inr ⟨st, hrun, h'.trapsDividing hreaches hdivides⟩)
        · exact Or.inr hsmall

theorem plain_run {p : Program} (hplain : p.decls = []) {t : Target} {l : Listing}
    (hmemory : isAddressable t.memorySize = true)
    (hlisting : (p.compile (Int32.ofNat t.memorySize)).listing = some l)
    (hsize : l.codeSize ≤ t.codeSize) (haddressable : isAddressable l.codeSize = true)
    (fuel : Nat) :
    ∃ b m, t.build p = .ok b ∧ Machine.load b.code t.codeSize t.memorySize = .ok m ∧
      (m.RunsLike (p.eval (fuel + 1)) ∨
        t.memorySize < p.body.nodes ∧
          ∃ address ip, t.Returns b.code (.error (.trap (.memoryOutOfRange address ip)))) ∧
      (p.body.nodes ≤ t.memorySize →
        (∀ printed, t.Returns b.code (.ok printed) ↔
          ∃ v st, p.eval (fuel + 1) = .ok v st ∧ st.printed = printed) ∧
        ((∃ ip, t.Returns b.code (.error (.trap (.divisionByZero ip)))) ↔
          ∃ st, p.eval (fuel + 1) = .error .divisionByZero st)) := by
  rcases build_of_listing hmemory hlisting hsize with ⟨b, hbuild, _, hlength⟩
  rcases loaded hbuild (hlength ▸ haddressable) with ⟨w, m, ty, hloaded⟩
  have hruns := hloaded.runs_plain hplain fuel
  refine ⟨b, m, hbuild, hloaded.load, ?_, ?_⟩
  · rcases hruns with hlike | ⟨hsmall, printed, htraps⟩
    · exact Or.inl hlike
    · exact Or.inr ⟨hsmall, -1, Target.Returns.of_traps hloaded.load htraps⟩
  intro hlarge
  rcases hruns with hlike | ⟨hsmall, _⟩
  · rcases hlike with ⟨v, st, heval, hhalts⟩ | ⟨st, heval, htraps⟩
    · have hreturns := Target.Returns.of_halts hloaded.load hhalts
      simp only [heval]
      refine ⟨fun printed => ⟨fun h => ?_, ?_⟩, ⟨?_, ?_⟩⟩
      · cases h.unique hreturns
        exact ⟨v, st, rfl, rfl⟩
      · rintro ⟨v', st', hsame, rfl⟩
        cases hsame
        exact hreturns
      · rintro ⟨ip, h⟩
        cases h.unique hreturns
      · rintro ⟨st', hsame⟩
        cases hsame
    · rcases Target.Returns.of_traps hloaded.load htraps with ⟨ip, hreturns⟩
      simp only [heval]
      refine ⟨fun printed => ⟨fun h => ?_, ?_⟩, ⟨?_, ?_⟩⟩
      · cases h.unique hreturns
      · rintro ⟨v', st', hsame, _⟩
        cases hsame
      · exact fun _ => ⟨st, rfl⟩
      · exact fun _ => ⟨ip, hreturns⟩
  · exact absurd hsmall (Nat.not_lt.mpr hlarge)

/-- Divides, and prints the quotient. -/
def quotient (left right : Int32) : Program :=
  { decls := []
    body := .print Written.start
      (.binary Written.start .div (.int Written.start left) (.int Written.start right))
    pos := Written.start }

theorem plain_run_quotient :
    let t : Target := {}
    (∃ b, t.build (quotient (-7) 2) = .ok b ∧ t.Returns b.code (.ok [-3])) ∧
      ∃ b ip, t.build (quotient 1 0) = .ok b ∧
        t.Returns b.code (.error (.trap (.divisionByZero ip))) := by
  have hmemory : isAddressable ({} : Target).memorySize = true := by decide
  have hlisted : ∀ {p : Program}, ((p.compile 10000).listing.map Listing.codeSize) = some 7 →
      ∃ l, (p.compile 10000).listing = some l ∧ l.codeSize = 7 := fun h =>
    Option.map_eq_some_iff.mp h
  rcases hlisted (show ((quotient (-7) 2).compile 10000).listing.map Listing.codeSize = some 7 by
    decide) with ⟨l, hl, hsize⟩
  rcases hlisted (show ((quotient 1 0).compile 10000).listing.map Listing.codeSize = some 7 by
    decide) with ⟨l', hl', hsize'⟩
  rcases plain_run rfl hmemory hl (hsize ▸ by decide) (hsize ▸ by decide) 0 with
    ⟨b, m, hbuild, _, _, hresult⟩
  rcases plain_run rfl hmemory hl' (hsize' ▸ by decide) (hsize' ▸ by decide) 0 with
    ⟨b', m', hbuild', _, _, hresult'⟩
  refine ⟨⟨b, hbuild, ((hresult (by decide)).1 [-3]).mpr ⟨_, _, rfl, rfl⟩⟩, ?_⟩
  rcases (hresult' (by decide)).2.mpr ⟨_, rfl⟩ with ⟨ip, hreturns⟩
  exact ⟨b', ip, hbuild', hreturns⟩

theorem nodes_doubled (op : BinaryOp) (e : Expr) (k : Nat) :
    (Expr.doubled op e k).nodes + 1 = (e.nodes + 1) * 2 ^ k := by
  induction k with
  | zero => rw [Nat.pow_zero, Nat.mul_one, Expr.doubled]
  | succ k ih =>
      rw [Nat.pow_succ, ← Nat.mul_assoc, ← ih, Expr.doubled, Expr.twice, Expr.nodes]
      omega

theorem outlying_nodes : outlying.body.nodes = 536870914 := by
  have hdoubled := nodes_doubled .eq (.bool Written.start false) 28
  have hbody : outlying.body.nodes =
      1 + (1 + 1 + (Expr.doubled .eq (.bool Written.start false) 28).nodes) := rfl
  have hleaf : (Expr.bool Written.start false).nodes = 1 := rfl
  rw [hleaf] at hdoubled
  omega

/-- The memory is large enough, and nothing is divided. -/
theorem plain_run_outlying :
    ∃ (t : Target) (b : Build) (ip : Nat), outlying.decls = [] ∧
      isAddressable t.memorySize = true ∧ outlying.body.nodes ≤ t.memorySize ∧
      t.build outlying = .ok b ∧ outlying.eval 1 = .ok 1 Store.empty ∧
      t.Returns b.code (.error (.trap (.codeOutOfRange (-1610612736) ip))) := by
  rcases outlying_stops with
    ⟨t, b, m, m', trapped, hmemory, hbuild, hload, _, hreaches, htrap, hprinted⟩
  have hnodes := outlying_nodes
  rcases Target.Returns.of_traps hload
    ⟨2, 4, trapped, fun _ => hreaches.run_trapped htrap, hprinted⟩ with ⟨ip, hreturns⟩
  refine ⟨t, b, ip, rfl, ?_, ?_, hbuild, outlying_eval, hreturns⟩
  · rw [hmemory]
    decide
  · omega

end Program

end ClassLet
