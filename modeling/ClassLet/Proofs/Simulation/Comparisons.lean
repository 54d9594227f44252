import ClassLet.Proofs.Simulation.MemorySizes
import ClassLet.Proofs.Simulation.Traces

/-!
# Comparisons

The code of `>=` takes one from the right operand and tests whether the left one is at most that.
The subtraction wraps around, so no value passes for greater than or equal to the smallest one. For
every other right operand, and for `<=`, the code compares.

Main statements: `Program.comparison_run`, and `Program.misjudged_prints` for the smallest value.
-/

namespace ClassLet

/-!
# Operands
-/

theorem le_sub_one_iff (left right : Int32) :
    left ≤ right - 1 ↔ left < right ∨ right = Int32.minValue := by
  have hone : (1 : Int32).toInt = 1 := rfl
  have hleft := Int32.le_toInt left
  have hlt' := Int32.toInt_lt left
  have hright := Int32.le_toInt right
  have hlt := Int32.toInt_lt right
  rw [Int32.le_iff_toInt_le, Int32.lt_iff_toInt_lt, ← Int32.toInt_inj, Int32.toInt_sub,
    Int32.toInt_minValue, hone, Int.bmod_def]
  split <;> omega

namespace BinaryOp

/-- What the code of a comparison decides. -/
def comparison? : BinaryOp → Option (Int32 → Int32 → Bool)
  | le => some fun left right => left ≤ right
  | ge => some fun left right => right ≤ left && right != Int32.minValue
  | _ => none

theorem eval_comparison {op : BinaryOp} {holds : Int32 → Int32 → Bool}
    (h : op.comparison? = some holds) (left right : Int32) (st : Store) :
    (op.eval left right).run st = .ok (if holds left right then 1 else 0) st := by
  cases op with
  | le =>
      cases h
      simp only [eval, decide_eq_true_eq, EStateM.run_pure]
  | ge =>
      cases h
      have hiff : left ≤ right - 1 ↔ ¬(right ≤ left ∧ right ≠ Int32.minValue) := by
        rw [le_sub_one_iff, Classical.not_and_iff_not_or_not, Int32.not_le, Classical.not_not]
      simp only [eval, hiff, ite_not, Bool.and_eq_true, decide_eq_true_eq, bne_iff_ne,
        EStateM.run_pure]
  | _ => cases h

theorem isLogical_of_comparison {op : BinaryOp} {holds : Int32 → Int32 → Bool}
    (h : op.comparison? = some holds) : op.isLogical = false := by
  cases op <;> first | rfl | cases h

end BinaryOp

namespace Represents

variable {im : Image} {memorySize : Nat} {c : Config} {m : Machine}

theorem stack_of_read (h : Represents im memorySize c m) {v : Int32}
    (hread : m.memory.read? m.sp = some v) : ∃ rest, c.stack = v :: rest := by
  cases hstack : c.stack with
  | nil =>
      have hsome := Option.isSome_of_eq_some hread
      rw [Memory.read?_isSome_iff, h.size, h.toInt_sp, hstack, List.length_nil] at hsome
      omega
  | cons u rest =>
      rw [h.read_top hstack, Option.some.injEq] at hread
      exact ⟨rest, hread ▸ rfl⟩

/-- Two values that are read at the top of the stack. -/
theorem stack_of_reads (h : Represents im memorySize c m) {left right : Int32}
    (hright : m.memory.read? m.sp = some right) (hleft : m.memory.read? (m.sp + 1) = some left) :
    ∃ rest, c.stack = right :: left :: rest := by
  rcases h.stack_of_read hright with ⟨below, hstack⟩
  rcases h.pop hstack with ⟨_, h'⟩
  rcases h'.stack_of_read hleft with ⟨rest, hbelow⟩
  obtain rfl : below = left :: rest := hbelow
  exact ⟨rest, hstack⟩

end Represents

namespace Program

/-- Wherever the code of a comparison is and whatever its operands are: if a run has executed their
code and has left a value of each on the stack, it comes to the end of the code and leaves there
whether these values compare. A jump goes to an address that is the value of a cell, so the code has
to be addressable as the memory is. -/
theorem comparison_run {p : Program} {t : Target} {b : Build} (hbuild : t.build p = .ok b)
    (hcode : isAddressable b.code.length = true) :
    ∃ (im : Image) (m : Machine),
      (p.compile (Int32.ofNat t.memorySize)).listing = some im.listing ∧
      b.code = im.code ∧ Machine.load b.code t.codeSize t.memorySize = .ok m ∧
      ((∀ n m', m.Reaches n m' → m'.Apart) →
        ∀ op holds, op.comparison? = some holds →
          ∀ pos leftExpr rightExpr ctx label start,
            CodeAt im.listing start ((Expr.binary pos op leftExpr rightExpr).code ctx label) →
              ∀ n m' left right, m.Reaches n m' →
                m'.ip = start + cellCount (leftExpr.code ctx label) +
                  cellCount (rightExpr.code ctx (label + leftExpr.labels)) →
                m'.memory.read? m'.sp = some right → m'.memory.read? (m'.sp + 1) = some left →
                ∃ k m'', m'.Reaches k m'' ∧
                  m''.ip = start +
                    cellCount ((Expr.binary pos op leftExpr rightExpr).code ctx label) ∧
                  m''.sp = m'.sp + 1 ∧
                  m''.memory.read? m''.sp = some (if holds left right then 1 else 0)) := by
  rcases loaded hbuild hcode with ⟨w, m, ty, hloaded⟩
  refine ⟨w.im, m, hloaded.listed, hloaded.encoded, hloaded.load, ?_⟩
  intro hapart op holds hop pos leftExpr rightExpr ctx label start hitems n m' left right hreaches
    hip hright hleft
  have hlogical := BinaryOp.isLogical_of_comparison hop
  rcases hloaded.trace hreaches fun j m'' _ => hapart j m'' with ⟨c, _, hc, _⟩
  rcases hc.stack_of_reads hright hleft with ⟨rest, hstack⟩
  have hitems' : CodeAt w.im.listing start
      (leftExpr.code ctx label ++ (rightExpr.code ctx (label + leftExpr.labels) ++
        op.finishCode (label + leftExpr.labels + rightExpr.labels))) := by
    simpa [Expr.code, hlogical] using hitems
  have hfinish : CodeAt w.im.listing c.ip
      (op.finishCode (label + leftExpr.labels + rightExpr.labels)) := by
    rw [← hc.ip, hip]
    exact hitems'.right.right
  have hfinishes : Outcome w.im w.memorySize none 0 c _
      ((op.eval left right).run { Store.empty with printed := c.output }) :=
    BinaryOp.finishes hlogical _ hfinish hstack rfl fun _ _ _ => Bound.allows_none _
  rw [BinaryOp.eval_comparison hop] at hfinishes
  have hlater : ∀ k m'', m'.Reaches k m'' → m''.Apart := fun k m'' hmore =>
    hapart _ m'' (hreaches.trans hmore)
  cases hfinishes with
  | full _ _ hleads =>
      rcases hc.leads hlater hleads with ⟨k, m'', c', _, hmore, hc', hfull⟩
      exact absurd (hc'.apart_iff.mp (hlater k m'' hmore)) (Nat.not_lt.mpr hfull)
  | value hleads =>
      rcases hc.leads hlater hleads with ⟨k, m'', c', _, hmore, hc', _, rfl, _⟩
      refine ⟨k, m'', hmore, ?_, ?_, hc'.read_top rfl⟩
      · rw [hc'.ip]
        simp only [Expr.code, hlogical, Bool.false_eq_true, if_false, cellCount_append, ← hc.ip,
          hip]
        omega
      · rcases hc.pop hstack with ⟨_, hpopped⟩
        exact hc'.sp.trans hpopped.sp.symm

/-- Prints whether the left number passes for greater than or equal to the right one. -/
def judging (left right : Int32) : Program :=
  { decls := []
    body := .print Written.start
      (.binary Written.start .ge (.int Written.start left) (.int Written.start right))
    pos := Written.start }

theorem comparison_run_judging :
    let t : Target := {}
    ∃ b m, t.build (judging 5 (-3)) = .ok b ∧ isAddressable b.code.length = true ∧
      Machine.load b.code t.codeSize t.memorySize = .ok m ∧ (∀ n m', m.Reaches n m' → m'.Apart) ∧
      ∃ n m', m.Reaches n m' ∧ m'.ip = 15 ∧ m'.memory.read? m'.sp = some 1 := by
  intro t
  have hcompiled : (judging 5 (-3)).compiledRun t 20 = some (17, .ok [1], true) := by
    decide +kernel
  rcases returns_of_compiledRun (by decide) hcompiled nofun (by decide) with
    ⟨b, hbuild, hlength, _, hapart⟩
  have hcode : isAddressable b.code.length = true := by
    rw [hlength]
    decide
  rcases comparison_run hbuild hcode with ⟨im, m, hlisting, hencode, hload, hcompares⟩
  have hlisted : ((judging 5 (-3)).compile 10000).listing.map
      (fun l => (l.items.map Item.plain, l.encode)) =
        some ((judging 5 (-3)).body.code (context 10000) 0 ++ [.bare .halt],
          [1, 5, 1, -3, 1, 1, 4, 9, 13, 1, 1, 7, 15, 1, 0, 22, 0]) := by
    decide +kernel
  have hlisting' : ((judging 5 (-3)).compile 10000).listing = some im.listing := hlisting
  simp only [hlisting', Option.map_some, Option.some.injEq, Prod.mk.injEq] at hlisted
  have hitems : CodeAt im.listing 0 _ := ⟨[], im.listing.items, [], by simp, hlisted.1, rfl⟩
  have hoperands : (Machine.load [1, 5, 1, -3, 1, 1, 4, 9, 13, 1, 1, 7, 15, 1, 0, 22, 0] 10000
      10000).toOption.map (fun m => ((m.run 2).1, (m.run 2).2.ip,
        (m.run 2).2.memory.read? (m.run 2).2.sp, (m.run 2).2.memory.read? ((m.run 2).2.sp + 1))) =
      some (.outOfSteps, 4, some (-3), some 5) := by
    decide +kernel
  have hload' : Machine.load im.listing.encode 10000 10000 = .ok m := by
    rw [← hload, hencode]
    rfl
  simp only [← hlisted.2, hload', Except.toOption, Option.map_some, Option.some.injEq,
    Prod.mk.injEq] at hoperands
  rcases hoperands with ⟨hend, hip, hright, hleft⟩
  have hreaches : m.Reaches 2 (m.run 2).2 := Machine.Reaches.of_run (Prod.ext hend rfl)
  have hrun := hapart rfl m hload
  rcases hcompares hrun .ge _ rfl Written.start (.int Written.start 5) (.int Written.start (-3)) _
    0 0 hitems.left.left 2 _ 5 (-3) hreaches hip hright hleft with
    ⟨k, m'', hmore, hip', _, hresult⟩
  exact ⟨b, m, hbuild, hcode, hload, hrun, 2 + k, m'', hreaches.trans hmore, hip', hresult⟩

/-- Zero does not pass for greater than or equal to the smallest value. -/
theorem misjudged_prints :
    let t : Target := {}
    Int32.minValue ≤ 0 ∧
      ∃ b, t.build (judging 0 Int32.minValue) = .ok b ∧ t.Returns b.code (.ok [0]) := by
  have hcompiled : (judging 0 Int32.minValue).compiledRun {} 20 = some (17, .ok [0], true) := by
    decide +kernel
  rcases returns_of_compiledRun (by decide) hcompiled nofun (by decide) with
    ⟨b, hbuild, _, hreturns, _⟩
  exact ⟨by decide, b, hbuild, hreturns⟩

end Program

end ClassLet
