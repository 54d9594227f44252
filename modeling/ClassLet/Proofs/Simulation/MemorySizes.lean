import ClassLet.Proofs.Simulation.PlainPrograms

/-!
# Programs on memories of different sizes

The machine checks addresses against the size of its memory and does not compare the heap pointer
with the stack pointer, so a stack that runs into the heap may go unnoticed and change what is
printed. As long as the two are apart, the output is that of the evaluation, in which the size of
the memory does not occur.

Main statements: `Program.misled_prints`, a program whose output depends on the size, and
`Program.printed_eq`, the outputs of runs that keep heap and stack apart are equal.
-/

namespace ClassLet

namespace Program

/-!
# A stack that runs into the heap
-/

/-- Nothing reports that the memory is too small. -/
theorem misled_prints :
    let small : Target := { memorySize := 13 }
    let large : Target := { memorySize := 14 }
    small.codeSize = large.codeSize ∧
      ∃ b b', small.build misled = .ok b ∧ large.build misled = .ok b' ∧
        small.Returns b.code (.ok [6]) ∧ large.Returns b'.code (.ok [5]) := by
  rcases returns_of_compiledRun (by decide) misled_thirteen nofun (by decide) with
    ⟨b, hbuild, _, hreturns, _⟩
  rcases returns_of_compiledRun (by decide) misled_fourteen nofun (by decide) with
    ⟨b', hbuild', _, hreturns', _⟩
  exact ⟨rfl, b, b', hbuild, hbuild', hreturns, hreturns'⟩

/-!
# Output and memory size
-/

/-- What a run prints that keeps heap and stack apart is what the evaluation prints, with any fuel
that is large enough. -/
theorem eval_of_returns {p : Program} {t : Target} {b : Build} {printed : List Int32}
    (hbuild : t.build p = .ok b) (hcode : isAddressable b.code.length = true)
    (hapart : t.KeepsApart b.code) (hreturns : t.Returns b.code (.ok printed)) :
    ∃ n, ∀ fuel, n < fuel → ∃ v st, p.eval (fuel + 1) = .ok v st ∧ st.printed = printed := by
  rcases loaded hbuild hcode with ⟨w, m, ty, hloaded⟩
  obtain ⟨n, hn⟩ := id hreturns
  refine ⟨n, fun fuel hfuel => ?_⟩
  rcases hloaded.start.realizes (hapart m hloaded.load) (hloaded.follows fuel) with
    ⟨hvalue, hdivision, hnull, hfuelled, hstuck⟩
  have hother : ∀ {trap : Nat → Trap} {st : Store}, ¬m.TrapsWith trap st.printed := by
    intro trap st htraps
    rcases Target.Returns.of_traps hloaded.load htraps with ⟨ip, hreturns'⟩
    cases hreturns.unique hreturns'
  cases heval : p.eval (fuel + 1) with
  | ok v st =>
      cases hreturns.unique (Target.Returns.of_halts hloaded.load (hvalue v st heval))
      exact ⟨v, st, rfl, rfl⟩
  | error failure st =>
      cases failure with
      | divisionByZero => exact absurd (hdivision st heval) hother
      | nullReceiver => exact absurd (hnull st heval) hother
      | outOfFuel =>
          have hrun := hn fuel hfuel
          have hends := hfuelled st heval
          simp only [Target.run, hloaded.load] at hrun
          rcases hsteps : m.run fuel with ⟨ending, m'⟩
          rw [hsteps] at hrun hends
          obtain rfl : ending = .outOfSteps := hends
          cases hrun
      | stuck => exact absurd heval (hstuck st)

/-- The sizes of two memories do not show in what is printed. A jump goes to an address that is
the value of a cell, so the code has to be addressable as the memory is. -/
theorem printed_eq {p : Program} {t t' : Target} {b b' : Build} {printed printed' : List Int32}
    (hbuild : t.build p = .ok b) (hbuild' : t'.build p = .ok b')
    (hcode : isAddressable b.code.length = true) (hcode' : isAddressable b'.code.length = true)
    (hapart : t.KeepsApart b.code) (hapart' : t'.KeepsApart b'.code)
    (hreturns : t.Returns b.code (.ok printed)) (hreturns' : t'.Returns b'.code (.ok printed')) :
    printed = printed' := by
  rcases eval_of_returns hbuild hcode hapart hreturns with ⟨n, hn⟩
  rcases eval_of_returns hbuild' hcode' hapart' hreturns' with ⟨n', hn'⟩
  rcases hn (max n n' + 1) (by omega) with ⟨v, st, heval, rfl⟩
  rcases hn' (max n n' + 1) (by omega) with ⟨v', st', heval', rfl⟩
  rw [heval] at heval'
  cases heval'
  rfl

theorem printed_eq_misled :
    let t : Target := { memorySize := 14 }
    let t' : Target := { memorySize := 10000 }
    ∃ b b' printed, t.build misled = .ok b ∧ t'.build misled = .ok b' ∧
      isAddressable b.code.length = true ∧ isAddressable b'.code.length = true ∧
      t.KeepsApart b.code ∧ t'.KeepsApart b'.code ∧
      t.Returns b.code (.ok [5]) ∧ t'.Returns b'.code (.ok printed) ∧ [5] = printed := by
  have hlarge : ∃ printed,
      misled.compiledRun { memorySize := 10000 } 100 = some (98, .ok printed, true) :=
    ⟨[5], by decide +kernel⟩
  rcases hlarge with ⟨printed, hlarge⟩
  rcases returns_of_compiledRun (by decide) misled_fourteen nofun (by decide) with
    ⟨b, hbuild, hlength, hreturns, hapart⟩
  rcases returns_of_compiledRun (by decide) hlarge nofun (by decide) with
    ⟨b', hbuild', hlength', hreturns', hapart'⟩
  have hcode : isAddressable b.code.length = true := by
    rw [hlength]
    decide
  have hcode' : isAddressable b'.code.length = true := by
    rw [hlength']
    decide
  exact ⟨b, b', printed, hbuild, hbuild', hcode, hcode', hapart rfl, hapart' rfl, hreturns,
    hreturns', printed_eq hbuild hbuild' hcode hcode' (hapart rfl) (hapart' rfl) hreturns
      hreturns'⟩

end Program

end ClassLet
