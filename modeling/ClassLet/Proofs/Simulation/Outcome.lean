import ClassLet.Proofs.Machine.Blocks
import ClassLet.Proofs.Semantics.Evaluation

/-!
# Outcomes

What a run of the machine and the result of an evaluation have to do with each other. A value is
reached by the run, a failure stops it at the instruction that fails, and an evaluation that runs
out of fuel stands for a run of at least as many steps. Instead of any of these the heap and the
stack may meet.

Main statement: `Outcome.bind`, outcomes are composed as evaluations are.
-/

namespace ClassLet

namespace Config

/-- The next instruction divides by zero. -/
structure DividesByZero (im : Image) (st : Store) (c : Config) : Prop where
  code : CodeAt im.listing c.ip [.bare .div]
  stack : ∃ left rest, c.stack = 0 :: left :: rest
  output : c.output = st.printed

/-- The next instruction loads the dispatch pointer of `null`, in order to call a method. -/
structure CallsNull (im : Image) (st : Store) (c : Config) : Prop where
  code : ∃ offset, CodeAt im.listing c.ip
    (.bare .load :: (Code.loadAt offset ++ [.bare .call]))
  stack : ∃ rest, c.stack = -1 :: rest
  output : c.output = st.printed

end Config

/-- How the machine goes on from a configuration, compared with the result of an evaluation. -/
inductive Outcome (im : Image) (memorySize : Nat) (bound : Bound) (fuel : Nat) (c : Config)
    {α : Type} (done : α → Store → Config → Prop) : EStateM.Result Failure Store α → Prop where
  | full (r : EStateM.Result Failure Store α) :
      bound = none →
      Leads im memorySize bound c (Config.Full memorySize) →
      Outcome im memorySize bound fuel c done r
  | value {a : α} {st : Store} :
      Leads im memorySize bound c (done a st) →
      Outcome im memorySize bound fuel c done (.ok a st)
  | divisionByZero {st : Store} :
      Leads im memorySize bound c (Config.DividesByZero im st) →
      Outcome im memorySize bound fuel c done (.error .divisionByZero st)
  | nullReceiver {st : Store} :
      Leads im memorySize bound c (Config.CallsNull im st) →
      Outcome im memorySize bound fuel c done (.error .nullReceiver st)
  | outOfFuel {st : Store} :
      LeadsIn im memorySize bound fuel c (fun _ => True) →
      Outcome im memorySize bound fuel c done (.error .outOfFuel st)

namespace Outcome

variable {im : Image} {memorySize : Nat} {bound : Bound} {fuel : Nat} {c c' : Config}
  {α β : Type} {done done' : α → Store → Config → Prop} {r : EStateM.Result Failure Store α}

theorem here {a : α} {st : Store} (h : done a st c) :
    Outcome im memorySize bound fuel c done (.ok a st) :=
  value (Leads.here h)

/-- A run in front of others. -/
theorem after {n : Nat} (hsteps : Steps im memorySize bound n c c')
    (h : Outcome im memorySize bound fuel c' done r) :
    Outcome im memorySize bound (n + fuel) c done r := by
  have hleads : ∀ {least : Nat} {goal : Config → Prop},
      LeadsIn im memorySize bound least c' goal →
      LeadsIn im memorySize bound (n + least) c goal := by
    intro least goal hgoal
    rcases hgoal with ⟨k, c'', hsteps', hle, hgoal⟩
    exact ⟨n + k, c'', hsteps.trans hsteps', Nat.add_le_add_left hle n, hgoal⟩
  have hfrom : ∀ {goal : Config → Prop},
      Leads im memorySize bound c' goal → Leads im memorySize bound c goal :=
    fun hgoal => (hleads hgoal).weaken (Nat.zero_le _) fun _ h => h
  cases h with
  | full _ hnone hgoal => exact full _ hnone (hfrom hgoal)
  | value hgoal => exact value (hfrom hgoal)
  | divisionByZero hgoal => exact divisionByZero (hfrom hgoal)
  | nullReceiver hgoal => exact nullReceiver (hfrom hgoal)
  | outOfFuel hgoal => exact outOfFuel (hleads hgoal)

theorem lower {fuel' : Nat} (h : Outcome im memorySize bound fuel c done r) (hle : fuel' ≤ fuel) :
    Outcome im memorySize bound fuel' c done r := by
  cases h with
  | full _ hnone hleads => exact full _ hnone hleads
  | value hleads => exact value hleads
  | divisionByZero hleads => exact divisionByZero hleads
  | nullReceiver hleads => exact nullReceiver hleads
  | outOfFuel hleads => exact outOfFuel (hleads.weaken hle fun _ h => h)

theorem step (hstep : Step im memorySize c c') (hallows : bound.Allows c')
    (h : Outcome im memorySize bound fuel c' done r) :
    Outcome im memorySize bound fuel c done r :=
  (after (Steps.step hstep hallows (Steps.refl c')) h).lower (Nat.le_add_left _ _)

/-- Straight-line code in front of a run. -/
theorem executes {items : List Item} (hcode : CodeAt im.listing c.ip items)
    (hexecutes : Executes im memorySize bound items c c')
    (h : Outcome im memorySize bound fuel { c' with ip := c.ip + cellCount items } done r) :
    Outcome im memorySize bound fuel c done r := by
  rcases hexecutes hcode with ⟨n, hsteps⟩
  exact (after hsteps h).lower (Nat.le_add_left _ _)

theorem bind {st : Store} {f : Eval α} {g : α → Eval β} {done' : β → Store → Config → Prop}
    (h : Outcome im memorySize bound fuel c done (f.run st))
    (hnext : ∀ a st' c', done a st' c' →
      Outcome im memorySize bound fuel c' done' ((g a).run st')) :
    Outcome im memorySize bound fuel c done' ((f >>= g).run st) := by
  rw [EStateM.run_bind]
  cases hf : f.run st with
  | ok a st' =>
      rw [hf] at h
      cases h with
      | full _ hnone hleads => exact full _ hnone hleads
      | value hleads =>
          rcases hleads with ⟨n, c', hsteps, _, hdone⟩
          exact (after hsteps (hnext a st' c' hdone)).lower (Nat.le_add_left _ _)
  | error failure st' =>
      rw [hf] at h
      cases h with
      | full _ hnone hleads => exact full _ hnone hleads
      | divisionByZero hleads => exact divisionByZero hleads
      | nullReceiver hleads => exact nullReceiver hleads
      | outOfFuel hleads => exact outOfFuel hleads

/-- Code behind an evaluation. -/
theorem andThen (h : Outcome im memorySize bound fuel c done r)
    (hnext : ∀ a st c', done a st c' → Outcome im memorySize bound fuel c' done' (.ok a st)) :
    Outcome im memorySize bound fuel c done' r := by
  cases h with
  | full _ hnone hleads => exact full _ hnone hleads
  | value hleads =>
      rcases hleads with ⟨n, c', hsteps, _, hdone⟩
      exact (after hsteps (hnext _ _ c' hdone)).lower (Nat.le_add_left _ _)
  | divisionByZero hleads => exact divisionByZero hleads
  | nullReceiver hleads => exact nullReceiver hleads
  | outOfFuel hleads => exact outOfFuel hleads

theorem mono (h : Outcome im memorySize bound fuel c done r)
    (hdone : ∀ a st c', done a st c' → done' a st c') :
    Outcome im memorySize bound fuel c done' r :=
  h.andThen fun _ _ _ ha => here (hdone _ _ _ ha)

/-!
# Instructions
-/

variable {name : String} {a : Nat} {rest target : List Item}

theorem effect {op : Opcode} (hcode : CodeAt im.listing c.ip (.bare op :: rest))
    (heffect : Effect memorySize c op c') (hallows : bound.Allows c')
    (h : Outcome im memorySize bound fuel { c' with ip := c.ip + 1 } done r) :
    Outcome im memorySize bound fuel c done r :=
  step (Step.effect (hcode.opcode im.coherent) heffect) hallows h

theorem push {v : Int32} (hcode : CodeAt im.listing c.ip (.push v :: rest))
    (hallows : bound.Allows { c with ip := c.ip + 2, stack := v :: c.stack })
    (h : Outcome im memorySize bound fuel { c with ip := c.ip + 2, stack := v :: c.stack } done r) :
    Outcome im memorySize bound fuel c done r :=
  step (Step.push (hcode.opcode im.coherent) (hcode.operand im.coherent)) hallows h

theorem jump (hcode : CodeAt im.listing c.ip (.jump .jump name :: rest))
    (hlabel : CodeAt im.listing a (.label name :: target))
    (hallows : bound.Allows { c with ip := a })
    (h : Outcome im memorySize bound fuel { c with ip := a } done r) :
    Outcome im memorySize bound fuel c done r :=
  step (hcode.jump_step hlabel) hallows h

/-- The top of the stack is compared with a value, and equality leads to the label. -/
theorem branch {v x : Int32} {below : List Int32}
    (hcode : CodeAt im.listing c.ip (.push x :: .jump .jumpEq name :: rest))
    (hlabel : CodeAt im.listing a (.label name :: target)) (hstack : c.stack = v :: below)
    (hallows : ∀ e above, above.length ≤ 2 →
      bound.Allows { c with ip := e, stack := above ++ below })
    (htaken : v = x → Outcome im memorySize bound fuel { c with ip := a, stack := below } done r)
    (hpassed : v ≠ x →
      Outcome im memorySize bound fuel { c with ip := c.ip + 2 + 2, stack := below } done r) :
    Outcome im memorySize bound fuel c done r := by
  have hpush : Step im memorySize c { c with ip := c.ip + 2, stack := x :: c.stack } :=
    Step.push (hcode.opcode im.coherent) (hcode.operand im.coherent)
  rw [hstack] at hpush
  have hjump : CodeAt im.listing (c.ip + 2) (.jump .jumpEq name :: rest) := hcode.tail
  refine step hpush (hallows (c.ip + 2) [x, v] (Nat.le_refl 2)) ?_
  by_cases hv : v = x
  · exact step (hjump.taken_step rfl hlabel rfl (beq_iff_eq.mpr hv)) (hallows a [] (Nat.zero_le 2))
      (htaken hv)
  · exact step (hjump.passed_step rfl rfl (beq_eq_false_iff_ne.mpr hv))
      (hallows (c.ip + 2 + 2) [] (Nat.zero_le 2)) (hpassed hv)

end Outcome

end ClassLet
