import ClassLet.Proofs.Machine.StraightLine

/-!
# Straight-line code

What the sequences that generation is built from do to a configuration, wherever they are placed.
The instruction pointer ends behind the sequence and is left out of the statements.

Main statements: `Executes.append`, and one statement for each sequence.
-/

namespace ClassLet

/-- From wherever the items are placed, the machine runs through them and gets from the one
configuration to the other. -/
def Executes (im : Image) (memorySize : Nat) (bound : Bound) (items : List Item)
    (c c' : Config) : Prop :=
  CodeAt im.listing c.ip items →
    ∃ n, Steps im memorySize bound n c { c' with ip := c.ip + cellCount items }

theorem Straight.executes {im : Image} {memorySize limit : Nat} {items : List Item}
    {c c' : Config} (h : Straight im memorySize limit items c c') :
    Executes im memorySize none items c c' := by
  suffices hall : ∀ a, CodeAt im.listing a items →
      ∃ n, Steps im memorySize none n { c with ip := a }
        { c' with ip := a + cellCount items } from hall c.ip
  induction items generalizing c with
  | nil =>
      cases h
      exact fun a _ => ⟨0, Steps.refl _⟩
  | cons item items ih =>
      intro a hcode
      rcases h.step hcode with ⟨c₁, hstep, _, hrest⟩
      rcases ih hrest (a + item.width) hcode.tail with ⟨n, hsteps⟩
      rw [cellCount_cons, ← Nat.add_assoc]
      exact ⟨n + 1, Steps.step hstep (Bound.allows_none _) hsteps⟩

namespace Executes

variable {im : Image} {memorySize : Nat} {bound : Bound} {c c' c'' : Config} {xs ys : List Item}

theorem nil (c : Config) : Executes im memorySize bound [] c c :=
  fun _ => ⟨0, Steps.refl c⟩

theorem append (h : Executes im memorySize bound xs c c')
    (h' : Executes im memorySize bound ys { c' with ip := c.ip + cellCount xs } c'') :
    Executes im memorySize bound (xs ++ ys) c c'' := by
  intro hcode
  rcases h hcode.left with ⟨n, hsteps⟩
  rcases h' hcode.right with ⟨k, hsteps'⟩
  refine ⟨n + k, ?_⟩
  rw [cellCount_append, ← Nat.add_assoc]
  exact hsteps.trans hsteps'

theorem bare {op : Opcode} (heffect : Effect memorySize c op { c' with ip := c.ip })
    (hallows : bound.Allows c') :
    Executes im memorySize bound [.bare op] c c' := by
  intro hcode
  have hop : im.code[c.ip]? = some op.cell := hcode.opcode im.coherent
  have hwidth : cellCount [.bare op] = 1 := by
    simp [Opcode.width, heffect.hasOperand]
  rw [hwidth]
  exact ⟨1, Steps.step (Step.effect hop heffect) hallows (Steps.refl _)⟩

theorem push (v : Int32) (hallows : bound.Allows { c with stack := v :: c.stack }) :
    Executes im memorySize bound [.push v] c { c with stack := v :: c.stack } := by
  intro hcode
  have hop : im.code[c.ip]? = some Opcode.push.cell := hcode.opcode im.coherent
  have hoperand : im.code[c.ip + 1]? = some v := hcode.operand im.coherent
  exact ⟨1, Steps.step (Step.push hop hoperand) hallows (Steps.refl _)⟩

theorem pushLabel (name : String) (hallows : bound.Allows
      { c with stack := im.listing.target name :: c.stack }) :
    Executes im memorySize bound [.pushLabel name] c
      { c with stack := im.listing.target name :: c.stack } := by
  intro hcode
  have hop : im.code[c.ip]? = some Opcode.push.cell := hcode.opcode im.coherent
  have hoperand : im.code[c.ip + 1]? = some (im.listing.target name) :=
    hcode.operand im.coherent
  exact ⟨1, Steps.step (Step.push hop hoperand) hallows (Steps.refl _)⟩

/-- One instruction in front of others. -/
theorem cons {item : Item} (h : Executes im memorySize bound [item] c c')
    (h' : Executes im memorySize bound ys { c' with ip := c.ip + cellCount [item] } c'') :
    Executes im memorySize bound (item :: ys) c c'' :=
  append h h'

theorem bare_cons {op : Opcode} (heffect : Effect memorySize c op c') (hallows : bound.Allows c')
    (h : ∀ a, Executes im memorySize bound ys { c' with ip := a } c'') :
    Executes im memorySize bound (.bare op :: ys) c c'' :=
  cons (bare (heffect.moved c.ip) hallows) (h _)

theorem push_cons (v : Int32) (hallows : bound.Allows { c with stack := v :: c.stack })
    (h : ∀ a, Executes im memorySize bound ys { c with ip := a, stack := v :: c.stack } c'') :
    Executes im memorySize bound (.push v :: ys) c c'' :=
  cons (push v hallows) (h _)

/-!
# Jumps
-/

end Executes

section

variable {im : Image} {memorySize : Nat} {c : Config} {name : String} {rest : List Item} {a : Nat}

theorem Listing.target_of_address {l : Listing} (h : l.address? name = some a) :
    l.target name = codeAddress a := by
  simp [Listing.target, h, codeAddress]

/-- The operand of a jump is the address of its label, which lies within the code. -/
theorem CodeAt.jump_operand {op : Opcode} (hcode : CodeAt im.listing c.ip (.jump op name :: rest))
    {target : List Item} (hlabel : CodeAt im.listing a (.label name :: target)) :
    im.code[c.ip + 1]? = some (codeAddress a) ∧ a ≤ im.code.length := by
  have hoperand : im.code[c.ip + 1]? = some (im.listing.target name) :=
    hcode.operand im.coherent
  rw [Listing.target_of_address (hlabel.address im.coherent)] at hoperand
  refine ⟨hoperand, ?_⟩
  rw [Image.code, im.coherent.length_encode]
  exact Nat.le_trans (Nat.le_add_right _ _) hlabel.le_cellCount

/-- A jump to a label, with the place of the label. -/
theorem CodeAt.jump_step (hcode : CodeAt im.listing c.ip (.jump .jump name :: rest))
    {target : List Item} (hlabel : CodeAt im.listing a (.label name :: target)) :
    Step im memorySize c { c with ip := a } := by
  rcases hcode.jump_operand hlabel with ⟨hoperand, hle⟩
  exact Step.jump (hcode.opcode im.coherent) hoperand hle

theorem CodeAt.taken_step {op : Opcode} {test : Int32 → Int32 → Bool} {left right : Int32}
    {below : List Int32} (hcode : CodeAt im.listing c.ip (.jump op name :: rest))
    (htest : op.test? = some test) {target : List Item}
    (hlabel : CodeAt im.listing a (.label name :: target))
    (hstack : c.stack = right :: left :: below) (htaken : test left right = true) :
    Step im memorySize c { c with ip := a, stack := below } := by
  rcases hcode.jump_operand hlabel with ⟨hoperand, hle⟩
  exact Step.taken (hcode.opcode im.coherent) htest hoperand hle hstack htaken

theorem CodeAt.passed_step {op : Opcode} {test : Int32 → Int32 → Bool} {left right : Int32}
    {below : List Int32} (hcode : CodeAt im.listing c.ip (.jump op name :: rest))
    (htest : op.test? = some test) (hstack : c.stack = right :: left :: below)
    (hpassed : test left right = false) :
    Step im memorySize c { c with ip := c.ip + 2, stack := below } :=
  Step.passed (hcode.opcode im.coherent) htest (hcode.operand im.coherent) hstack hpassed

end

theorem Opcode.width_of_test {op : Opcode} {test : Int32 → Int32 → Bool}
    (h : op.test? = some test) : op.width = 2 := by
  cases op <;> first | rfl | cases h

namespace Executes

variable {im : Image} {memorySize : Nat} {bound : Bound} {c : Config}

/-- A choice between two values by a comparison. -/
theorem choose (n : Nat) {op : Opcode} {test : Int32 → Int32 → Bool} (htest : op.test? = some test)
    (taken otherwise : Int32) {left right : Int32} {rest : List Int32}
    (hstack : c.stack = right :: left :: rest)
    (hallows : ∀ v, bound.Allows { c with stack := v :: rest }) :
    Executes im memorySize bound (Code.choose n op taken otherwise) c
      { c with stack := (if test left right then taken else otherwise) :: rest } := by
  intro hcode
  have hwidth := op.width_of_test htest
  have htakenLabel : CodeAt im.listing (c.ip + 6)
      [.label (labelText n), .push taken, .label (labelText (n + 1))] := by
    have := @CodeAt.right _ _ [.jump op (labelText n), .push otherwise,
      .jump .jump (labelText (n + 1))] _ hcode
    simpa [hwidth, show Opcode.jump.width = 2 from rfl] using this
  have hendLabel : CodeAt im.listing (c.ip + 8) [.label (labelText (n + 1))] := by
    have := @CodeAt.right _ _ [.label (labelText n), .push taken] _ htakenLabel
    simpa using this
  have hcount : cellCount (Code.choose n op taken otherwise) = 8 := by
    simp [Code.choose, hwidth, show Opcode.jump.width = 2 from rfl]
  have hempty : ∀ a, bound.Allows { c with ip := a, stack := rest } := by
    intro a depth hdepth
    rcases hallows 0 depth hdepth with ⟨hheap, hlength⟩
    exact ⟨hheap, Nat.le_of_succ_le hlength⟩
  rw [hcount]
  cases hholds : test left right with
  | true =>
      have hpushed : CodeAt im.listing (c.ip + 6) [.push taken, .label (labelText (n + 1))] := by
        simpa using htakenLabel.tail
      have hop : im.code[c.ip + 6]? = some Opcode.push.cell := hpushed.opcode im.coherent
      have hoperand : im.code[c.ip + 6 + 1]? = some taken := hpushed.operand im.coherent
      refine ⟨2, Steps.step (hcode.taken_step htest htakenLabel hstack hholds) (hempty _) ?_⟩
      exact Steps.step (Step.push hop hoperand) (hallows taken) (Steps.refl _)
  | false =>
      have hpushed : CodeAt im.listing (c.ip + 2) [.push otherwise,
          .jump .jump (labelText (n + 1)), .label (labelText n), .push taken,
          .label (labelText (n + 1))] := by
        have := hcode.tail
        simpa [hwidth] using this
      have hop : im.code[c.ip + 2]? = some Opcode.push.cell := hpushed.opcode im.coherent
      have hoperand : im.code[c.ip + 2 + 1]? = some otherwise := hpushed.operand im.coherent
      have hjump := hpushed.tail
      refine ⟨3, Steps.step (hcode.passed_step htest hstack hholds) (hempty _) ?_⟩
      refine Steps.step (Step.push hop hoperand) (hallows otherwise) ?_
      exact Steps.step (CodeAt.jump_step hjump hendLabel) (hallows otherwise) (Steps.refl _)

/-!
# Sequences on the stack
-/

theorem loadAt (offset : Int) {base v : Int32} {rest : List Int32} (hstack : c.stack = base :: rest)
    (hreads : ({ c with stack := rest } : Config).Reads memorySize (base + Int32.ofInt offset) v) :
    Executes im memorySize none (Code.loadAt offset) c { c with stack := v :: rest } := by
  apply push_cons _ (Bound.allows_none _)
  intro a
  rw [hstack]
  apply bare_cons (Effect.total rfl rfl) (Bound.allows_none _)
  intro b
  exact bare (Effect.load rfl (hreads.mono List.prefix_rfl List.suffix_rfl)) (Bound.allows_none _)

theorem duplicate {v : Int32} {rest : List Int32} (hstack : c.stack = v :: rest) :
    Executes im memorySize none Code.duplicate c { c with stack := v :: v :: rest, tm := v } := by
  apply bare_cons (Effect.popTm hstack) (Bound.allows_none _)
  intro a
  apply bare_cons Effect.pushTm (Bound.allows_none _)
  intro b
  exact bare Effect.pushTm (Bound.allows_none _)

/-- What stands at an offset from the top of the stack is put on top of it. -/
theorem find (offset : Int) {target v : Int32} {rest : List Int32}
    (hstack : c.stack = target :: rest)
    (hreads : c.Reads memorySize (target + Int32.ofInt offset) v) :
    Executes im memorySize none (Code.duplicate ++ Code.loadAt offset) c
      { c with stack := v :: target :: rest, tm := target } := by
  have hsame : c.stack <:+ target :: rest := hstack ▸ List.suffix_rfl
  exact append (duplicate hstack) (loadAt offset rfl (hreads.mono List.prefix_rfl hsame))

/-- What stands at an offset from the dispatch pointer of the object on top of the stack is put on
top of it. -/
theorem findMethod (offset : Int) {object pointer v : Int32} {rest : List Int32}
    (hstack : c.stack = object :: rest) (hpointer : c.Reads memorySize object pointer)
    (hreads : c.Reads memorySize (pointer + Int32.ofInt offset) v) :
    Executes im memorySize none (Code.duplicate ++ (.bare .load :: Code.loadAt offset)) c
      { c with stack := v :: object :: rest, tm := object } := by
  refine append (duplicate hstack) ?_
  have hsame : c.stack <:+ object :: rest := hstack ▸ List.suffix_rfl
  generalize c.ip + cellCount Code.duplicate = a
  have hload : Effect memorySize
      { c with ip := a, stack := object :: object :: rest, tm := object } .load
      { c with ip := a, stack := pointer :: object :: rest, tm := object } :=
    Effect.load rfl (hpointer.mono List.prefix_rfl hsame)
  apply bare_cons hload (Bound.allows_none _)
  intro b
  exact loadAt offset rfl (hreads.mono List.prefix_rfl hsame)

/-!
# Frames
-/

theorem popRepeat {vs rest : List Int32} (hstack : c.stack = vs ++ rest) :
    Executes im memorySize none (List.replicate vs.length (.bare .pop)) c
      { c with stack := rest } := by
  induction vs generalizing c with
  | nil =>
      rw [List.nil_append] at hstack
      rw [← hstack]
      exact nil c
  | cons v vs ih =>
      rw [List.length_cons, List.replicate_succ]
      apply bare_cons (Effect.pop hstack) (Bound.allows_none _)
      intro a
      exact ih rfl

/-- Behind the result, which has been put aside, the frame is taken off the stack; the result and
the return address stay. -/
theorem dropFrame {locals args rest : List Int32} {ra link fp : Int32}
    (hstack : c.stack = locals ++ ra :: link :: (args ++ fp :: rest)) :
    Executes im memorySize none (Code.dropFrame locals.length args.length).tail c
      { c with stack := ra :: c.tm :: rest, fp, ra } := by
  refine append (popRepeat hstack) ?_
  apply bare_cons (Effect.popRa rfl) (Bound.allows_none _)
  intro a
  apply bare_cons (Effect.pop rfl) (Bound.allows_none _)
  intro b
  refine append (popRepeat rfl) ?_
  apply bare_cons (Effect.popFp rfl) (Bound.allows_none _)
  intro d
  apply bare_cons Effect.pushTm (Bound.allows_none _)
  intro e
  exact bare Effect.pushRa (Bound.allows_none _)

end Executes

end ClassLet
