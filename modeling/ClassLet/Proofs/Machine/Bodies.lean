import ClassLet.Proofs.Machine.Configuration
import ClassLet.Proofs.Machine.Instructions

/-!
# Bodies in the code

A body begins at its label and ends at the jump in front of the next one, so where it begins says
where it ends. Its last instructions take the parameters off the stack one by one, so they say how
many there are.

Main statement: `Image.Body.unique`.
-/

namespace ClassLet

/-!
# Where a routine ends
-/

theorem length_le_of_begins {pre pre' inner post rest : List Item} {name name' : String}
    {i : Instruction}
    (h : pre ++ .label name :: (inner ++ .instruction i :: post) = pre' ++ .label name' :: rest)
    (hle : cellCount pre' ≤ cellCount pre) (hname' : IsFunctionLabel name')
    (hinner : ∀ n ∈ labelNames inner, ¬IsFunctionLabel n) : pre'.length ≤ pre.length := by
  rcases List.append_eq_append_iff.mp h with ⟨mid, rfl, hmid⟩ | ⟨mid, rfl, _⟩
  · cases mid with
    | nil => simp
    | cons first mid =>
        exfalso
        obtain ⟨rfl, hrest⟩ := List.cons.inj hmid
        rcases List.append_eq_append_iff.mp hrest with ⟨more, rfl, hmore⟩ | ⟨more, rfl, hmore⟩
        · -- The call would have no cells in front of it.
          cases more with
          | nil => cases hmore
          | cons item more =>
              obtain ⟨rfl, _⟩ := List.cons.inj hmore
              have hwidth := i.op.width_pos
              simp only [cellCount_append, cellCount_cons, Item.width] at hle
              omega
        · cases more with
          | nil => cases hmore
          | cons item more =>
              obtain ⟨rfl, _⟩ := List.cons.inj hmore
              exact hinner name' (by simp [labelNames, Item.labelName?]) hname'
  · simp

theorem length_le_of_ends {inner inner' post post' : List Item} {i i' : Instruction}
    (h : inner ++ .instruction i :: post = inner' ++ .instruction i' :: post')
    (hinner' : ∀ n ∈ labelNames inner', ¬IsFunctionLabel n)
    (hpost : post = [] ∨ ∃ n rest, post = .label n :: rest ∧ IsFunctionLabel n) :
    inner'.length ≤ inner.length := by
  rcases List.append_eq_append_iff.mp h with ⟨mid, rfl, hmid⟩ | ⟨mid, rfl, _⟩
  · cases mid with
    | nil => simp
    | cons first mid =>
        exfalso
        obtain ⟨rfl, rfl⟩ := List.cons.inj hmid
        rcases hpost with hnil | ⟨n, rest, hcons, hn⟩
        · simp at hnil
        · cases mid with
          | nil => cases hcons
          | cons item mid =>
              obtain ⟨rfl, _⟩ := List.cons.inj hcons
              exact hinner' n (by simp [labelNames, Item.labelName?]) hn
  · simp

namespace Image

variable {im : Image} {entry exit exit' : Nat}

theorem Routine.unique (h : im.Routine entry exit) (h' : im.Routine entry exit') :
    exit = exit' := by
  rcases h with ⟨pre, name, inner, line, post, hitems, hname, hinner, hpost, hentry, rfl⟩
  rcases h' with ⟨pre', name', inner', line', post', hitems', hname', hinner', hpost', hentry', rfl⟩
  rw [hitems, List.append_assoc, List.append_assoc] at hitems'
  have hpre : pre.length = pre'.length := Nat.le_antisymm
    (length_le_of_begins hitems'.symm (by omega) hname hinner')
    (length_le_of_begins hitems' (by omega) hname' hinner)
  obtain ⟨rfl, hrest⟩ := List.append_inj hitems' hpre
  obtain ⟨hlabel, hrest⟩ := List.cons.inj hrest
  have hlength : inner.length = inner'.length := Nat.le_antisymm
    (length_le_of_ends hrest.symm hinner hpost') (length_le_of_ends hrest hinner' hpost)
  obtain ⟨rfl, _⟩ := List.append_inj hrest hlength
  rw [hlabel]

end Image

/-!
# The last instructions of a body
-/

/-- The cells of operations that have no operands. -/
theorem CodeAt.opcode_of_bare {l : Listing} (hl : l.Coherent) {a : Nat} {ops : List Opcode}
    (h : CodeAt l a (ops.map Item.bare)) (hbare : ∀ op ∈ ops, op.hasOperand = false) {i : Nat}
    {op : Opcode} (hi : ops[i]? = some op) : l.encode[a + i]? = some op.cell := by
  induction ops generalizing a i with
  | nil => cases hi
  | cons first ops ih =>
      cases i with
      | zero =>
          cases hi
          exact h.opcode hl
      | succ i =>
          have hwidth : (Item.bare first).width = 1 := by
            simp [Item.width, Item.bare, Opcode.width, hbare first List.mem_cons_self]
          have htail := h.tail
          rw [hwidth] at htail
          have hrest := ih htail (fun op hop => hbare op (List.mem_cons_of_mem _ hop)) hi
          rwa [Nat.add_assoc, Nat.add_comm 1] at hrest

namespace Code

/-- The operations of `dropFrame`. -/
def drops (locals params : Nat) : List Opcode :=
  .popTm :: (List.replicate locals .pop ++ (.popRa ::
    (List.replicate (params + 1) .pop ++ [.popFp, .pushTm, .pushRa])))

theorem dropFrame_eq (locals params : Nat) :
    dropFrame locals params = (drops locals params).map Item.bare := by
  simp [dropFrame, drops, List.replicate_succ]

theorem drops_bare {locals params : Nat} {op : Opcode} (h : op ∈ drops locals params) :
    op.hasOperand = false := by
  simp only [drops, List.mem_cons, List.mem_append, List.mem_replicate, List.not_mem_nil,
    or_false] at h
  rcases h with rfl | ⟨_, rfl⟩ | rfl | ⟨_, rfl⟩ | rfl | rfl | rfl <;> rfl

theorem cellCount_dropFrame (locals params : Nat) :
    cellCount (dropFrame locals params) = locals + params + 6 := by
  have hcount : ∀ ops : List Opcode, (∀ op ∈ ops, op.hasOperand = false) →
      cellCount (ops.map Item.bare) = ops.length := by
    intro ops hops
    induction ops with
    | nil => rfl
    | cons op ops ih =>
        rw [List.forall_mem_cons] at hops
        simp [ih hops.2, Item.width, Item.bare, Opcode.width, hops.1, Nat.add_comm]
  rw [dropFrame_eq, hcount _ fun op hop => drops_bare hop]
  simp only [drops, List.length_cons, List.length_append, List.length_replicate, List.length_nil]
  omega

theorem cellCount_routine (label : String) (locals params : Nat) (inner : List Item) :
    cellCount (routine label locals params inner) =
      1 + 1 + cellCount inner + cellCount (dropFrame locals params) + 1 := by
  have hsetFp : Opcode.setFp.width = 1 := rfl
  have hpushRa : Opcode.pushRa.width = 1 := rfl
  have hcall : Opcode.call.width = 1 := rfl
  simp only [routine, epilogue, cellCount_cons, cellCount_append, cellCount_nil, Item.bare,
    Item.width, hsetFp, hpushRa, hcall]
  omega

theorem drops_popRa (locals params : Nat) : (drops locals params)[locals + 1]? = some .popRa := by
  simp [drops]

theorem drops_pop {params i : Nat} (locals : Nat) (h : i ≤ params) :
    (drops locals params)[locals + 2 + i]? = some .pop := by
  have hindex : locals + 2 + i = locals + (i + 1) + 1 := by omega
  rw [hindex, drops, List.getElem?_cons_succ,
    List.getElem?_append_right (by simp), List.length_replicate, Nat.add_sub_cancel_left,
    List.getElem?_cons_succ, List.getElem?_append_left (by simp; omega), List.getElem?_replicate,
    if_pos (by omega)]

theorem drops_pushRa (locals params : Nat) :
    (drops locals params)[locals + params + 5]? = some .pushRa := by
  have hindex : locals + params + 5 = locals + (params + 4) + 1 := by omega
  rw [hindex, drops, List.getElem?_cons_succ,
    List.getElem?_append_right (by simp), List.length_replicate, Nat.add_sub_cancel_left,
    List.getElem?_cons_succ, List.getElem?_append_right (by simp), List.length_replicate,
    show params + 3 - (params + 1) = 2 by omega]
  rfl

end Code

namespace Image

variable {im : Image} {params params' entry finish finish' exit exit' : Nat}

theorem Body.routine (h : im.Body params entry finish exit) : im.Routine entry exit := by
  rcases h with ⟨_, _, _, _, hroutine, _, _⟩
  exact hroutine

theorem Body.epilogue (h : im.Body params entry finish exit) :
    ∃ locals, CodeAt im.listing finish (Code.epilogue locals params) := by
  rcases h with ⟨label, locals, inner, hcode, _, rfl, _⟩
  have hinner : CodeAt im.listing (entry + 2) (inner ++ Code.epilogue locals params) :=
    hcode.tail.tail.tail
  exact ⟨locals, hinner.right⟩

theorem Routine.begins (h : im.Routine entry exit) : im.Entry entry := by
  rcases h with ⟨pre, name, inner, line, post, hitems, hname, _, _, rfl, _⟩
  have hlabel : CodeAt im.listing (cellCount pre) (.label name :: _) :=
    ⟨pre, .label name :: (inner ++ .instruction { op := .call, operand := none, line } :: post), [],
      by simp [hitems], rfl, rfl⟩
  exact ⟨name, hname, hlabel.address im.coherent⟩

/-- The code of a routine, placed as one, is that of a body. -/
theorem Routine.body {label : String} {locals : Nat} {inner : List Item}
    (h : im.Routine entry exit)
    (hcode : CodeAt im.listing entry (Code.routine label locals params inner))
    (hexit : exit + 1 = entry + cellCount (Code.routine label locals params inner)) :
    im.Body params entry (entry + 2 + cellCount inner) exit := by
  rw [Code.cellCount_routine] at hexit
  exact ⟨label, locals, inner, hcode, h, rfl, by omega⟩

theorem Body.drops (h : im.Body params entry finish exit) :
    ∃ locals, exit = finish + locals + params + 6 ∧
      ∀ i op, (Code.drops locals params)[i]? = some op → im.code[finish + i]? = some op.cell := by
  rcases h with ⟨label, locals, inner, hcode, _, rfl, rfl⟩
  refine ⟨locals, by rw [Code.cellCount_dropFrame]; omega, fun i op hi => ?_⟩
  have hinner : CodeAt im.listing (entry + 2) (inner ++ Code.epilogue locals params) :=
    hcode.tail.tail.tail
  have hdrop := hinner.right.left
  rw [Code.dropFrame_eq] at hdrop
  exact hdrop.opcode_of_bare im.coherent (fun op hop => Code.drops_bare hop) hi

/-- The jump at the end of a body takes its target from where the return address was put. -/
theorem Body.pushRa (h : im.Body params entry finish exit) :
    ∃ a, exit = a + 1 ∧ im.code[a]? = some Opcode.pushRa.cell := by
  rcases h.drops with ⟨locals, rfl, hcells⟩
  exact ⟨_, by omega, hcells _ _ (Code.drops_pushRa locals params)⟩

theorem Body.params_le (h : im.Body params entry finish exit)
    (h' : im.Body params' entry finish' exit) : params' ≤ params := by
  rcases h.drops with ⟨locals, hexit, hcells⟩
  rcases h'.drops with ⟨locals', hexit', hcells'⟩
  refine Nat.le_of_not_lt fun hlt => ?_
  -- Where the shorter one restores the return address, the longer one still takes a parameter off.
  have hrestores := hcells _ _ (Code.drops_popRa locals params)
  have hindex : params' - params - 1 ≤ params' := by omega
  have hdrops := hcells' _ _ (Code.drops_pop locals' hindex)
  rw [show finish' + (locals' + 2 + (params' - params - 1)) = finish + (locals + 1) by omega,
    hrestores] at hdrops
  exact absurd hdrops (by decide)

/-- Where a body begins says where it ends and how many parameters it has. -/
theorem Body.unique (h : im.Body params entry finish exit)
    (h' : im.Body params' entry finish' exit') : params = params' ∧ exit = exit' := by
  obtain rfl := h.routine.unique h'.routine
  exact ⟨Nat.le_antisymm (h'.params_le h) (h.params_le h'), rfl⟩

end Image

/-!
# Steps and calls
-/

variable {im : Image} {memorySize : Nat} {c c' : Config}

/-- An instruction without an operand that is not a call leaves the calls alone. -/
theorem Effect.calls {op : Opcode}
    (h : Effect memorySize c op c') : c'.calls = c.calls ∧ op ≠ .call := by
  cases h with
  | total htotal => exact ⟨rfl, fun h => by rw [h] at htotal; cases htotal⟩
  | _ => exact ⟨rfl, by simp⟩

namespace Config

/-- A call has entered a body, with a link on the arguments and these on the frame pointer. -/
structure Enters (im : Image) (link : Int32) (args rest : List Int32) (c c' : Config) : Prop where
  entry : im.Entry c'.ip
  body : ∃ finish exit, im.Body args.length c'.ip finish exit
  stack : c'.stack = link :: (args ++ c'.fp :: rest)
  ra : c'.ra = codeAddress (c.ip + 1)
  calls : c'.calls = { entry := c'.ip, back := c.ip + 1, fp := c'.fp, rest, result := none } ::
    c.calls

/-- The innermost call has been left, with the result in place of its frame. -/
structure Leaves (im : Image) (activation : Activation) (v : Int32) (c c' : Config) : Prop where
  behind : ¬im.Entry c'.ip
  calls : c.calls = activation :: c'.calls
  ip : c'.ip = activation.back
  stack : c'.stack = v :: activation.rest
  fp : c'.fp = activation.fp
  result : activation.result = some v

end Config

namespace Step

theorem call_cases (h : Step im memorySize c c')
    (hcall : im.code[c.ip]? = some Opcode.call.cell) :
    (∃ link args rest, c.Enters im link args rest c') ∨ ∃ activation v, c.Leaves im activation v c'
    := by
  have hother : ∀ {op : Opcode}, im.code[c.ip]? = some op.cell → op = .call := by
    intro op hcell
    rw [hcall, Option.some.injEq] at hcell
    exact (Opcode.cell_inj hcell).symm
  cases h with
  | effect hcell heffect => exact absurd (hother hcell) heffect.calls.2
  | push hcell _ => cases hother hcell
  | jump hcell _ _ => cases hother hcell
  | taken hcell htest _ _ _ _ =>
      cases hother hcell
      cases htest
  | passed hcell htest _ _ _ =>
      cases hother hcell
      cases htest
  | enter _ hbody _ =>
      exact Or.inl ⟨_, _, _, hbody.routine.begins, ⟨_, _, hbody⟩, rfl, rfl, rfl⟩
  | finish hcell _ _ _ => cases hother hcell
  | leave _ hunder _ _ hfp hresult _ hback =>
      exact Or.inr ⟨_, _, hback, hunder, rfl, rfl, hfp, hresult⟩

/-- The other instructions leave the calls under way alone, apart from the result. -/
theorem other_cases (h : Step im memorySize c c')
    (hother : im.code[c.ip]? ≠ some Opcode.call.cell) :
    c'.calls = c.calls ∨ ∃ params exit activation calls v rest, c.calls = activation :: calls ∧
      im.Body params activation.entry c.ip exit ∧ c.stack = v :: rest ∧
      c'.calls = { activation with result := some v } :: calls := by
  cases h with
  | effect _ heffect => exact Or.inl heffect.calls.1
  | enter hcell _ _ => exact absurd hcell hother
  | finish _ hunder hbody hstack =>
      exact Or.inr ⟨_, _, _, _, _, _, hunder, hbody, hstack, rfl⟩
  | leave hcell _ _ _ _ _ _ _ => exact absurd hcell hother
  | _ => exact Or.inl rfl

end Step

end ClassLet
