import ClassLet.Proofs.Generation.ExpressionCode

/-!
# The labels of an expression

The code of an expression defines every label that it takes exactly once and jumps to no others.

Main statements: `Expr.labelNames_code` and `Expr.uses_code`.
-/

namespace ClassLet

/-- The labels with the numbers from `n` on. -/
def labelRange (n count : Nat) : List String :=
  (List.range' n count).map labelText

@[simp]
theorem labelRange_zero (n : Nat) : labelRange n 0 = [] :=
  rfl

theorem labelRange_succ (n count : Nat) :
    labelRange n (count + 1) = labelText n :: labelRange (n + 1) count :=
  rfl

theorem labelRange_add (n a b : Nat) :
    labelRange n (a + b) = labelRange n a ++ labelRange (n + a) b := by
  simp only [labelRange, ← List.map_append]
  congr 1
  have happend : List.range' n a ++ List.range' (n + 1 * a) b = List.range' n (a + b) :=
    List.range'_append
  rw [Nat.one_mul] at happend
  exact happend.symm

/-!
# Definitions
-/

@[simp]
theorem labelNames_nil : labelNames [] = [] :=
  rfl

@[simp]
theorem labelNames_label (name : String) (items : List Item) :
    labelNames (.label name :: items) = name :: labelNames items :=
  rfl

@[simp]
theorem labelNames_instruction (i : Instruction) (items : List Item) :
    labelNames (.instruction i :: items) = labelNames items :=
  rfl

@[simp]
theorem labelNames_bare (op : Opcode) (items : List Item) :
    labelNames (.bare op :: items) = labelNames items :=
  rfl

@[simp]
theorem labelNames_push (v : Int32) (items : List Item) :
    labelNames (.push v :: items) = labelNames items :=
  rfl

@[simp]
theorem labelNames_pushLabel (name : String) (items : List Item) :
    labelNames (.pushLabel name :: items) = labelNames items :=
  rfl

@[simp]
theorem labelNames_jump (op : Opcode) (name : String) (items : List Item) :
    labelNames (.jump op name :: items) = labelNames items :=
  rfl

namespace Code

@[simp]
theorem labelNames_bareRepeat (op : Opcode) (count : Nat) :
    labelNames (List.replicate count (.bare op)) = [] := by
  induction count with
  | zero => rfl
  | succ count ih => simpa [List.replicate_succ] using ih

@[simp]
theorem labelNames_advanceHeap : labelNames advanceHeap = [] :=
  rfl

@[simp]
theorem labelNames_storeOnHeapRepeat (count : Nat) : labelNames (storeOnHeapRepeat count) = [] := by
  induction count with
  | zero => rfl
  | succ count ih => simp [storeOnHeapRepeat, storeOnHeap, ih]

@[simp]
theorem labelNames_base (ctx : CodeContext) (r : Resolution) : labelNames (base ctx r) = [] := by
  unfold base
  split <;> simp

@[simp]
theorem labelNames_loadAt (offset : Int) : labelNames (loadAt offset) = [] :=
  rfl

@[simp]
theorem labelNames_duplicate : labelNames duplicate = [] :=
  rfl

@[simp]
theorem labelNames_choose (n : Nat) (op : Opcode) (taken otherwise : Int32) :
    labelNames (choose n op taken otherwise) = labelRange n 2 :=
  rfl

end Code

@[simp]
theorem BinaryOp.labelNames_finishCode (op : BinaryOp) (n : Nat) :
    labelNames (op.finishCode n) = labelRange n op.finishLabels := by
  cases op <;> rfl

namespace Expr

mutual

theorem labelNames_code (ctx : CodeContext) (n : Nat) :
    ∀ e : Expr, (labelNames (e.code ctx n)).Perm (labelRange n e.labels)
  | .int _ _ => by simp [code, labels]
  | .bool _ _ => by simp [code, labels]
  | .null _ => by simp [code, labels]
  | .missing _ => by simp [code, labels]
  | .name _ _ => by simp [code, labels]
  | .call _ _ args target => by
      have hmethod : labelNames (if (target.getD default).binding.ty.isMethod then [.bare .load]
          else []) = [] := by split <;> rfl
      simpa [code, labels, hmethod] using labelNames_codeReversed ctx n args
  | .methodCall _ _ _ args _ _ => by
      simpa [code, labels] using labelNames_codeReversed ctx n args
  | .construct _ _ args _ => by
      simpa [code, labels] using labelNames_codeAll ctx n args
  | .ifElse _ condition whenTrue whenFalse => by
      have hcondition := labelNames_code ctx (n + 2) condition
      have hfalse := labelNames_code ctx (n + 2 + condition.labels) whenFalse
      have htrue := labelNames_code ctx (n + 2 + condition.labels + whenFalse.labels) whenTrue
      rw [List.perm_iff_count] at hcondition hfalse htrue ⊢
      intro name
      simp only [code, labels, labelRange_add, labelRange_succ, labelRange_zero, labelNames_append,
        labelNames_push, labelNames_jump, labelNames_label, labelNames_nil, List.count_append,
        List.count_cons, List.count_nil, hcondition, hfalse, htrue]
      omega
  | .not _ operand => by
      have hoperand := labelNames_code ctx n operand
      rw [List.perm_iff_count] at hoperand ⊢
      intro name
      simp only [code, labels, labelRange_add, labelNames_append, labelNames_push,
        Code.labelNames_choose, List.count_append, hoperand]
  | .binary _ op left right => by
      cases hop : op.isLogical with
      | true =>
          have hleft := labelNames_code ctx (n + 2) left
          have hright := labelNames_code ctx (n + 2 + left.labels) right
          rw [List.perm_iff_count] at hleft hright ⊢
          intro name
          simp only [code, labels, hop, if_true, labelRange_add, labelRange_succ, labelRange_zero,
            labelNames_append, labelNames_push, labelNames_jump, labelNames_label, labelNames_nil,
            List.count_append, List.count_cons, List.count_nil, hleft, hright]
          omega
      | false =>
          have hleft := labelNames_code ctx n left
          have hright := labelNames_code ctx (n + left.labels) right
          rw [List.perm_iff_count] at hleft hright ⊢
          intro name
          simp only [code, labels, hop, Bool.false_eq_true, if_false, labelRange_add,
            labelNames_append, BinaryOp.labelNames_finishCode, List.count_append, hleft, hright]
  | .print _ operand => by
      simpa [code, labels] using labelNames_code ctx n operand
termination_by structural e => e

theorem labelNames_codeAll (ctx : CodeContext) (n : Nat) :
    ∀ es : List Expr, (labelNames (codeAll ctx n es)).Perm (labelRange n (labelsAll es))
  | [] => by simp [codeAll, labelsAll]
  | e :: es => by
      have hfirst := labelNames_code ctx n e
      have hrest := labelNames_codeAll ctx (n + e.labels) es
      simp only [codeAll, labelsAll, labelRange_add, labelNames_append]
      exact hfirst.append hrest
termination_by structural es => es

theorem labelNames_codeReversed (ctx : CodeContext) (n : Nat) :
    ∀ es : List Expr, (labelNames (codeReversed ctx n es)).Perm (labelRange n (labelsAll es))
  | [] => by simp [codeReversed, labelsAll]
  | e :: es => by
      have hrest := labelNames_codeReversed ctx n es
      have hfirst := labelNames_code ctx (n + labelsAll es) e
      rw [codeReversed, labelsAll, Nat.add_comm e.labels, labelRange_add, labelNames_append]
      exact hrest.append hfirst
termination_by structural es => es

end

end Expr

/-!
# Uses
-/

/-- The instruction is complete, and a label that it refers to is one of the given ones. -/
def Item.Uses (names : List String) : Item → Prop
  | .label _ => True
  | .instruction i => i.WellFormed ∧ ∀ name, i.operand = some (.label name) → name ∈ names

/-- All items use the given labels only. -/
def Uses (names : List String) (items : List Item) : Prop :=
  ∀ item ∈ items, item.Uses names

namespace Uses

variable {names names' : List String} {xs ys : List Item}

theorem mono (h : Uses names xs) (hsub : names ⊆ names') : Uses names' xs := by
  intro item hitem
  have := h item hitem
  cases item with
  | label name => trivial
  | instruction i => exact ⟨this.1, fun name hname => hsub (this.2 name hname)⟩

@[simp]
theorem nil : Uses names [] := by
  intro item hitem
  cases hitem

@[simp]
theorem append_iff : Uses names (xs ++ ys) ↔ Uses names xs ∧ Uses names ys := by
  simp only [Uses, List.mem_append]
  constructor
  · intro h
    exact ⟨fun item hitem => h item (Or.inl hitem), fun item hitem => h item (Or.inr hitem)⟩
  · rintro ⟨hx, hy⟩ item (hitem | hitem)
    · exact hx item hitem
    · exact hy item hitem

@[simp]
theorem cons_iff {item : Item} : Uses names (item :: xs) ↔ item.Uses names ∧ Uses names xs := by
  simp [Uses]

@[simp]
theorem label (name : String) : (Item.label name).Uses names :=
  trivial

@[simp]
theorem bare_iff {op : Opcode} : (Item.bare op).Uses names ↔ op.hasOperand = false := by
  constructor
  · exact fun h => h.1.symm
  · exact fun h => ⟨h.symm, fun _ hname => nomatch hname⟩

@[simp]
theorem push (v : Int32) : (Item.push v).Uses names :=
  ⟨rfl, fun _ hname => nomatch hname⟩

@[simp]
theorem jump_iff {op : Opcode} {name : String} :
    (Item.jump op name).Uses names ↔ op.hasOperand = true ∧ name ∈ names := by
  constructor
  · exact fun h => ⟨h.1.symm, h.2 name rfl⟩
  · rintro ⟨hop, hname⟩
    refine ⟨hop.symm, ?_⟩
    rintro other ⟨⟩
    exact hname

@[simp]
theorem pushLabel_iff {name : String} : (Item.pushLabel name).Uses names ↔ name ∈ names := by
  have h : (Item.pushLabel name).Uses names ↔ Opcode.push.hasOperand = true ∧ name ∈ names :=
    jump_iff
  simpa [Opcode.hasOperand] using h

theorem bareRepeat {op : Opcode} (hop : op.hasOperand = false) (count : Nat) :
    Uses names (List.replicate count (.bare op)) := by
  intro item hitem
  rw [List.eq_of_mem_replicate hitem]
  exact bare_iff.mpr hop

@[simp]
theorem advanceHeap : Uses names Code.advanceHeap := by
  simp [Code.advanceHeap, Opcode.hasOperand]

@[simp]
theorem storeOnHeap : Uses names Code.storeOnHeap := by
  simp [Code.storeOnHeap, Opcode.hasOperand]

@[simp]
theorem storeOnHeapRepeat (count : Nat) : Uses names (Code.storeOnHeapRepeat count) := by
  induction count with
  | zero => exact nil
  | succ count ih => simp [Code.storeOnHeapRepeat, ih]

@[simp]
theorem base (ctx : CodeContext) (r : Resolution) : Uses names (Code.base ctx r) := by
  unfold Code.base
  split
  · simp
  · exact cons_iff.mpr ⟨bare_iff.mpr rfl, bareRepeat rfl _⟩

@[simp]
theorem loadAt (offset : Int) : Uses names (Code.loadAt offset) := by
  simp [Code.loadAt, Opcode.hasOperand]

@[simp]
theorem duplicate : Uses names Code.duplicate := by
  simp [Code.duplicate, Opcode.hasOperand]

theorem choose {n : Nat} {op : Opcode} (hop : op.hasOperand = true) (taken otherwise : Int32)
    (hnames : labelRange n 2 ⊆ names) : Uses names (Code.choose n op taken otherwise) := by
  simp only [labelRange_succ, labelRange_zero, List.cons_subset, List.nil_subset, and_true]
    at hnames
  rcases hnames with ⟨hfirst, hsecond⟩
  simp only [Code.choose, cons_iff, nil, and_true]
  exact ⟨jump_iff.mpr ⟨hop, hfirst⟩, push _, jump_iff.mpr ⟨rfl, hsecond⟩, trivial, push _, trivial⟩

end Uses

theorem BinaryOp.uses_finishCode (op : BinaryOp) (n : Nat) :
    Uses (labelRange n op.finishLabels) (op.finishCode n) := by
  cases op with
  | eq => exact Uses.choose rfl _ _ (List.Subset.refl _)
  | le => exact Uses.choose rfl _ _ (List.Subset.refl _)
  | ge =>
      have hchoose : Uses (labelRange n 2) (Code.choose n .jumpLe 0 1) :=
        Uses.choose rfl _ _ (List.Subset.refl _)
      simpa [finishCode, finishLabels, Opcode.hasOperand] using hchoose
  | _ => simp [finishCode, finishLabels, Opcode.hasOperand]

namespace Expr

mutual

theorem uses_code (ctx : CodeContext) (n : Nat) :
    ∀ e : Expr, Uses (labelRange n e.labels) (e.code ctx n)
  | .int _ _ => by simp [code]
  | .bool _ _ => by simp [code]
  | .null _ => by simp [code]
  | .missing _ => by simp [code]
  | .name _ _ => by simp [code]
  | .call _ _ args target => by
      have hargs := uses_codeReversed ctx n args
      have hmethod : Uses (labelRange n (labelsAll args))
          (if (target.getD default).binding.ty.isMethod then [.bare .load] else []) := by
        split <;> simp [Opcode.hasOperand]
      simpa [code, labels, Opcode.hasOperand] using ⟨hargs, hmethod⟩
  | .methodCall _ _ _ args _ _ => by
      have hargs := uses_codeReversed ctx n args
      simpa [code, labels, Opcode.hasOperand] using hargs
  | .construct _ _ args _ => by
      have hargs := uses_codeAll ctx n args
      simpa [code, labels, Opcode.hasOperand] using hargs
  | .ifElse _ condition whenTrue whenFalse => by
      have hcondition := uses_code ctx (n + 2) condition
      have hfalse := uses_code ctx (n + 2 + condition.labels) whenFalse
      have htrue := uses_code ctx (n + 2 + condition.labels + whenFalse.labels) whenTrue
      simp only [labels, labelRange_add, code]
      simp only [Uses.append_iff, Uses.cons_iff, Uses.nil, and_true]
      refine ⟨hcondition.mono ?_, Uses.push 1, ?_, hfalse.mono ?_, ?_, trivial, htrue.mono ?_,
        trivial⟩
      · exact fun x hx => by simp [hx]
      · simp [Opcode.hasOperand, labelRange_succ]
      · exact fun x hx => by simp [hx]
      · simp [Opcode.hasOperand, labelRange_succ]
      · exact fun x hx => by simp [hx]
  | .not _ operand => by
      have hoperand := uses_code ctx n operand
      simp only [labels, labelRange_add, code]
      simp only [Uses.append_iff, Uses.cons_iff]
      refine ⟨hoperand.mono ?_, Uses.push 0, Uses.choose rfl _ _ ?_⟩
      · exact fun x hx => by simp [hx]
      · exact fun x hx => by simp [hx]
  | .binary _ op left right => by
      cases hop : op.isLogical with
      | true =>
          have hleft := uses_code ctx (n + 2) left
          have hright := uses_code ctx (n + 2 + left.labels) right
          simp only [labels, hop, if_true, labelRange_add, code]
          simp only [Uses.append_iff, Uses.cons_iff, Uses.nil, and_true]
          refine ⟨hleft.mono ?_, Uses.push _, ?_, hright.mono ?_, Uses.push _, ?_, Uses.push _, ?_,
            trivial, Uses.push _, trivial⟩
          · exact fun x hx => by simp [hx]
          · simp [Opcode.hasOperand, labelRange_succ]
          · exact fun x hx => by simp [hx]
          · simp [Opcode.hasOperand, labelRange_succ]
          · simp [Opcode.hasOperand, labelRange_succ]
      | false =>
          have hleft := uses_code ctx n left
          have hright := uses_code ctx (n + left.labels) right
          have hfinish := op.uses_finishCode (n + left.labels + right.labels)
          simp only [labels, hop, Bool.false_eq_true, if_false, labelRange_add, code]
          simp only [Uses.append_iff]
          refine ⟨hleft.mono ?_, hright.mono ?_, hfinish.mono ?_⟩
          · exact fun x hx => by simp [hx]
          · exact fun x hx => by simp [hx]
          · exact fun x hx => by simp [hx]
  | .print _ operand => by
      have hoperand := uses_code ctx n operand
      simpa [code, labels, Opcode.hasOperand] using hoperand
termination_by structural e => e

theorem uses_codeAll (ctx : CodeContext) (n : Nat) :
    ∀ es : List Expr, Uses (labelRange n (labelsAll es)) (codeAll ctx n es)
  | [] => by simp [codeAll]
  | e :: es => by
      have hfirst := uses_code ctx n e
      have hrest := uses_codeAll ctx (n + e.labels) es
      rw [codeAll, labelsAll, labelRange_add, Uses.append_iff]
      exact ⟨hfirst.mono (List.subset_append_left _ _), hrest.mono (List.subset_append_right _ _)⟩
termination_by structural es => es

theorem uses_codeReversed (ctx : CodeContext) (n : Nat) :
    ∀ es : List Expr, Uses (labelRange n (labelsAll es)) (codeReversed ctx n es)
  | [] => by simp [codeReversed]
  | e :: es => by
      have hrest := uses_codeReversed ctx n es
      have hfirst := uses_code ctx (n + labelsAll es) e
      rw [codeReversed, labelsAll, Nat.add_comm e.labels, labelRange_add, Uses.append_iff]
      exact ⟨hrest.mono (List.subset_append_left _ _), hfirst.mono (List.subset_append_right _ _)⟩
termination_by structural es => es

end

end Expr

end ClassLet
