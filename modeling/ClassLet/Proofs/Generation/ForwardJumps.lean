import ClassLet.Proofs.Generation.ExpressionLabels

/-!
# Forward jumps

A jump in the code of an expression goes to a label that is defined behind it, in the same code. So
stretches of code can be put together in any order without a jump that leads back.

Main statement: `Expr.jumpsForward_code`.
-/

namespace ClassLet

/-- A jump has its target in the code; a call takes it from the stack. -/
def Opcode.isJump : Opcode → Bool
  | .jump => true
  | .jumpEq => true
  | .jumpLe => true
  | _ => false

/-- If the item is a jump, it goes to one of the given labels. -/
def Item.JumpsInto (names : List String) : Item → Prop
  | .label _ => True
  | .instruction i => i.op.isJump = true → ∃ name ∈ names, i.operand = some (.label name)

/-- Every jump goes to a label that is defined behind it. -/
def JumpsForward (items : List Item) : Prop :=
  ∀ before item after, items = before ++ item :: after → item.JumpsInto (labelNames after)

namespace Item.JumpsInto

variable {names names' : List String}

theorem mono {item : Item} (h : item.JumpsInto names) (hsub : names ⊆ names') :
    item.JumpsInto names' := by
  cases item with
  | label name => trivial
  | instruction i =>
      intro hjump
      rcases h hjump with ⟨name, hname, hoperand⟩
      exact ⟨name, hsub hname, hoperand⟩

@[simp]
theorem label (name : String) : (Item.label name).JumpsInto names :=
  trivial

@[simp]
theorem bare_iff {op : Opcode} : (Item.bare op).JumpsInto names ↔ op.isJump = false := by
  constructor
  · intro h
    refine Bool.eq_false_iff.mpr fun hjump => ?_
    rcases h hjump with ⟨name, _, hoperand⟩
    cases hoperand
  · intro hop hjump
    exact absurd (hop.symm.trans hjump) Bool.false_ne_true

@[simp]
theorem push (v : Int32) : (Item.push v).JumpsInto names :=
  fun hjump => nomatch hjump

@[simp]
theorem pushLabel (name : String) : (Item.pushLabel name).JumpsInto names :=
  fun hjump => nomatch hjump

@[simp]
theorem jump {op : Opcode} {name : String} (hname : name ∈ names) :
    (Item.jump op name).JumpsInto names :=
  fun _ => ⟨name, hname, rfl⟩

end Item.JumpsInto

namespace JumpsForward

variable {item : Item} {xs ys : List Item}

@[simp]
theorem nil : JumpsForward [] := by
  intro before item after h
  simp at h

@[simp]
theorem cons_iff :
    JumpsForward (item :: xs) ↔ item.JumpsInto (labelNames xs) ∧ JumpsForward xs := by
  constructor
  · intro h
    refine ⟨h [] item xs rfl, fun before other after hxs => ?_⟩
    exact h (item :: before) other after (congrArg _ hxs)
  · rintro ⟨hitem, hxs⟩ before other after h
    cases before with
    | nil =>
        cases h
        exact hitem
    | cons first before =>
        cases h
        exact hxs before other after rfl

theorem append (hx : JumpsForward xs) (hy : JumpsForward ys) : JumpsForward (xs ++ ys) := by
  induction xs with
  | nil => exact hy
  | cons item xs ih =>
      rw [cons_iff] at hx
      rw [List.cons_append, cons_iff, labelNames_append]
      exact ⟨hx.1.mono (List.subset_append_left _ _), ih hx.2⟩

theorem bareRepeat {op : Opcode} (hop : op.isJump = false) (count : Nat) :
    JumpsForward (List.replicate count (.bare op)) := by
  induction count with
  | zero => exact nil
  | succ count ih => exact cons_iff.mpr ⟨Item.JumpsInto.bare_iff.mpr hop, ih⟩

@[simp]
theorem advanceHeap : JumpsForward Code.advanceHeap := by
  simp [Code.advanceHeap, Opcode.isJump]

@[simp]
theorem storeOnHeap : JumpsForward Code.storeOnHeap := by
  simp [Code.storeOnHeap, Opcode.isJump]

@[simp]
theorem storeOnHeapRepeat (count : Nat) : JumpsForward (Code.storeOnHeapRepeat count) := by
  induction count with
  | zero => exact nil
  | succ count ih => exact storeOnHeap.append ih

@[simp]
theorem base (ctx : CodeContext) (r : Resolution) : JumpsForward (Code.base ctx r) := by
  unfold Code.base
  split
  · simp
  · exact cons_iff.mpr ⟨Item.JumpsInto.bare_iff.mpr rfl, bareRepeat rfl _⟩

@[simp]
theorem loadAt (offset : Int) : JumpsForward (Code.loadAt offset) := by
  simp [Code.loadAt, Opcode.isJump]

@[simp]
theorem duplicate : JumpsForward Code.duplicate := by
  simp [Code.duplicate, Opcode.isJump]

@[simp]
theorem choose (n : Nat) (op : Opcode) (taken otherwise : Int32) :
    JumpsForward (Code.choose n op taken otherwise) := by
  simp [Code.choose]

end JumpsForward

@[simp]
theorem BinaryOp.jumpsForward_finishCode (op : BinaryOp) (n : Nat) :
    JumpsForward (op.finishCode n) := by
  cases op <;> simp [finishCode, Opcode.isJump]

namespace Expr

open JumpsForward

mutual

theorem jumpsForward_code (ctx : CodeContext) (n : Nat) :
    ∀ e : Expr, JumpsForward (e.code ctx n)
  | .int _ _ => by simp [code]
  | .bool _ _ => by simp [code]
  | .null _ => by simp [code]
  | .missing _ => by simp [code]
  | .name _ _ => by
      rw [code]
      exact (base ctx _).append (loadAt _)
  | .call _ _ args target => by
      have hargs := jumpsForward_codeReversed ctx n args
      have hmethod : JumpsForward
          (if (target.getD default).binding.ty.isMethod then [.bare .load] else []) := by
        split <;> simp [Opcode.isJump]
      have hcall : JumpsForward [.bare .call] := by simp [Opcode.isJump]
      rw [code, List.cons_append, cons_iff]
      exact ⟨Item.JumpsInto.bare_iff.mpr rfl, hargs.append ((base ctx _).append (duplicate.append
        (hmethod.append ((loadAt _).append hcall))))⟩
  | .methodCall _ _ _ args receiver entry => by
      have hargs := jumpsForward_codeReversed ctx n args
      have hcall : JumpsForward (.bare .load :: (Code.loadAt (entry.getD default).offset ++
          [.bare .call])) := by
        rw [cons_iff]
        exact ⟨Item.JumpsInto.bare_iff.mpr rfl, (loadAt _).append (by simp [Opcode.isJump])⟩
      rw [code, List.cons_append, cons_iff]
      exact ⟨Item.JumpsInto.bare_iff.mpr rfl, hargs.append ((base ctx _).append ((loadAt _).append
        (duplicate.append hcall)))⟩
  | .construct _ _ args target => by
      have hargs := jumpsForward_codeAll ctx n args
      rw [code]
      exact hargs.append ((storeOnHeapRepeat _).append (by simp [Opcode.isJump]))
  | .ifElse _ condition whenTrue whenFalse => by
      have hcondition := jumpsForward_code ctx (n + 2) condition
      have hfalse := jumpsForward_code ctx (n + 2 + condition.labels) whenFalse
      have htrue := jumpsForward_code ctx (n + 2 + condition.labels + whenFalse.labels) whenTrue
      rw [code]
      refine hcondition.append ?_
      rw [cons_iff, cons_iff]
      refine ⟨Item.JumpsInto.push 1, Item.JumpsInto.jump (by simp), hfalse.append ?_⟩
      rw [cons_iff, cons_iff]
      exact ⟨Item.JumpsInto.jump (by simp), trivial, htrue.append (by simp)⟩
  | .not _ operand => by
      have hoperand := jumpsForward_code ctx n operand
      rw [code]
      exact hoperand.append (cons_iff.mpr ⟨Item.JumpsInto.push 0, choose _ _ _ _⟩)
  | .binary _ op left right => by
      rw [code]
      split
      · have hleft := jumpsForward_code ctx (n + 2) left
        have hright := jumpsForward_code ctx (n + 2 + left.labels) right
        refine hleft.append ?_
        rw [cons_iff, cons_iff]
        exact ⟨Item.JumpsInto.push _, Item.JumpsInto.jump (by simp), hright.append (by simp)⟩
      · have hleft := jumpsForward_code ctx n left
        have hright := jumpsForward_code ctx (n + left.labels) right
        exact hleft.append (hright.append (op.jumpsForward_finishCode _))
  | .print _ operand => by
      have hoperand := jumpsForward_code ctx n operand
      rw [code]
      exact hoperand.append (by simp [Opcode.isJump])
termination_by structural e => e

theorem jumpsForward_codeAll (ctx : CodeContext) (n : Nat) :
    ∀ es : List Expr, JumpsForward (codeAll ctx n es)
  | [] => by simp [codeAll]
  | e :: es => by
      rw [codeAll]
      exact (jumpsForward_code ctx n e).append (jumpsForward_codeAll ctx (n + e.labels) es)
termination_by structural es => es

theorem jumpsForward_codeReversed (ctx : CodeContext) (n : Nat) :
    ∀ es : List Expr, JumpsForward (codeReversed ctx n es)
  | [] => by simp [codeReversed]
  | e :: es => by
      rw [codeReversed]
      exact (jumpsForward_codeReversed ctx n es).append
        (jumpsForward_code ctx (n + labelsAll es) e)
termination_by structural es => es

end

end Expr

end ClassLet
