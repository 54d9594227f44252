import ClassLet.Proofs.Simulation.States
import ClassLet.Proofs.Typing.TypedExpressions

/-!
# Operators

Code that follows an evaluation does so wherever it is placed. Following is compositional: the
code of an operator follows the evaluation of the operator if the codes of the operands follow
those of the operands. None of this looks at how the operands came about.

Main statements: one for each operator, such as `Follows.ifElse`.
-/

namespace ClassLet

/-- The bound leaves room for so many more cells on the stack. -/
def Bound.Room (bound : Bound) (c : Config) (cells : Nat) : Prop :=
  ∀ depth ∈ bound, c.stack.length + cells ≤ depth

theorem Bound.Room.mono {bound : Bound} {c : Config} {n cells : Nat} (h : bound.Room c cells)
    (hle : n ≤ cells) : bound.Room c n :=
  fun depth hdepth => Nat.le_trans (Nat.add_le_add_left hle _) (h depth hdepth)

/-- The code has been executed and its value is on the stack. -/
def Valued (w : World) (bound : Bound) (floor : List Int32) (c : Config) (st : Store) (ip : Nat)
    (ty : Ty) (v : Int32) (st' : Store) (c' : Config) : Prop :=
  Arrives w bound floor c st ip [v] st' c' ∧ Fits w (c'.snapshot st' floor) ty v

/-- Wherever the items are placed, the machine does what the evaluation does. -/
def Follows (w : World) (bound : Bound) (fuel : Nat) (p : Place) (cells : Nat) (items : List Item)
    (f : Eval Int32) (ty : Ty) : Prop :=
  ∀ c st, CodeAt w.im.listing c.ip items → At w bound p c st → bound.Room c cells →
    Outcome w.im w.memorySize bound fuel c
      (Valued w bound p.floor c st (c.ip + cellCount items) ty) (f.run st)

namespace Matches

variable {w : World} {bound : Bound} {floor : List Int32} {c c' : Config} {st : Store}

theorem allows (h : Matches w bound floor c st) (hheap : c'.heap = c.heap)
    (hroom : bound.Room c' 0) : bound.Allows c' := by
  intro depth hdepth
  refine ⟨?_, hroom depth hdepth⟩
  rw [hheap]
  apply h.bounded
  rintro rfl
  cases hdepth

end Matches

namespace Arrives

variable {w : World} {bound : Bound} {floor : List Int32} {c c' : Config} {st st' : Store}
  {a cells : Nat} {xs : List Int32}

theorem room (h : Arrives w bound floor c st a xs st' c') (hroom : bound.Room c cells) {n : Nat}
    (hle : xs.length + n ≤ cells) : bound.Room c' n := by
  intro depth hdepth
  have := hroom depth hdepth
  rw [h.stack, List.length_append]
  omega

theorem allows (h : Arrives w bound floor c st a xs st' c') (hroom : bound.Room c cells) (e : Nat)
    (above : List Int32) (hle : above.length ≤ cells) :
    bound.Allows { c' with ip := e, stack := above ++ c.stack } := by
  refine h.state.allows rfl fun depth hdepth => ?_
  have := hroom depth hdepth
  show (above ++ c.stack).length + 0 ≤ depth
  rw [List.length_append]
  omega

end Arrives

namespace Follows

variable {w : World} {bound : Bound} {fuel : Nat} {p : Place}

/-- A single value. -/
theorem push (v : Int32) {ty : Ty} (hfits : ∀ k, Fits w k ty v) :
    Follows w bound fuel p 1 [.push v] (pure v) ty := by
  intro c st hcode hat hroom
  have hallows : bound.Allows { c with stack := v :: c.stack } :=
    hat.state.allows rfl fun depth hdepth => hroom depth hdepth
  refine Outcome.executes hcode (Executes.push v hallows) ?_
  refine Outcome.here ⟨?_, hfits _⟩
  exact (Arrives.refl hat.state).rearranged rfl rfl rfl rfl rfl rfl rfl

theorem print {cells : Nat} {items : List Item} {f : Eval Int32} {ty : Ty}
    (h : Follows w bound fuel p cells items f ty) :
    Follows w bound fuel p (1 + cells) (items ++ [.bare .print])
      (do
        let v ← f
        Eval.printValue v
        return v) ty := by
  intro c st hcode hat hroom
  refine Outcome.bind (h c st hcode.left hat (hroom.mono (Nat.le_add_left _ _))) ?_
  rintro v st' c' ⟨harrives, hfits⟩
  have hcode' : CodeAt w.im.listing c'.ip [.bare .print] := harrives.ip ▸ hcode.right
  have hprint : Effect w.memorySize c' .print { c' with output := c'.output ++ [v] } :=
    Effect.print harrives.stack
  have hallows : bound.Allows { c' with output := c'.output ++ [v] } :=
    harrives.state.allows rfl (harrives.room hroom (Nat.le_add_right _ _))
  refine Outcome.executes hcode' (Executes.bare hprint hallows) ?_
  refine Outcome.here ⟨?_, hfits⟩
  refine { harrives with ip := ?_, state := ?_ }
  · rw [cellCount_append, ← Nat.add_assoc, harrives.ip]
  · exact (harrives.state.printed v).same rfl rfl rfl

end Follows

/-!
# Operators with both operands
-/

/-- What the code behind both operands reaches. -/
def Finished (w : World) (op : BinaryOp) (c : Config) (st : Store) (ip : Nat) (rest : List Int32)
    (v : Int32) (st' : Store) (c' : Config) : Prop :=
  st' = st ∧ c' = { c with ip, stack := v :: rest } ∧ ∀ k, Fits w k op.resultType v

theorem Fits.choice {w : World} {k : Snapshot} (holds : Prop) [Decidable holds] :
    Fits w k .bool (if holds then 1 else 0) := by
  split
  · exact Fits.bool (Or.inr rfl)
  · exact Fits.bool (Or.inl rfl)

theorem BinaryOp.finishes {w : World} {bound : Bound} {fuel : Nat} {op : BinaryOp}
    (hop : op.isLogical = false) (n : Nat) {c : Config} {st : Store} {left right : Int32}
    {rest : List Int32} (hcode : CodeAt w.im.listing c.ip (op.finishCode n))
    (hstack : c.stack = right :: left :: rest) (houtput : c.output = st.printed)
    (hallows : ∀ a above, above.length ≤ 3 →
      bound.Allows { c with ip := a, stack := above ++ rest }) :
    Outcome w.im w.memorySize bound fuel c
      (Finished w op c st (c.ip + cellCount (op.finishCode n)) rest)
      ((op.eval left right).run st) := by
  have hone : ∀ a v, bound.Allows { c with ip := a, stack := v :: rest } := fun a v =>
    hallows a [v] (by simp)
  cases op with
  | add =>
      refine Outcome.executes hcode (Executes.bare (Effect.total rfl hstack) (hone c.ip _)) ?_
      exact Outcome.here ⟨rfl, rfl, fun _ => Fits.int _⟩
  | sub =>
      refine Outcome.executes hcode (Executes.bare (Effect.total rfl hstack) (hone c.ip _)) ?_
      exact Outcome.here ⟨rfl, rfl, fun _ => Fits.int _⟩
  | mul =>
      refine Outcome.executes hcode (Executes.bare (Effect.total rfl hstack) (hone c.ip _)) ?_
      exact Outcome.here ⟨rfl, rfl, fun _ => Fits.int _⟩
  | div =>
      by_cases hzero : right = 0
      · subst hzero
        have heval : (BinaryOp.div.eval left 0).run st = .error .divisionByZero st := rfl
        rw [heval]
        exact Outcome.divisionByZero (Leads.here ⟨hcode, ⟨left, rest, hstack⟩, houtput⟩)
      · have heval : (BinaryOp.div.eval left right).run st = .ok (left / right) st := by
          simp only [BinaryOp.eval, if_neg hzero, EStateM.run_pure]
        rw [heval]
        refine Outcome.executes hcode (Executes.bare (Effect.div hstack hzero) (hone c.ip _)) ?_
        exact Outcome.here ⟨rfl, rfl, fun _ => Fits.int _⟩
  | eq =>
      refine Outcome.executes hcode (Executes.choose n rfl 1 0 hstack (hone c.ip)) ?_
      refine Outcome.here ⟨rfl, ?_, fun _ => Fits.choice _⟩
      simp only [beq_iff_eq]
  | le =>
      refine Outcome.executes hcode (Executes.choose n rfl 1 0 hstack (hone c.ip)) ?_
      refine Outcome.here ⟨rfl, ?_, fun _ => Fits.choice _⟩
      simp only [decide_eq_true_eq]
  | ge =>
      have hexecutes : Executes w.im w.memorySize bound (BinaryOp.ge.finishCode n) c
          { c with stack := (if left ≤ right - 1 then 0 else 1) :: rest } := by
        apply Executes.push_cons 1
        · rw [hstack]
          exact hallows c.ip [1, right, left] (by simp)
        intro a
        rw [hstack]
        have hsub : Effect w.memorySize { c with ip := a, stack := 1 :: right :: left :: rest }
            .sub { c with ip := a, stack := (right - 1) :: left :: rest } := Effect.total rfl rfl
        apply Executes.bare_cons hsub (hallows a [right - 1, left] (by simp))
        intro d
        have hchoose : Executes w.im w.memorySize bound (Code.choose n .jumpLe 0 1)
            { c with ip := d, stack := (right - 1) :: left :: rest } _ :=
          Executes.choose n rfl 0 1 rfl (hone d)
        simp only [decide_eq_true_eq] at hchoose
        exact hchoose
      refine Outcome.executes hcode hexecutes ?_
      refine Outcome.here ⟨rfl, rfl, fun _ => ?_⟩
      split
      · exact Fits.bool (Or.inl rfl)
      · exact Fits.bool (Or.inr rfl)
  | and => cases hop
  | or => cases hop

namespace Follows

variable {w : World} {bound : Bound} {fuel : Nat} {p : Place}

theorem binary {op : BinaryOp} (hop : op.isLogical = false) (n : Nat) {a b : Nat}
    {xs ys : List Item} {f g : Eval Int32} {leftType rightType : Ty}
    (hleft : Follows w bound fuel p a xs f leftType) (ha : 0 < a)
    (hright : Follows w bound fuel p b ys g rightType) (hb : 0 < b) :
    Follows w bound fuel p (1 + (a + b)) (xs ++ (ys ++ op.finishCode n))
      (do
        let l ← f
        if op.decidedBy l then
          return l
        let r ← g
        op.eval l r) op.resultType := by
  intro c st hcode hat hroom
  refine Outcome.bind (hleft c st hcode.left hat (hroom.mono (by omega))) ?_
  rintro l st₁ c₁ ⟨hleftArrives, hleftFits⟩
  have hundecided : op.decidedBy l = false := by cases op <;> first | rfl | cases hop
  simp only [hundecided, Bool.false_eq_true, if_false]
  have hcode₁ : CodeAt w.im.listing c₁.ip (ys ++ op.finishCode n) :=
    hleftArrives.ip ▸ hcode.right
  refine Outcome.bind (hright c₁ st₁ hcode₁.left (hat.arrived hleftArrives)
    (hleftArrives.room hroom (by simp only [List.length_singleton]; omega))) ?_
  rintro r st₂ c₂ ⟨hrightArrives, hrightFits⟩
  have hcode₂ : CodeAt w.im.listing c₂.ip (op.finishCode n) := hrightArrives.ip ▸ hcode₁.right
  have hboth := hleftArrives.trans hrightArrives
  refine (BinaryOp.finishes hop n hcode₂ hboth.stack hboth.state.output ?_).mono ?_
  · exact fun e above hlength => hboth.allows hroom e above (by omega)
  · rintro v st' c' ⟨rfl, rfl, hfits⟩
    refine ⟨hboth.rearranged ?_ rfl rfl rfl rfl rfl rfl, hfits _⟩
    simp only [cellCount_append, ← Nat.add_assoc, hrightArrives.ip, hleftArrives.ip]

theorem not (n : Nat) {a : Nat} {xs : List Item} {f : Eval Int32} {ty : Ty}
    (h : Follows w bound fuel p a xs f ty) (ha : 0 < a) :
    Follows w bound fuel p (1 + a) (xs ++ (.push 0 :: Code.choose n .jumpEq 1 0))
      (do
        let v ← f
        return if v = 0 then 1 else 0) .bool := by
  intro c st hcode hat hroom
  refine Outcome.bind (h c st hcode.left hat (hroom.mono (Nat.le_add_left _ _))) ?_
  rintro v st₁ c₁ ⟨harrives, hfits⟩
  have hstack : c₁.stack = v :: c.stack := harrives.stack
  have hallows : ∀ d above, above.length ≤ 2 →
      bound.Allows { c₁ with ip := d, stack := above ++ c.stack } :=
    fun d above hlength => harrives.allows hroom d above (by omega)
  have hcode₁ : CodeAt w.im.listing c₁.ip (.push 0 :: Code.choose n .jumpEq 1 0) :=
    harrives.ip ▸ hcode.right
  have hexecutes : Executes w.im w.memorySize bound (.push 0 :: Code.choose n .jumpEq 1 0) c₁
      { c₁ with stack := (if v = 0 then 1 else 0) :: c.stack } := by
    apply Executes.push_cons 0
    · rw [hstack]
      exact hallows c₁.ip [0, v] (by simp)
    intro d
    rw [hstack]
    have hchoose : Executes w.im w.memorySize bound (Code.choose n .jumpEq 1 0)
        { c₁ with ip := d, stack := 0 :: v :: c.stack } _ :=
      Executes.choose n rfl 1 0 rfl fun x => hallows d [x] (by simp)
    simp only [beq_iff_eq] at hchoose
    exact hchoose
  refine Outcome.executes hcode₁ hexecutes (Outcome.here ⟨?_, Fits.choice _⟩)
  refine harrives.rearranged ?_ rfl rfl rfl rfl rfl rfl
  rw [cellCount_append, ← Nat.add_assoc, harrives.ip]

/-!
# Branches
-/

/-- An operand that takes the place of the whole. -/
theorem resume {a cells : Nat} {items : List Item} {f : Eval Int32} {ty : Ty} {c c' : Config}
    {st st' : Store} (h : Follows w bound fuel p cells items f ty)
    (harrives : Arrives w bound p.floor c st a [] st' c')
    (hcode : CodeAt w.im.listing c'.ip items) (hat : At w bound p c st)
    (hroom : bound.Room c cells) :
    Outcome w.im w.memorySize bound fuel c'
      (Valued w bound p.floor c st (c'.ip + cellCount items) ty) (f.run st') := by
  have hroom' : bound.Room c' cells := harrives.room hroom (Nat.le_of_eq (Nat.zero_add _))
  refine (h c' st' hcode (hat.arrived harrives) hroom').mono ?_
  rintro v st'' c'' ⟨harrives', hfits⟩
  exact ⟨harrives.trans harrives', hfits⟩

theorem ifElse (n : Nat) {a b d : Nat} {xs ys zs : List Item} {f g h : Eval Int32}
    {found left right ty : Ty} (hcondition : Follows w bound fuel p a xs f found) (ha : 0 < a)
    (htrue : Follows w bound fuel p b ys g left) (hfalse : Follows w bound fuel p d zs h right)
    (hd : 0 < d) (hleft : w.hierarchy.isSubtype left ty = true)
    (hright : w.hierarchy.isSubtype right ty = true) :
    Follows w bound fuel p (1 + (a + b + d))
      (xs ++ (.push 1 :: .jump .jumpEq (labelText n) :: (zs ++ (.jump .jump (labelText (n + 1)) ::
        .label (labelText n) :: (ys ++ [.label (labelText (n + 1))])))))
      (do
        let holds ← f
        if holds = 1 then g else h) ty := by
  intro c st hcode hat hroom
  refine Outcome.bind (hcondition c st hcode.left hat (hroom.mono (by omega))) ?_
  rintro v st₁ c₁ ⟨harrives, _⟩
  have htest : CodeAt w.im.listing c₁.ip _ := harrives.ip ▸ hcode.right
  have hzs : CodeAt w.im.listing (c₁.ip + 2 + 2) (zs ++ _) := htest.tail.tail
  have hys : CodeAt w.im.listing (c₁.ip + 2 + 2 + cellCount zs + 2) (ys ++ _) :=
    hzs.right.tail.tail
  have hjumpEq : Opcode.jumpEq.width = 2 := rfl
  have hjump : Opcode.jump.width = 2 := rfl
  refine Outcome.branch htest hzs.right.tail harrives.stack
    (fun e above hlength => harrives.allows hroom e above (by omega)) ?_ ?_
  · intro hv
    rw [if_pos hv]
    have hback : Arrives w bound p.floor c st _ [] st₁
        { c₁ with ip := c₁.ip + 2 + 2 + cellCount zs + 2, stack := c.stack } :=
      harrives.rearranged rfl rfl rfl rfl rfl rfl rfl
    refine (htrue.resume hback hys.left hat (hroom.mono (by omega))).mono ?_
    rintro v' st₂ c₂ ⟨harrives₂, hfits₂⟩
    refine ⟨harrives₂.moved ?_, hfits₂.subtype hleft⟩
    simp only [harrives.ip, cellCount_append, cellCount_cons, Item.width_push, Item.width_jump,
      Item.width_label, cellCount_nil, hjumpEq, hjump]
    omega
  · intro hv
    rw [if_neg hv]
    have hback : Arrives w bound p.floor c st _ [] st₁
        { c₁ with ip := c₁.ip + 2 + 2, stack := c.stack } :=
      harrives.rearranged rfl rfl rfl rfl rfl rfl rfl
    refine (hfalse.resume hback hzs.left hat (hroom.mono (by omega))).andThen ?_
    rintro v' st₂ c₂ ⟨harrives₂, hfits₂⟩
    have hskip : CodeAt w.im.listing c₂.ip _ := harrives₂.ip ▸ hzs.right
    have hallows : bound.Allows { c₂ with ip := _ } :=
      harrives₂.state.allows rfl
        (harrives₂.room hroom (by simp only [List.length_singleton]; omega))
    refine Outcome.jump hskip hys.right hallows (Outcome.here ⟨?_, hfits₂.subtype hright⟩)
    refine harrives₂.rearranged ?_ harrives₂.stack rfl rfl rfl rfl rfl
    simp only [harrives.ip, cellCount_append, cellCount_cons, Item.width_push, Item.width_jump,
      Item.width_label, cellCount_nil, hjumpEq, hjump]
    omega

end Follows

namespace BinaryOp

variable {op : BinaryOp}

theorem decidedBy_iff (hop : op.isLogical = true) (v : Int32) :
    op.decidedBy v = true ↔ v = op.decisive := by
  cases op <;> first | exact beq_iff_eq | cases hop

/-- The right operand decides if the left one does not. -/
theorem eval_undecided (hop : op.isLogical = true) {left : Int32} (hleft : left ≠ op.decisive)
    (right : Int32) (st : Store) :
    (op.eval left right).run st =
      .ok (if right = op.decisive then op.decisive else op.undecided) st := by
  cases op with
  | and =>
      have hleft : ¬left = 0 := hleft
      by_cases hright : right = 0
      · simp only [eval, decisive, hright, or_true, if_true, EStateM.run_pure]
      · simp only [eval, decisive, undecided, hleft, hright, or_self, if_false, EStateM.run_pure]
  | or =>
      have hleft : ¬left = 1 := hleft
      by_cases hright : right = 1
      · simp only [eval, decisive, hright, or_true, if_true, EStateM.run_pure]
      · simp only [eval, decisive, undecided, hleft, hright, or_self, if_false, EStateM.run_pure]
  | _ => cases hop

theorem fits_logical (hop : op.isLogical = true) (w : World) (k : Snapshot) :
    Fits w k op.resultType op.decisive ∧ Fits w k op.resultType op.undecided := by
  cases op with
  | and => exact ⟨Fits.bool (Or.inl rfl), Fits.bool (Or.inr rfl)⟩
  | or => exact ⟨Fits.bool (Or.inr rfl), Fits.bool (Or.inl rfl)⟩
  | _ => cases hop

end BinaryOp

/-- The code of a logical operator, given that of the operands. -/
def Code.logical (op : BinaryOp) (n : Nat) (xs ys : List Item) : List Item :=
  xs ++ (.push op.decisive :: .jump .jumpEq (labelText n) :: (ys ++ (.push op.decisive ::
    .jump .jumpEq (labelText n) :: .push op.undecided :: .jump .jump (labelText (n + 1)) ::
      .label (labelText n) :: .push op.decisive :: [.label (labelText (n + 1))])))

theorem cellCount_logical (op : BinaryOp) (n : Nat) (xs ys : List Item) :
    cellCount (Code.logical op n xs ys) =
      cellCount xs + 2 + 2 + cellCount ys + 2 + 2 + 2 + 2 + 2 := by
  have hjumpEq : Opcode.jumpEq.width = 2 := rfl
  have hjump : Opcode.jump.width = 2 := rfl
  simp only [Code.logical, cellCount_append, cellCount_cons, Item.width_push, Item.width_jump,
    Item.width_label, cellCount_nil, hjumpEq, hjump]
  omega

namespace Follows

variable {w : World} {bound : Bound} {fuel : Nat} {p : Place}

theorem logical {op : BinaryOp} (hop : op.isLogical = true) (n : Nat) {a b : Nat}
    {xs ys : List Item} {f g : Eval Int32} {leftType rightType : Ty}
    (hleft : Follows w bound fuel p a xs f leftType) (ha : 0 < a)
    (hright : Follows w bound fuel p b ys g rightType) (hb : 0 < b) :
    Follows w bound fuel p (1 + (a + b)) (Code.logical op n xs ys)
      (do
        let l ← f
        if op.decidedBy l then
          return l
        let r ← g
        op.eval l r) op.resultType := by
  intro c st hcode hat hroom
  refine Outcome.bind (hleft c st hcode.left hat (hroom.mono (by omega))) ?_
  rintro l st₁ c₁ ⟨harrives₁, _⟩
  have htest : CodeAt w.im.listing c₁.ip _ := harrives₁.ip ▸ hcode.right
  have hys : CodeAt w.im.listing (c₁.ip + 2 + 2) (ys ++ _) := htest.tail.tail
  have hdecided := hys.right.tail.tail.tail.tail
  have hend : c.ip + cellCount (Code.logical op n xs ys) =
      c₁.ip + 2 + 2 + cellCount ys + 2 + 2 + 2 + 2 + 2 := by
    rw [cellCount_logical, harrives₁.ip]
    omega
  rw [hend]
  have hfits := BinaryOp.fits_logical hop w
  -- Both operands lead here if they decide.
  have hfinish : ∀ {st' : Store} {c' : Config},
      c'.ip = c₁.ip + 2 + 2 + cellCount ys + 2 + 2 + 2 + 2 →
      Arrives w bound p.floor c st c'.ip [] st' c' →
      Outcome w.im w.memorySize bound fuel c'
        (Valued w bound p.floor c st (c₁.ip + 2 + 2 + cellCount ys + 2 + 2 + 2 + 2 + 2)
          op.resultType) (.ok op.decisive st') := by
    intro st' c' hip harrives
    have hpush : CodeAt w.im.listing c'.ip (.push op.decisive :: _) := hip ▸ hdecided.tail
    have hstack : c'.stack = c.stack := harrives.stack
    refine Outcome.push hpush ?_ (Outcome.here ⟨?_, (hfits _).1⟩)
    · rw [hstack]
      exact harrives.allows hroom _ [op.decisive] (by simp)
    · refine harrives.rearranged ?_ ?_ rfl rfl rfl rfl rfl
      · rw [hip]
      · rw [hstack]
        rfl
  refine Outcome.branch htest hdecided harrives₁.stack
    (fun e above hlength => harrives₁.allows hroom e above (by omega)) ?_ ?_
  · intro hl
    simp only [(BinaryOp.decidedBy_iff hop l).mpr hl, if_true]
    rw [hl]
    exact hfinish rfl (harrives₁.rearranged rfl rfl rfl rfl rfl rfl rfl)
  · intro hl
    have hundecided : op.decidedBy l ≠ true := fun h => hl ((BinaryOp.decidedBy_iff hop l).mp h)
    simp only [hundecided]
    have hback : Arrives w bound p.floor c st _ [] st₁
        { c₁ with ip := c₁.ip + 2 + 2, stack := c.stack } :=
      harrives₁.rearranged rfl rfl rfl rfl rfl rfl rfl
    refine Outcome.bind (hright.resume hback hys.left hat (hroom.mono (by omega))) ?_
    rintro r st₂ c₂ ⟨harrives₂, _⟩
    rw [BinaryOp.eval_undecided hop hl]
    have htest₂ : CodeAt w.im.listing c₂.ip _ := harrives₂.ip ▸ hys.right
    refine Outcome.branch htest₂ hdecided harrives₂.stack
      (fun e above hlength => harrives₂.allows hroom e above (by omega)) ?_ ?_
    · intro hr
      rw [if_pos hr]
      exact hfinish rfl (harrives₂.rearranged rfl rfl rfl rfl rfl rfl rfl)
    · intro hr
      rw [if_neg hr]
      have hpush : CodeAt w.im.listing (c₂.ip + 2 + 2) _ := htest₂.tail.tail
      refine Outcome.push hpush (harrives₂.allows hroom _ [op.undecided] (by simp)) ?_
      refine Outcome.jump hpush.tail hdecided.tail.tail
        (harrives₂.allows hroom _ [op.undecided] (by simp)) (Outcome.here ⟨?_, (hfits _).2⟩)
      exact harrives₂.rearranged rfl rfl rfl rfl rfl rfl rfl

end Follows

end ClassLet
