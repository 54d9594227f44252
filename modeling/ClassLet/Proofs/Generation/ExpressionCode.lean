import ClassLet.Generation.Expression
import ClassLet.Proofs.Assembly.LabelNames

/-!
# The code of an expression

Generating the code of an expression adds items to the innermost stream of an emitter and takes
labels from its counter. Here the items are written down as lists: they depend on the number of
the first label that is free and on nothing else of the emitter. That generation adds the items of
`Expr.code` follows from how it lays them out on lines.
-/

namespace ClassLet

/-!
# Items
-/

namespace Item

def bare (op : Opcode) : Item :=
  .instruction { op, operand := none, line := 0 }

def withOperand (op : Opcode) (operand : Operand) : Item :=
  .instruction { op, operand := some operand, line := 0 }

def push (v : Int32) : Item :=
  withOperand .push (.value v)

def pushLabel (name : String) : Item :=
  withOperand .push (.label name)

def jump (op : Opcode) (name : String) : Item :=
  withOperand op (.label name)

end Item

/-!
# Sequences
-/

namespace Code

def advanceHeap : List Item :=
  [.bare .pushHp, .push 1, .bare .add, .bare .popHp]

def storeOnHeap : List Item :=
  .bare .pushHp :: .bare .store :: advanceHeap

def storeOnHeapRepeat : Nat → List Item
  | 0 => []
  | count + 1 => storeOnHeap ++ storeOnHeapRepeat count

def base (ctx : CodeContext) (r : Resolution) : List Item :=
  if ctx.insideClass && r.binding.level == 0 then [.push ctx.memorySize]
  else .bare .pushFp :: List.replicate r.distance (.bare .load)

def loadAt (offset : Int) : List Item :=
  [.push (Int32.ofInt offset), .bare .add, .bare .load]

def duplicate : List Item :=
  [.bare .popTm, .bare .pushTm, .bare .pushTm]

/-- The code of a choice between two values; `n` is the first free label. -/
def choose (n : Nat) (op : Opcode) (taken otherwise : Int32) : List Item :=
  [.jump op (labelText n), .push otherwise, .jump .jump (labelText (n + 1)),
    .label (labelText n), .push taken, .label (labelText (n + 1))]

end Code

namespace BinaryOp

/-- The code behind both operands. -/
def finishCode (n : Nat) : BinaryOp → List Item
  | add => [.bare .add]
  | sub => [.bare .sub]
  | mul => [.bare .mul]
  | div => [.bare .div]
  | eq => Code.choose n .jumpEq 1 0
  | le => Code.choose n .jumpLe 1 0
  | ge => .push 1 :: .bare .sub :: Code.choose n .jumpLe 0 1
  | and => []
  | or => []

def finishLabels : BinaryOp → Nat
  | eq | le | ge => 2
  | _ => 0

end BinaryOp

/-!
# Expressions
-/

namespace Expr

mutual

/-- How many labels the code of the expression defines. -/
def labels : Expr → Nat
  | .int .. => 0
  | .bool .. => 0
  | .null _ => 0
  | .missing _ => 0
  | .name .. => 0
  | .call _ _ args _ => labelsAll args
  | .methodCall _ _ _ args _ _ => labelsAll args
  | .construct _ _ args _ => labelsAll args
  | .ifElse _ condition whenTrue whenFalse =>
      2 + (condition.labels + (whenFalse.labels + whenTrue.labels))
  | .not _ operand => operand.labels + 2
  | .binary _ op left right =>
      if op.isLogical then 2 + (left.labels + right.labels)
      else left.labels + (right.labels + op.finishLabels)
  | .print _ operand => operand.labels
termination_by structural e => e

def labelsAll : List Expr → Nat
  | [] => 0
  | e :: es => e.labels + labelsAll es
termination_by structural es => es

end

mutual

/-- The code of a linked expression; `n` is the first free label. -/
def code (ctx : CodeContext) (n : Nat) : Expr → List Item
  | .int _ value => [.push value]
  | .bool _ value => [.push (if value then 1 else 0)]
  | .null _ => [.push (-1)]
  | .missing _ => []
  | .name _ target =>
      Code.base ctx (target.getD default) ++ Code.loadAt (target.getD default).binding.offset
  | .call _ _ args target =>
      .bare .pushFp :: codeReversed ctx n args ++
        (Code.base ctx (target.getD default) ++ (Code.duplicate ++
          ((if (target.getD default).binding.ty.isMethod then [.bare .load] else []) ++
            (Code.loadAt (target.getD default).binding.offset ++ [.bare .call]))))
  | .methodCall _ _ _ args receiver entry =>
      .bare .pushFp :: codeReversed ctx n args ++
        (Code.base ctx (receiver.getD default) ++
          (Code.loadAt (receiver.getD default).binding.offset ++ (Code.duplicate ++
            (.bare .load :: (Code.loadAt (entry.getD default).offset ++ [.bare .call])))))
  | .construct _ _ args target =>
      codeAll ctx n args ++ (Code.storeOnHeapRepeat args.length ++
        (.push (ctx.memorySize + Int32.ofInt (target.getD default).offset) :: .bare .load ::
          .bare .pushHp :: .bare .store :: .bare .pushHp :: Code.advanceHeap))
  | .ifElse _ condition whenTrue whenFalse =>
      condition.code ctx (n + 2) ++ (.push 1 :: .jump .jumpEq (labelText n) ::
        (whenFalse.code ctx (n + 2 + condition.labels) ++
          (.jump .jump (labelText (n + 1)) :: .label (labelText n) ::
            (whenTrue.code ctx (n + 2 + condition.labels + whenFalse.labels) ++
              [.label (labelText (n + 1))]))))
  | .not _ operand =>
      operand.code ctx n ++ (.push 0 :: Code.choose (n + operand.labels) .jumpEq 1 0)
  | .binary _ op left right =>
      if op.isLogical then
        left.code ctx (n + 2) ++ (.push op.decisive :: .jump .jumpEq (labelText n) ::
          (right.code ctx (n + 2 + left.labels) ++
            (.push op.decisive :: .jump .jumpEq (labelText n) :: .push op.undecided ::
              .jump .jump (labelText (n + 1)) :: .label (labelText n) ::
                .push op.decisive :: [.label (labelText (n + 1))])))
      else
        left.code ctx n ++ (right.code ctx (n + left.labels) ++
          op.finishCode (n + left.labels + right.labels))
  | .print _ operand => operand.code ctx n ++ [.bare .print]
termination_by structural e => e

/-- The code of expressions from the first to the last. -/
def codeAll (ctx : CodeContext) (n : Nat) : List Expr → List Item
  | [] => []
  | e :: es => e.code ctx n ++ codeAll ctx (n + e.labels) es
termination_by structural es => es

/-- The code of expressions from the last to the first. -/
def codeReversed (ctx : CodeContext) (n : Nat) : List Expr → List Item
  | [] => []
  | e :: es => codeReversed ctx n es ++ e.code ctx (n + labelsAll es)
termination_by structural es => es

end

end Expr

/-!
# What an emitter has written
-/

namespace Emitter

/-- The streams that are not finished, the innermost first, without lines. -/
def streams (e : Emitter) : List (List Item) :=
  (e.pending.map Array.toList ++ [e.main.toList]).map fun items => items.map Item.plain

/-- The second emitter has the given items behind those of the first, and more labels taken. -/
structure Added (e e' : Emitter) (items : List Item) (labels : Nat) : Prop where
  streams : ∀ first rest, e.streams = first :: rest → e'.streams = (first ++ items) :: rest
  finished : e'.finished = e.finished
  labelCount : e'.labelCount = e.labelCount + labels
  functionCount : e'.functionCount = e.functionCount

namespace Added

theorem refl (e : Emitter) : Added e e [] 0 where
  streams := by
    intro first rest h
    rw [List.append_nil]
    exact h
  finished := rfl
  labelCount := rfl
  functionCount := rfl

theorem trans {e e' e'' : Emitter} {xs ys : List Item} {a b : Nat} (h : Added e e' xs a)
    (h' : Added e' e'' ys b) : Added e e'' (xs ++ ys) (a + b) where
  streams := by
    intro first rest hfirst
    rw [← List.append_assoc]
    exact h'.streams _ _ (h.streams first rest hfirst)
  finished := h'.finished.trans h.finished
  labelCount := by
    rw [h'.labelCount, h.labelCount, Nat.add_assoc]
  functionCount := h'.functionCount.trans h.functionCount

end Added

theorem streams_cons (e : Emitter) : ∃ first rest, e.streams = first :: rest := by
  unfold streams
  cases e.pending with
  | nil => exact ⟨_, _, rfl⟩
  | cons body rest => exact ⟨_, _, rfl⟩

theorem put_added (e : Emitter) (item : Item) : Added e (e.put item) [item.plain] 0 where
  streams := by
    intro first rest h
    unfold put
    cases hpending : e.pending with
    | nil =>
        simp only [streams, hpending, List.map_nil, List.nil_append, List.map_cons,
          List.cons.injEq] at h
        rcases h with ⟨rfl, rfl⟩
        simp [streams]
    | cons body others =>
        simp only [streams, hpending, List.map_cons, List.cons_append, List.cons.injEq] at h
        rcases h with ⟨rfl, rfl⟩
        simp [streams]
  finished := by
    unfold put
    split <;> rfl
  labelCount := by
    unfold put
    split <;> rfl
  functionCount := by
    unfold put
    split <;> rfl

end Emitter

/-!
# What a generator writes
-/

/-- Whenever the generator succeeds from an emitter with `n` as the first free label, its result is
the given one and it has added the given items. -/
def Gen.Writes {α : Type} (g : Gen α) (n : Nat) (result : α) (items : List Item)
    (labels : Nat) : Prop :=
  ∀ e e' a, e.labelCount = n → g.run e = .ok (a, e') → a = result ∧ e.Added e' items labels

theorem Gen.bind_ok {α β : Type} {g : Gen α} {f : α → Gen β} {e e' : Emitter} {b : β}
    (h : (g >>= f).run e = .ok (b, e')) :
    ∃ a e₁, g.run e = .ok (a, e₁) ∧ (f a).run e₁ = .ok (b, e') := by
  rw [StateT.run_bind] at h
  cases hg : g.run e with
  | error failure =>
      rw [hg] at h
      cases h
  | ok r =>
      rw [hg] at h
      exact ⟨r.1, r.2, rfl, h⟩

namespace Gen.Writes

variable {α β : Type} {g : Gen α} {f : α → Gen β} {n : Nat} {a : α} {b : β}
  {xs ys : List Item} {k j : Nat}

theorem bind (hg : Writes g n a xs k) (hf : Writes (f a) (n + k) b ys j) :
    Writes (g >>= f) n b (xs ++ ys) (k + j) := by
  intro e e' result hcount hrun
  rcases Gen.bind_ok hrun with ⟨a', e₁, hfirst, hsecond⟩
  rcases hg e e₁ a' hcount hfirst with ⟨rfl, hadded⟩
  have hcount₁ : e₁.labelCount = n + k := by rw [hadded.labelCount, hcount]
  rcases hf e₁ e' result hcount₁ hsecond with ⟨rfl, hadded'⟩
  exact ⟨rfl, hadded.trans hadded'⟩

theorem rewritten (hg : Writes g n a xs k) (hitems : xs = ys) (hlabels : k = j) :
    Writes g n a ys j := by
  subst hitems hlabels
  exact hg

theorem pure (a : α) : Writes (Pure.pure a : Gen α) n a [] 0 := by
  intro e e' result _ hrun
  cases hrun
  exact ⟨rfl, Emitter.Added.refl e⟩

/-!
# Single items
-/

theorem atLine (line : Nat) : Writes (Gen.atLine line) n () [] 0 := by
  intro e e' result _ hrun
  cases hrun
  exact ⟨rfl, fun first rest h => by rw [List.append_nil]; exact h, rfl, rfl, rfl⟩

theorem emit (op : Opcode) : Writes (Gen.emit op) n () [.bare op] 0 := by
  intro e e' result _ hrun
  cases hrun
  exact ⟨rfl, e.put_added _⟩

theorem push (v : Int32) : Writes (Gen.push v) n () [.push v] 0 := by
  intro e e' result _ hrun
  cases hrun
  exact ⟨rfl, e.put_added _⟩

theorem pushLabel (name : String) : Writes (Gen.pushLabel name) n () [.pushLabel name] 0 := by
  intro e e' result _ hrun
  cases hrun
  exact ⟨rfl, e.put_added _⟩

theorem emitTimes (op : Opcode) (count : Nat) :
    Writes (Gen.emitTimes op count) n () (List.replicate count (.bare op)) 0 := by
  intro e e' result _ hrun
  cases hrun
  refine ⟨rfl, ?_⟩
  show e.Added (e.emitTimes op count) _ 0
  induction count generalizing e with
  | zero => exact Emitter.Added.refl e
  | succ count ih =>
      have hfirst : e.Added (e.emit op) [.bare op] 0 := e.put_added _
      exact hfirst.trans (ih (e.emit op) (hfirst.labelCount.trans ‹_›))

/-!
# Sequences
-/

theorem advanceHeap : Writes Gen.advanceHeap n () Code.advanceHeap 0 := by
  unfold Gen.advanceHeap
  exact rewritten (bind (emit .pushHp) (bind (push 1) (bind (emit .add) (emit .popHp)))) rfl rfl

theorem storeOnHeap : Writes Gen.storeOnHeap n () Code.storeOnHeap 0 := by
  unfold Gen.storeOnHeap
  exact rewritten (bind (emit .pushHp) (bind (emit .store) advanceHeap)) rfl rfl

theorem storeOnHeapRepeat (count : Nat) :
    Writes (Gen.storeOnHeapRepeat count) n () (Code.storeOnHeapRepeat count) 0 := by
  induction count with
  | zero => exact pure ()
  | succ count ih =>
      unfold Gen.storeOnHeapRepeat
      exact rewritten (bind storeOnHeap ih) rfl rfl

end Gen.Writes

end ClassLet
