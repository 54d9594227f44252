import ClassLet.Proofs.Assembly.EmittedStreams
import ClassLet.Proofs.Generation.ExpressionCode

/-!
# Lines of the instructions of an expression

The code of an expression consists of items of its own and of the code of its operands. The line
that an instruction gets is current since the code of some expression was begun, and it is not set
back behind an operand: an own instruction gets the line of the expression only as long as there is
no operand before it, and behind an operand the line on which the code of that operand ends.

Main statements: `Expr.generate_lays`, generation lays out every expression in this way, and
`Expr.generate_writes`, what it adds is the code of the expression.
-/

namespace ClassLet

/-- The item for a program line. -/
def Item.atLine (line : Nat) : Item → Item
  | instruction i => instruction { i with line }
  | label name => label name

/-!
# Last lines
-/

namespace Expr

mutual

/-- The line of the expression whose code is begun last in the code of this one. -/
def lastLine : Expr → Nat
  | .int pos _ => pos.line
  | .bool pos _ => pos.line
  | .null pos => pos.line
  | .missing pos => pos.line
  | .name id _ => id.pos.line
  | .call pos _ args _ => lastLineReversed pos.line args
  | .methodCall pos _ _ args _ _ => lastLineReversed pos.line args
  | .construct pos _ args _ => lastLineAll pos.line args
  | .ifElse _ _ whenTrue _ => whenTrue.lastLine
  | .not _ operand => operand.lastLine
  | .binary _ _ _ right => right.lastLine
  | .print _ operand => operand.lastLine
termination_by structural e => e

/-- The last line if the first expression comes first, and the given one without any. -/
def lastLineAll (line : Nat) : List Expr → Nat
  | [] => line
  | e :: es => lastLineAll e.lastLine es
termination_by structural es => es

/-- The last line if the first expression comes last, and the given one without any. -/
def lastLineReversed (line : Nat) : List Expr → Nat
  | [] => line
  | e :: _ => e.lastLine
termination_by structural es => es

end

end Expr

/-!
# Parts
-/

/-- An item that an expression emits itself, or the code of an operand from its first free label
on. -/
inductive Part where
  | own (item : Item)
  | operand (n : Nat) (e : Expr)

def ownAll (items : List Item) : List Part :=
  items.map .own

/-- The current line behind the parts, if it is the given one in front of them. -/
def lineBehind (line : Nat) (parts : List Part) : Nat :=
  parts.foldl (fun line part => match part with
    | .own _ => line
    | .operand _ e => e.lastLine) line

@[simp]
theorem lineBehind_nil (line : Nat) : lineBehind line [] = line :=
  rfl

@[simp]
theorem lineBehind_own (line : Nat) (item : Item) (parts : List Part) :
    lineBehind line (.own item :: parts) = lineBehind line parts :=
  rfl

@[simp]
theorem lineBehind_operand (line n : Nat) (e : Expr) (parts : List Part) :
    lineBehind line (.operand n e :: parts) = lineBehind e.lastLine parts :=
  rfl

@[simp]
theorem lineBehind_append (line : Nat) (xs ys : List Part) :
    lineBehind line (xs ++ ys) = lineBehind (lineBehind line xs) ys :=
  List.foldl_append

@[simp]
theorem lineBehind_ownAll (line : Nat) (items : List Item) :
    lineBehind line (ownAll items) = line := by
  induction items with
  | nil => rfl
  | cons item items ih => exact ih

/-- The items of a part, without lines. -/
def Part.code (ctx : CodeContext) : Part → List Item
  | own item => [item]
  | operand n e => e.code ctx n

theorem flatMap_ownAll (ctx : CodeContext) (items : List Item) :
    (ownAll items).flatMap (Part.code ctx) = items := by
  induction items with
  | nil => rfl
  | cons item items ih => exact congrArg (item :: ·) ih

namespace Expr

/-- Operands from the first to the last. -/
def operandsAll (n : Nat) : List Expr → List Part
  | [] => []
  | e :: es => .operand n e :: operandsAll (n + e.labels) es

/-- Operands from the last to the first. -/
def operandsReversed (n : Nat) : List Expr → List Part
  | [] => []
  | e :: es => operandsReversed n es ++ [.operand (n + labelsAll es) e]

/-- The parts of the code of an expression; `n` is the first free label. -/
def parts (ctx : CodeContext) (n : Nat) : Expr → List Part
  | .int _ value => [.own (.push value)]
  | .bool _ value => [.own (.push (if value then 1 else 0))]
  | .null _ => [.own (.push (-1))]
  | .missing _ => []
  | .name _ target =>
      ownAll (Code.base ctx (target.getD default) ++
        Code.loadAt (target.getD default).binding.offset)
  | .call _ _ args target =>
      .own (.bare .pushFp) :: operandsReversed n args ++
        ownAll (Code.base ctx (target.getD default) ++ (Code.duplicate ++
          ((if (target.getD default).binding.ty.isMethod then [.bare .load] else []) ++
            (Code.loadAt (target.getD default).binding.offset ++ [.bare .call]))))
  | .methodCall _ _ _ args receiver entry =>
      .own (.bare .pushFp) :: operandsReversed n args ++
        ownAll (Code.base ctx (receiver.getD default) ++
          (Code.loadAt (receiver.getD default).binding.offset ++ (Code.duplicate ++
            (.bare .load :: (Code.loadAt (entry.getD default).offset ++ [.bare .call])))))
  | .construct _ _ args target =>
      operandsAll n args ++ ownAll (Code.storeOnHeapRepeat args.length ++
        (.push (ctx.memorySize + Int32.ofInt (target.getD default).offset) :: .bare .load ::
          .bare .pushHp :: .bare .store :: .bare .pushHp :: Code.advanceHeap))
  | .ifElse _ condition whenTrue whenFalse =>
      [.operand (n + 2) condition, .own (.push 1), .own (.jump .jumpEq (labelText n)),
        .operand (n + 2 + condition.labels) whenFalse, .own (.jump .jump (labelText (n + 1))),
        .own (.label (labelText n)),
        .operand (n + 2 + condition.labels + whenFalse.labels) whenTrue,
        .own (.label (labelText (n + 1)))]
  | .not _ operand =>
      .operand n operand :: .own (.push 0) ::
        ownAll (Code.choose (n + operand.labels) .jumpEq 1 0)
  | .binary _ op left right =>
      if op.isLogical then
        [.operand (n + 2) left, .own (.push op.decisive), .own (.jump .jumpEq (labelText n)),
          .operand (n + 2 + left.labels) right, .own (.push op.decisive),
          .own (.jump .jumpEq (labelText n)), .own (.push op.undecided),
          .own (.jump .jump (labelText (n + 1))), .own (.label (labelText n)),
          .own (.push op.decisive), .own (.label (labelText (n + 1)))]
      else
        .operand n left :: .operand (n + left.labels) right ::
          ownAll (op.finishCode (n + left.labels + right.labels))
  | .print _ operand => [.operand n operand, .own (.bare .print)]

theorem lineBehind_operandsAll (line n : Nat) (es : List Expr) :
    lineBehind line (operandsAll n es) = lastLineAll line es := by
  induction es generalizing line n with
  | nil => simp [operandsAll, lastLineAll]
  | cons e es ih => simp [operandsAll, lastLineAll, ih]

theorem lineBehind_operandsReversed (line n : Nat) (es : List Expr) :
    lineBehind line (operandsReversed n es) = lastLineReversed line es := by
  cases es with
  | nil => simp [operandsReversed, lastLineReversed]
  | cons e es => simp [operandsReversed, lastLineReversed]

/-- Behind all parts of an expression its last line is the current one. -/
theorem lineBehind_parts (ctx : CodeContext) (n : Nat) (e : Expr) :
    lineBehind e.pos.line (e.parts ctx n) = e.lastLine := by
  cases e with
  | binary pos op left right =>
      cases hop : op.isLogical with
      | true => simp [parts, lastLine, hop]
      | false => simp [parts, lastLine, hop]
  | call pos callee args target =>
      simp [parts, lastLine, lineBehind_operandsReversed, Expr.pos]
  | methodCall pos object method args receiver entry =>
      simp [parts, lastLine, lineBehind_operandsReversed, Expr.pos]
  | construct pos className args target =>
      simp [parts, lastLine, lineBehind_operandsAll, Expr.pos]
  | _ => simp [parts, lastLine, Expr.pos]

theorem flatMap_operandsAll (ctx : CodeContext) (n : Nat) (es : List Expr) :
    (operandsAll n es).flatMap (Part.code ctx) = codeAll ctx n es := by
  induction es generalizing n with
  | nil => simp [operandsAll, codeAll]
  | cons e es ih => simp [operandsAll, codeAll, Part.code, ih]

theorem flatMap_operandsReversed (ctx : CodeContext) (n : Nat) (es : List Expr) :
    (operandsReversed n es).flatMap (Part.code ctx) = codeReversed ctx n es := by
  induction es with
  | nil => simp [operandsReversed, codeReversed]
  | cons e es ih => simp [operandsReversed, codeReversed, Part.code, ih]

/-- The code of the parts is the code of the expression. -/
theorem flatMap_parts (ctx : CodeContext) (n : Nat) (e : Expr) :
    (e.parts ctx n).flatMap (Part.code ctx) = e.code ctx n := by
  cases e with
  | binary pos op left right =>
      cases hop : op.isLogical with
      | true => simp [parts, code, Part.code, hop]
      | false => simp [parts, code, Part.code, flatMap_ownAll, hop]
  | call pos callee args target =>
      simp [parts, code, Part.code, flatMap_ownAll, flatMap_operandsReversed]
  | methodCall pos object method args receiver entry =>
      simp [parts, code, Part.code, flatMap_ownAll, flatMap_operandsReversed]
  | construct pos className args target =>
      simp [parts, code, flatMap_ownAll, flatMap_operandsAll]
  | _ => simp [parts, code, Part.code, flatMap_ownAll]

end Expr

/-!
# Laid parts
-/

/-- The items are the code of the parts, if the given line is the current one in front of them. -/
inductive Laid (ctx : CodeContext) : Nat → List Part → List Item → Prop where
  | nil {line : Nat} :
      Laid ctx line [] []
  | own {line : Nat} {item : Item} {parts : List Part} {items : List Item} :
      Laid ctx line parts items →
      Laid ctx line (.own item :: parts) (item.atLine line :: items)
  | operand {line n : Nat} {e : Expr} {inner items : List Item} {parts : List Part} :
      Laid ctx e.pos.line (e.parts ctx n) inner →
      Laid ctx e.lastLine parts items →
      Laid ctx line (.operand n e :: parts) (inner ++ items)

namespace Laid

variable {ctx : CodeContext} {line : Nat} {xs ys : List Part} {items items' : List Item}

theorem append (h : Laid ctx line xs items) (h' : Laid ctx (lineBehind line xs) ys items') :
    Laid ctx line (xs ++ ys) (items ++ items') := by
  induction h with
  | nil => exact h'
  | own _ ih => exact own (ih h')
  | operand hinner _ _ ih =>
      rw [List.append_assoc]
      exact operand hinner (ih h')

theorem ownAll (ctx : CodeContext) (line : Nat) (items : List Item) :
    Laid ctx line (ClassLet.ownAll items) (items.map (Item.atLine line)) := by
  induction items with
  | nil => exact nil
  | cons item items ih => exact own ih

theorem split (h : Laid ctx line (xs ++ ys) items) :
    ∃ front back, items = front ++ back ∧ Laid ctx line xs front ∧
      Laid ctx (lineBehind line xs) ys back := by
  induction xs generalizing line items with
  | nil => exact ⟨[], items, rfl, nil, h⟩
  | cons part xs ih =>
      cases h with
      | own hrest =>
          rcases ih hrest with ⟨front, back, rfl, hfront, hback⟩
          exact ⟨_, back, rfl, own hfront, hback⟩
      | operand hinner hrest =>
          rcases ih hrest with ⟨front, back, rfl, hfront, hback⟩
          exact ⟨_, back, (List.append_assoc _ _ _).symm, operand hinner hfront, hback⟩

/-- An own item has the line that is current behind the parts before it. -/
theorem own_at {before after : List Part} {item : Item}
    (h : Laid ctx line (before ++ .own item :: after) items) :
    ∃ front back, items = front ++ item.atLine (lineBehind line before) :: back ∧
      Laid ctx line before front := by
  rcases h.split with ⟨front, back, rfl, hfront, hback⟩
  cases hback with
  | own _ => exact ⟨front, _, rfl, hfront⟩

theorem operand_infix {n : Nat} {e : Expr} (h : Laid ctx line xs items)
    (hmem : .operand n e ∈ xs) :
    ∃ inner, Laid ctx e.pos.line (e.parts ctx n) inner ∧ inner <:+: items := by
  rcases List.append_of_mem hmem with ⟨before, after, rfl⟩
  rcases h.split with ⟨front, back, rfl, _, hback⟩
  cases hback with
  | operand hinner _ => exact ⟨_, hinner, front, _, List.append_assoc _ _ _⟩

end Laid

/-!
# What an emitter has got
-/

namespace Emitter

variable {e e' e'' : Emitter} {items items' : List Item}

/-- The second emitter has the items in its innermost stream, behind those of the first. -/
structure Extended (e : Emitter) (items : List Item) (e' : Emitter) : Prop where
  finished : e'.finished = e.finished
  streams : ∀ first rest, e.openStreams = first :: rest → e'.openStreams = (first ++ items) :: rest

theorem Puts.extended (h : e.Puts items e') : e.Extended items e' :=
  ⟨h.finished, h.streams⟩

theorem Extended.trans (h : e.Extended items e') (h' : e'.Extended items' e'') :
    e.Extended (items ++ items') e'' where
  finished := h'.finished.trans h.finished
  streams := by
    intro first rest hfirst
    rw [← List.append_assoc]
    exact h'.streams _ _ (h.streams first rest hfirst)

/-- The second emitter has the code of the parts behind the items of the first, and more labels
taken. -/
structure Lays (ctx : CodeContext) (e : Emitter) (parts : List Part) (labels : Nat)
    (e' : Emitter) : Prop where
  labelCount : e'.labelCount = e.labelCount + labels
  functionCount : e'.functionCount = e.functionCount
  line : e'.line = lineBehind e.line parts
  items : ∃ items, Laid ctx e.line parts items ∧
    items.map Item.plain = parts.flatMap (Part.code ctx) ∧ e.Extended items e'

namespace Lays

variable {ctx : CodeContext} {xs ys : List Part} {k j : Nat}

theorem trans (h : e.Lays ctx xs k e') (h' : e'.Lays ctx ys j e'') :
    e.Lays ctx (xs ++ ys) (k + j) e'' where
  labelCount := by
    rw [h'.labelCount, h.labelCount, Nat.add_assoc]
  functionCount := h'.functionCount.trans h.functionCount
  line := by
    rw [h'.line, h.line, lineBehind_append]
  items := by
    rcases h.items with ⟨items, hlaid, hplain, hextended⟩
    rcases h'.items with ⟨items', hlaid', hplain', hextended'⟩
    rw [h.line] at hlaid'
    refine ⟨items ++ items', hlaid.append hlaid', ?_, hextended.trans hextended'⟩
    rw [List.map_append, hplain, hplain', List.flatMap_append]

/-- Items of an expression itself, while the line stays. -/
theorem of_puts {items : List Item} (hplain : items.map Item.plain = items)
    (hlabels : e'.labelCount = e.labelCount + k) (hfunctions : e'.functionCount = e.functionCount)
    (hputs : e.Puts (items.map (Item.atLine e.line)) e') : e.Lays ctx (ownAll items) k e' where
  labelCount := hlabels
  functionCount := hfunctions
  line := by
    rw [hputs.line, lineBehind_ownAll]
  items := by
    refine ⟨_, Laid.ownAll ctx e.line items, ?_, hputs.extended⟩
    rw [flatMap_ownAll, List.map_map]
    have hsame : Item.plain ∘ Item.atLine e.line = Item.plain := by
      funext item
      cases item with
      | instruction i => rfl
      | label name => rfl
    rw [hsame, hplain]

/-- An operand starts with its own line, whatever line was current before. -/
theorem operand {expr : Expr}
    (h : (e.atLine expr.pos.line).Lays ctx (expr.parts ctx e.labelCount) k e') :
    e.Lays ctx [.operand e.labelCount expr] k e' where
  labelCount := h.labelCount
  functionCount := h.functionCount
  line := h.line.trans (expr.lineBehind_parts ctx e.labelCount)
  items := by
    rcases h.items with ⟨items, hlaid, hplain, hextended⟩
    have hall : Laid ctx e.line [.operand e.labelCount expr] (items ++ []) :=
      Laid.operand hlaid Laid.nil
    rw [List.append_nil] at hall
    refine ⟨items, hall, ?_, hextended.finished, hextended.streams⟩
    rw [hplain, expr.flatMap_parts, List.flatMap_singleton]
    rfl

/-- What remains without the lines. -/
theorem added (h : e.Lays ctx xs k e') : e.Added e' (xs.flatMap (Part.code ctx)) k where
  streams := by
    intro first rest hfirst
    rcases h.items with ⟨items, _, hplain, hextended⟩
    have hplains : ∀ em : Emitter, em.streams = em.openStreams.map (List.map Item.plain) :=
      fun _ => rfl
    rw [hplains] at hfirst ⊢
    rcases List.map_eq_cons_iff.mp hfirst with ⟨inner, outer, hopen, rfl, rfl⟩
    rw [hextended.streams inner outer hopen, ← hplain]
    simp
  finished := by
    rcases h.items with ⟨items, _, _, hextended⟩
    exact hextended.finished
  labelCount := h.labelCount
  functionCount := h.functionCount

end Lays

end Emitter

/-!
# Generators
-/

/-- Whenever the generator succeeds from an emitter with `n` as the first free label, its result is
the given one and it has laid the parts. -/
def Gen.Lays {α : Type} (ctx : CodeContext) (g : Gen α) (n : Nat) (result : α)
    (parts : List Part) (labels : Nat) : Prop :=
  ∀ e e' a, e.labelCount = n → g.run e = .ok (a, e') → a = result ∧ e.Lays ctx parts labels e'

namespace Gen.Lays

variable {α β : Type} {ctx : CodeContext} {g : Gen α} {f : α → Gen β} {n : Nat} {a : α}
  {b : β} {xs ys : List Part} {k j : Nat}

theorem bind (hg : Lays ctx g n a xs k) (hf : Lays ctx (f a) (n + k) b ys j) :
    Lays ctx (g >>= f) n b (xs ++ ys) (k + j) := by
  intro e e' result hcount hrun
  rcases Gen.bind_ok hrun with ⟨a', e₁, hfirst, hsecond⟩
  rcases hg e e₁ a' hcount hfirst with ⟨rfl, hlays⟩
  have hcount₁ : e₁.labelCount = n + k := by rw [hlays.labelCount, hcount]
  rcases hf e₁ e' result hcount₁ hsecond with ⟨rfl, hlays'⟩
  exact ⟨rfl, hlays.trans hlays'⟩

theorem rewritten (hg : Lays ctx g n a xs k) (hparts : xs = ys) (hlabels : k = j) :
    Lays ctx g n a ys j := by
  subst hparts hlabels
  exact hg

theorem pure (a : α) : Lays ctx (Pure.pure a : Gen α) n a [] 0 := by
  intro e e' r _ hrun
  cases hrun
  have hnone : e.Lays ctx (ownAll []) 0 e :=
    Emitter.Lays.of_puts rfl rfl rfl (Emitter.Puts.none rfl rfl rfl)
  exact ⟨rfl, hnone⟩

theorem fail (pos : Position) (cause : CodeFault) :
    Lays ctx (Gen.fail pos cause : Gen α) n a xs k := by
  intro e e' r _ hrun
  cases hrun

theorem noted [Inhabited α] (note : Option α) (pos : Position) (cause : CodeFault) :
    Lays ctx (Gen.noted note pos cause) n (note.getD default) [] 0 := by
  cases note with
  | none => exact fail pos cause
  | some a => exact pure a

/-- An operand. -/
theorem node (e : Expr) {g : Gen Unit} {k : Nat} (h : Lays ctx g n () (e.parts ctx n) k) :
    Lays ctx (Gen.atLine e.pos.line >>= fun _ => g) n () [.operand n e] k := by
  intro em em' r hcount hrun
  rcases Gen.bind_ok hrun with ⟨_, em₁, hline, hrest⟩
  cases hline
  subst hcount
  exact ⟨rfl, Emitter.Lays.operand (h (em.atLine e.pos.line) em' r rfl hrest).2⟩

/-!
# Single items
-/

theorem put {item : Item} {g : Gen Unit} (hplain : item.plain = item)
    (h : ∀ e, g.run e = .ok ((), e.put (item.atLine e.line))) :
    Lays ctx g n () [.own item] 0 := by
  intro e e' r hcount hrun
  rw [h] at hrun
  cases hrun
  have hadded := e.put_added (item.atLine e.line)
  have hall : [item].map Item.plain = [item] := congrArg ([·]) hplain
  exact ⟨rfl, Emitter.Lays.of_puts hall hadded.labelCount hadded.functionCount
    (Emitter.Puts.put e _)⟩

theorem emit (op : Opcode) : Lays ctx (Gen.emit op) n () [.own (.bare op)] 0 :=
  put rfl fun _ => rfl

theorem push (v : Int32) : Lays ctx (Gen.push v) n () [.own (.push v)] 0 :=
  put rfl fun _ => rfl

theorem pushLabel (name : String) :
    Lays ctx (Gen.pushLabel name) n () [.own (.pushLabel name)] 0 :=
  put rfl fun _ => rfl

theorem jumpTo (op : Opcode) (name : String) :
    Lays ctx (Gen.jumpTo op name) n () [.own (.jump op name)] 0 :=
  put rfl fun _ => rfl

theorem define (name : String) : Lays ctx (Gen.define name) n () [.own (.label name)] 0 :=
  put rfl fun _ => rfl

theorem newLabel : Lays ctx Gen.newLabel n (labelText n) [] 1 := by
  intro e e' r hcount hrun
  cases hrun
  subst hcount
  have hnone : e.Lays ctx (ownAll []) 1 { e with labelCount := e.labelCount + 1 } :=
    Emitter.Lays.of_puts rfl rfl rfl (Emitter.Puts.none rfl rfl rfl)
  exact ⟨rfl, hnone⟩

theorem emitTimes (op : Opcode) (count : Nat) :
    Lays ctx (Gen.emitTimes op count) n () (ownAll (List.replicate count (.bare op))) 0 := by
  intro e e' r hcount hrun
  have hadded := (Gen.Writes.emitTimes op count e e' r hcount hrun).2
  cases hrun
  have hputs := Emitter.Puts.emitTimes e op count
  refine ⟨rfl, Emitter.Lays.of_puts ?_ hadded.labelCount hadded.functionCount ?_⟩
  · rw [List.map_replicate]
    rfl
  · rw [List.map_replicate]
    exact hputs

/-!
# Sequences
-/

theorem advanceHeap : Lays ctx Gen.advanceHeap n () (ownAll Code.advanceHeap) 0 := by
  unfold Gen.advanceHeap
  exact rewritten (bind (emit .pushHp) (bind (push 1) (bind (emit .add) (emit .popHp)))) rfl rfl

theorem storeOnHeap : Lays ctx Gen.storeOnHeap n () (ownAll Code.storeOnHeap) 0 := by
  unfold Gen.storeOnHeap
  exact rewritten (bind (emit .pushHp) (bind (emit .store) advanceHeap)) rfl rfl

theorem storeOnHeapRepeat (count : Nat) :
    Lays ctx (Gen.storeOnHeapRepeat count) n () (ownAll (Code.storeOnHeapRepeat count)) 0 := by
  induction count with
  | zero => exact pure ()
  | succ count ih =>
      unfold Gen.storeOnHeapRepeat
      exact rewritten (bind storeOnHeap ih) rfl rfl

theorem pushBase (r : Resolution) :
    Lays ctx (Gen.pushBase ctx r) n () (ownAll (Code.base ctx r)) 0 := by
  unfold Gen.pushBase Code.base
  split
  · exact push ctx.memorySize
  · exact rewritten (bind (emit .pushFp) (emitTimes .load r.distance)) rfl rfl

theorem loadAt (offset : Int) :
    Lays ctx (Gen.loadAt offset) n () (ownAll (Code.loadAt offset)) 0 := by
  unfold Gen.loadAt
  exact rewritten (bind (push _) (bind (emit .add) (emit .load))) rfl rfl

theorem duplicate : Lays ctx Gen.duplicate n () (ownAll Code.duplicate) 0 := by
  unfold Gen.duplicate
  exact rewritten (bind (emit .popTm) (bind (emit .pushTm) (emit .pushTm))) rfl rfl

theorem choose (op : Opcode) (taken otherwise : Int32) :
    Lays ctx (Gen.choose op taken otherwise) n ()
      (ownAll (Code.choose n op taken otherwise)) 2 := by
  unfold Gen.choose
  exact rewritten (bind newLabel (bind newLabel (bind (jumpTo op _) (bind (push otherwise)
    (bind (jumpTo .jump _) (bind (define _) (bind (push taken) (define _)))))))) rfl rfl

theorem finish (op : BinaryOp) :
    Lays ctx op.finish n () (ownAll (op.finishCode n)) op.finishLabels := by
  cases op with
  | add => exact emit .add
  | sub => exact emit .sub
  | mul => exact emit .mul
  | div => exact emit .div
  | eq => exact choose .jumpEq 1 0
  | le => exact choose .jumpLe 1 0
  | ge =>
      unfold BinaryOp.finish
      exact rewritten (bind (push 1) (bind (emit .sub) (choose .jumpLe 0 1))) rfl rfl
  | and => exact pure ()
  | or => exact pure ()

end Gen.Lays

namespace Expr

open Gen.Lays

mutual

theorem generate_lays (ctx : CodeContext) (n : Nat) :
    ∀ e : Expr, Gen.Lays ctx (e.generate ctx) n () [.operand n e] e.labels
  | .int pos value => by
      unfold generate
      exact node (.int pos value) (push value)
  | .bool pos value => by
      unfold generate
      exact node (.bool pos value) (push _)
  | .null pos => by
      unfold generate
      exact node (.null pos) (push _)
  | .missing pos => by
      unfold generate
      exact node (.missing pos) (fail pos .incompleteTree)
  | .name id target => by
      unfold generate
      apply node (.name id target)
      apply rewritten
      · apply bind (noted target _ _)
        apply bind (pushBase _)
        exact loadAt _
      · simp [parts, ownAll]
      · rfl
  | .call pos callee args target => by
      unfold generate
      apply node (.call pos callee args target)
      cases hmethod : (target.getD default).binding.ty.isMethod with
      | true =>
          apply rewritten
          · apply bind (noted target _ _)
            apply bind (emit .pushFp)
            apply bind (generateReversed_lays ctx n args)
            apply bind (pushBase _)
            apply bind duplicate
            rw [if_pos hmethod]
            apply bind (emit .load)
            apply bind (loadAt _)
            exact emit .call
          · simp [parts, ownAll, hmethod]
          · simp [labels]
      | false =>
          apply rewritten
          · apply bind (noted target _ _)
            apply bind (emit .pushFp)
            apply bind (generateReversed_lays ctx n args)
            apply bind (pushBase _)
            apply bind duplicate
            rw [if_neg (by simp [hmethod])]
            apply bind (loadAt _)
            exact emit .call
          · simp [parts, ownAll, hmethod]
          · simp [labels]
  | .methodCall pos object method args receiver entry => by
      unfold generate
      apply node (.methodCall pos object method args receiver entry)
      apply rewritten
      · apply bind (noted receiver _ _)
        apply bind (noted entry _ _)
        apply bind (emit .pushFp)
        apply bind (generateReversed_lays ctx n args)
        apply bind (pushBase _)
        apply bind (loadAt _)
        apply bind duplicate
        apply bind (emit .load)
        apply bind (loadAt _)
        exact emit .call
      · simp [parts, ownAll]
      · simp [labels]
  | .construct pos className args target => by
      unfold generate
      apply node (.construct pos className args target)
      apply rewritten
      · apply bind (noted target _ _)
        apply bind (generateAll_lays ctx n args)
        apply bind (storeOnHeapRepeat _)
        apply bind (push _)
        apply bind (emit .load)
        apply bind (emit .pushHp)
        apply bind (emit .store)
        apply bind (emit .pushHp)
        exact advanceHeap
      · simp [parts, ownAll]
      · simp [labels]
  | .ifElse pos condition whenTrue whenFalse => by
      unfold generate
      apply node (.ifElse pos condition whenTrue whenFalse)
      apply rewritten
      · apply bind newLabel
        apply bind newLabel
        apply bind (generate_lays ctx (n + 2) condition)
        apply bind (push 1)
        apply bind (jumpTo .jumpEq _)
        apply bind (generate_lays ctx (n + 2 + condition.labels) whenFalse)
        apply bind (jumpTo .jump _)
        apply bind (define _)
        apply bind (generate_lays ctx (n + 2 + condition.labels + whenFalse.labels) whenTrue)
        exact define _
      · simp [parts]
      · simp only [labels]
        omega
  | .not pos operand => by
      unfold generate
      apply node (.not pos operand)
      apply rewritten
      · apply bind (generate_lays ctx n operand)
        apply bind (push 0)
        exact choose .jumpEq 1 0
      · simp [parts]
      · simp only [labels]
  | .binary pos op left right => by
      unfold generate
      cases hop : op.isLogical with
      | true =>
          rw [if_pos rfl]
          apply node (.binary pos op left right)
          apply rewritten
          · apply bind newLabel
            apply bind newLabel
            apply bind (generate_lays ctx (n + 2) left)
            apply bind (push _)
            apply bind (jumpTo .jumpEq _)
            apply bind (generate_lays ctx (n + 2 + left.labels) right)
            apply bind (push _)
            apply bind (jumpTo .jumpEq _)
            apply bind (push _)
            apply bind (jumpTo .jump _)
            apply bind (define _)
            apply bind (push _)
            exact define _
          · simp [parts, hop]
          · simp only [labels, hop, if_true]
            omega
      | false =>
          rw [if_neg Bool.false_ne_true]
          apply node (.binary pos op left right)
          apply rewritten
          · apply bind (generate_lays ctx n left)
            apply bind (generate_lays ctx (n + left.labels) right)
            exact finish op
          · simp [parts, hop]
          · simp [labels, hop]
  | .print pos operand => by
      unfold generate
      apply node (.print pos operand)
      apply rewritten
      · apply bind (generate_lays ctx n operand)
        exact emit .print
      · simp [parts]
      · simp [labels]
termination_by structural e => e

theorem generateAll_lays (ctx : CodeContext) (n : Nat) :
    ∀ es : List Expr,
      Gen.Lays ctx (generateAll ctx es) n () (operandsAll n es) (labelsAll es)
  | [] => by
      unfold generateAll
      exact pure ()
  | e :: es => by
      unfold generateAll
      apply rewritten
      · apply bind (generate_lays ctx n e)
        exact generateAll_lays ctx (n + e.labels) es
      · simp [operandsAll]
      · simp [labelsAll]
termination_by structural es => es

theorem generateReversed_lays (ctx : CodeContext) (n : Nat) :
    ∀ es : List Expr,
      Gen.Lays ctx (generateReversed ctx es) n () (operandsReversed n es) (labelsAll es)
  | [] => by
      unfold generateReversed
      exact pure ()
  | e :: es => by
      unfold generateReversed
      apply rewritten
      · apply bind (generateReversed_lays ctx n es)
        exact generate_lays ctx (n + labelsAll es) e
      · simp [operandsReversed]
      · simp [labelsAll, Nat.add_comm]
termination_by structural es => es

end

/-- Without the lines, generation adds the code of the expression. -/
theorem generate_writes (ctx : CodeContext) (n : Nat) (e : Expr) :
    (e.generate ctx).Writes n () (e.code ctx n) e.labels := by
  intro em em' a hcount hrun
  rcases e.generate_lays ctx n em em' a hcount hrun with ⟨hresult, hlays⟩
  have hadded := hlays.added
  rw [List.flatMap_singleton] at hadded
  exact ⟨hresult, hadded⟩

end Expr

end ClassLet
