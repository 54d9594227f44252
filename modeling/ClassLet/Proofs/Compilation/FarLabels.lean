import ClassLet.Proofs.Compilation.BuildGate
import ClassLet.Proofs.Compilation.BuiltRuns
import ClassLet.Proofs.Generation.BodyNumbers
import ClassLet.Proofs.Machine.Blocks
import ClassLet.Proofs.Machine.LeadingCells
import Mathlib.Algebra.Group.Nat.Defs

/-!
# Labels behind a lot of code

The operand of a jump is one cell, and a cell holds the address of a label only modulo the number of
values that it can have. An expression of moderate depth has enough code for this to be another
address: a branch that is not taken is then jumped over to somewhere else. Where a run goes can be
told from the first cells of the code, and these depend on the rest only by such an address.

Main statements: `codeAddress_add_mul`, `Expr.cells_skipping` for conditionals with such a branch,
and `Program.plain_listing` and `Program.calling_listing` for programs that consist of one.
-/

namespace ClassLet

/-!
# Cells of placed items
-/

theorem itemCells_plain (l : Listing) (item : Item) :
    l.itemCells item.plain = l.itemCells item := by
  cases item <;> rfl

/-- The cells of placed items come one after the other. -/
theorem CodeAt.cells_prefix {l : Listing} (hl : l.Coherent) {a : Nat} {items : List Item}
    (h : CodeAt l a items) : items.flatMap l.itemCells <+: l.encode.drop a := by
  rcases h with ⟨pre, placed, post, hsplit, rfl, rfl⟩
  have hlength : (pre.flatMap l.itemCells).length = cellCount pre :=
    length_flatMap_itemCells l fun i hi => hl.operands i (by simp [hsplit, hi])
  have hplain : (placed.map Item.plain).flatMap l.itemCells = placed.flatMap l.itemCells := by
    rw [List.flatMap_map]
    exact List.flatMap_congr fun item _ => itemCells_plain l item
  refine ⟨post.flatMap l.itemCells, ?_⟩
  rw [Listing.encode, hsplit, List.append_assoc, List.flatMap_append, ← hlength, List.drop_left,
    List.flatMap_append, hplain]

/-- Two addresses may have the same cell. -/
theorem codeAddress_add_mul (a k : Nat) : codeAddress (a + k * 4294967296) = codeAddress a := by
  apply Int32.toBitVec_inj.mp
  apply BitVec.eq_of_toNat_eq
  simp [codeAddress]

theorem append_prefix_of_drop {α : Type} {xs ys zs : List α} (hxs : xs <+: zs)
    (hys : ys <+: zs.drop xs.length) : xs ++ ys <+: zs := by
  rcases hxs with ⟨rest, rfl⟩
  rw [List.drop_left] at hys
  exact (List.prefix_append_right_inj _).mpr hys

namespace Expr

/-!
# Expressions that grow
-/

/-- Both operands are the same. -/
def twice (op : BinaryOp) (e : Expr) : Expr :=
  .binary Written.start op e e

/-- Every operation makes the expression twice as large. -/
def doubled (op : BinaryOp) (e : Expr) : Nat → Expr
  | 0 => e
  | k + 1 => twice op (doubled op e k)

/-- The expression refers to nothing and is compiled wherever it stands. -/
structure Constant (e : Expr) (ty : Ty) : Prop where
  link : ∀ env, e.link env = e
  linkErrors : ∀ env, e.linkErrors env = []
  complete : e.hasMissing = false
  type : e.type Hierarchy.empty = .ok ty

namespace Constant

theorem int (value : Int32) : Constant (.int Written.start value) .int :=
  ⟨fun _ => rfl, fun _ => rfl, rfl, rfl⟩

theorem bool (value : Bool) : Constant (.bool Written.start value) .bool :=
  ⟨fun _ => rfl, fun _ => rfl, rfl, rfl⟩

variable {left right e : Expr} {ty ty' ty'' : Ty} (op : BinaryOp)

theorem binary (h : left.Constant ty) (h' : right.Constant ty')
    (hop : Hierarchy.empty.binaryType Written.start op ty ty' = .ok ty'') :
    Constant (.binary Written.start op left right) ty'' where
  link env := by rw [Expr.link, h.link, h'.link]
  linkErrors env := by rw [Expr.linkErrors, h.linkErrors, h'.linkErrors, List.append_nil]
  complete := by rw [hasMissing, h.complete, h'.complete, Bool.or_self]
  type := by
    rw [Expr.type, h.type, h'.type]
    exact hop

theorem doubled (h : e.Constant ty)
    (hop : Hierarchy.empty.binaryType Written.start op ty ty = .ok ty) (k : Nat) :
    (doubled op e k).Constant ty := by
  induction k with
  | zero => exact h
  | succ k ih => exact ih.binary op ih hop

end Constant

section

variable {op : BinaryOp} {e : Expr} {ctx : CodeContext} (k : Nat)

/-- Every operation is behind the code of its two operands. -/
theorem cellCount_doubled {size finish : Nat} (hop : op.isLogical = false)
    (hsize : ∀ n, cellCount (e.code ctx n) = size)
    (hfinish : ∀ n, cellCount (op.finishCode n) = finish) (n : Nat) :
    cellCount ((doubled op e k).code ctx n) + finish = (size + finish) * 2 ^ k := by
  induction k generalizing n with
  | zero => rw [Nat.pow_zero, Nat.mul_one, doubled, hsize]
  | succ k ih =>
      have hleft := ih n
      have hright := ih (n + (doubled op e k).labels)
      rw [Nat.pow_succ, ← Nat.mul_assoc, doubled, twice, code, hop]
      simp only [Bool.false_eq_true, if_false, cellCount_append, hfinish]
      omega

theorem code_doubled (hop : op.isLogical = false) (n : Nat) :
    ∃ rest, (doubled op e k).code ctx n = e.code ctx n ++ rest := by
  induction k with
  | zero => exact ⟨[], (List.append_nil _).symm⟩
  | succ k ih =>
      rcases ih with ⟨rest, hrest⟩
      rw [doubled, twice, code, hop]
      simp only [Bool.false_eq_true, if_false, hrest, List.append_assoc]
      exact ⟨_, rfl⟩

end

/-!
# Branches that are not taken
-/

/-- The second branch is jumped over. -/
def skipping (taken skipped : Expr) : Expr :=
  .ifElse Written.start (.bool Written.start true) taken skipped

theorem Constant.skipping {taken skipped : Expr} {ty : Ty} (h : taken.Constant ty)
    (h' : skipped.Constant ty) (hty : Hierarchy.empty.commonSupertype? ty ty = some ty) :
    (skipping taken skipped).Constant ty where
  link env := by rw [Expr.skipping, Expr.link, h.link, h'.link, (Constant.bool true).link]
  linkErrors env := by
    rw [Expr.skipping, Expr.linkErrors, h.linkErrors, h'.linkErrors]
    rfl
  complete := by
    rw [Expr.skipping, hasMissing, h.complete, h'.complete]
    rfl
  type := by
    have hcondition : Hierarchy.empty.isSubtype .bool .bool = true := rfl
    rw [Expr.skipping, Expr.type, (Constant.bool true).type, h.type, h'.type]
    simp only [bind, Except.bind, Typed.require, hcondition, if_true, hty]
    rfl

/-- The label is behind the second branch and the jump out of it. -/
theorem target_skipping {l : Listing} (hl : l.Coherent) {a n : Nat} {ctx : CodeContext}
    {taken skipped : Expr} (h : CodeAt l a ((skipping taken skipped).code ctx n)) :
    l.target (labelText n) = codeAddress (a + 8 + cellCount (skipped.code ctx (n + 2))) := by
  have hlabel : CodeAt l (a + 6 + cellCount (skipped.code ctx (n + 2)) + 2)
      (.label (labelText n) :: _) := h.tail.tail.tail.right.tail
  rw [Listing.target_of_address (hlabel.address hl)]
  congr 1
  omega

/-- The first cells of a conditional whose second branch is jumped over. -/
theorem cells_skipping {l : Listing} (hl : l.Coherent) {a n k size finish : Nat} {ctx : CodeContext}
    {taken e : Expr} {op : BinaryOp} (hop : op.isLogical = false)
    (hsize : ∀ n, cellCount (e.code ctx n) = size)
    (hfinish : ∀ n, cellCount (op.finishCode n) = finish)
    (h : CodeAt l a ((skipping taken (doubled op e k)).code ctx n)) :
    [Opcode.push.cell, 1, Opcode.push.cell, 1, Opcode.jumpEq.cell,
        codeAddress (a + 8 + ((size + finish) * 2 ^ k - finish))] ++
      (e.code ctx (n + 2)).flatMap l.itemCells <+: l.encode.drop a := by
  have hall : CodeAt l a ([.push 1] ++ (.push 1 :: .jump .jumpEq (labelText n) ::
      ((doubled op e k).code ctx (n + 2) ++ _))) := h
  rcases code_doubled k hop (n + 2) with ⟨rest, hrest⟩
  rw [hrest, List.append_assoc] at hall
  have hfirst := @CodeAt.left l a
    (.push 1 :: .push 1 :: .jump .jumpEq (labelText n) :: e.code ctx (n + 2)) _ hall
  have htarget := target_skipping hl h
  rw [Nat.eq_sub_of_add_eq (cellCount_doubled k hop hsize hfinish (n + 2))] at htarget
  rw [← htarget]
  exact hfirst.cells_prefix hl

/-- A division by zero that begins with pushing the number. -/
def divisionOf (value : Int32) : Expr :=
  .binary Written.start .div (.int Written.start value) (.int Written.start 0)

theorem constant_divisionOf (value : Int32) : (divisionOf value).Constant .int :=
  (Constant.int value).binary .div (Constant.int 0) rfl

/-- The second branch takes one cell less than three times the number of cell values, so the jump
over it leads into its first instruction, to the operand. -/
theorem cells_skipping_divisionOf {l : Listing} (hl : l.Coherent) {a n : Nat} {ctx : CodeContext}
    {value : Int32} {taken : Expr}
    (h : CodeAt l a ((skipping taken (doubled .add (divisionOf value) 31)).code ctx n)) :
    [Opcode.push.cell, 1, Opcode.push.cell, 1, Opcode.jumpEq.cell, codeAddress (a + 7),
      Opcode.push.cell, value, Opcode.push.cell, 0, Opcode.div.cell] <+: l.encode.drop a := by
  have hsize : ∀ n, cellCount ((divisionOf value).code ctx n) = 5 := fun _ => rfl
  have hfinish : ∀ n, cellCount (BinaryOp.finishCode n .add) = 1 := fun _ => rfl
  have hcells := cells_skipping hl rfl hsize hfinish h
  have hround : a + 8 + ((5 + 1) * 2 ^ 31 - 1) = a + 7 + 3 * 4294967296 := by omega
  rw [hround, codeAddress_add_mul] at hcells
  exact hcells

end Expr

namespace Program

/-!
# Programs with and without a function
-/

/-- A program without declarations. -/
def plain (e : Expr) : Program :=
  { decls := [], body := e, pos := Written.start }

theorem plain_checked {e : Expr} {ty : Ty} (h : e.Constant ty) : (plain e).Checked := by
  have hlink : (plain e).link.program = plain e := congrArg plain (h.link .start)
  have hfailures : (plain e).typing.failures = failureOf (.ok ty : Typed Ty) :=
    congrArg failureOf h.type
  refine ⟨h.linkErrors .start, ?_⟩
  rw [hlink, Typing.errors, hfailures]
  rfl

/-- The code of a program without declarations begins with that of its body. -/
theorem plain_listing {e : Expr} {ty : Ty} (h : e.Constant ty) (memorySize : Int32) :
    ∃ l n, ((plain e).compile memorySize).listing = some l ∧ l.Coherent ∧
      CodeAt l 0 (e.code (context memorySize) n) := by
  have hlink : (plain e).link.program = plain e := congrArg plain (h.link .start)
  rcases compile_complete memorySize (plain_checked h) h.complete with ⟨l, hlisting, _⟩
  rcases listing_of_compile hlisting with ⟨_, _, hgenerate⟩
  rw [hlink] at hgenerate
  rcases generate_listing hgenerate with ⟨_, hreadable, _, items, n, _, hdivided, hcompiled⟩
  obtain ⟨_, rfl⟩ := hcompiled (fun _ => True) fun _ _ => trivial
  have hmain : CodeAt l 0 (e.code (context memorySize) n ++ [.bare .halt]) := hdivided.codeAt.left
  exact ⟨l, n, hlisting, hreadable.toCoherent, hmain.left⟩

/-- A function without parameters that is called, before linking and with the place that linking
gives to the function. -/
def calling (e : Expr) (place : Option Binding) : Program :=
  { decls := [.function (Written.header "f" [] .int) ⟨[], e⟩ place]
    body := .call Written.start (Written.ident "f") []
      (place.map fun binding => { binding, useLevel := 0 })
    pos := Written.start }

def calledPlace : Binding :=
  { level := 0, ty := .arrow ⟨[], .int⟩, offset := -2 }

/-- The cells of the main part, given the address of the function. -/
def callingCells (target : Int32) : List Int32 :=
  [Opcode.push.cell, 0, Opcode.push.cell, target, Opcode.pushFp.cell, Opcode.pushFp.cell,
    Opcode.popTm.cell, Opcode.pushTm.cell, Opcode.pushTm.cell, Opcode.push.cell, -2,
    Opcode.add.cell, Opcode.load.cell, Opcode.call.cell, Opcode.halt.cell]

section

variable {e : Expr} (h : e.Constant .int)
include h

theorem calling_link : (calling e none).link.program = calling e (some calledPlace) := by
  simp only [link, calling, Decl.linkAll, Decl.link, Body.link, h.link]
  rfl

theorem calling_checked : (calling e none).Checked := by
  have hresult : checkResult Hierarchy.empty (Written.header "f" [] .int) e = .ok () := by
    rw [checkResult, h.type]
    rfl
  have hfailures : Body.typingFailures .empty (Written.header "f" [] .int) ⟨[], e⟩ = [] :=
    congrArg failureOf hresult
  constructor
  · simp only [link, calling, Decl.linkErrorsAll, Decl.linkErrors, Body.linkErrors, h.linkErrors]
    rfl
  · rw [calling_link h]
    simp only [typing, calling, Decl.typingFailuresAll, Decl.typingFailures, hfailures]
    rfl

theorem calling_listing (memorySize : Int32) :
    ∃ (im : Image) (n : Nat),
      ((calling e none).compile memorySize).listing = some im.listing ∧
      (∀ a, im.Entry a ↔ a = 15) ∧ im.listing.address? (functionText 0) = some 15 ∧
      callingCells 15 ++ [Opcode.setFp.cell, Opcode.pushRa.cell] <+: im.listing.encode ∧
      CodeAt im.listing 17 (e.code (context memorySize) n) := by
  have hcomplete : (calling e none).hasMissing = false := by
    simp [hasMissing, calling, Decl.hasMissingAll, Decl.hasMissing, Body.hasMissing,
      Expr.hasMissing, Expr.hasMissingAll, h.complete]
  rcases compile_complete memorySize (calling_checked h) hcomplete with ⟨l, hlisting, _⟩
  rcases listing_of_compile hlisting with ⟨_, _, hgenerate⟩
  rw [calling_link h] at hgenerate
  rcases generate_listing hgenerate with ⟨_, hreadable, _, items, n, _, hdivided, hcompiled⟩
  obtain ⟨im, rfl⟩ : ∃ im : Image, im.listing = l := ⟨⟨l, hreadable.toCoherent⟩, rfl⟩
  have hholds := hcompiled im.Holds fun _ hmem => im.holds_of_mem hdivided hmem
  simp only [calling, Decl.CompiledAll, Decl.Compiled, Body.Compiled] at hholds
  rcases hholds with
    ⟨_, xs, ys, rfl, ⟨rfl, inner, n', ⟨_, rfl⟩, _, entry, exit, hcode, hroutine, _⟩, _, rfl⟩
  have hentry : ∀ a, im.Entry a → a = 15 := fun a =>
    (generate_numbered hgenerate : im.Numbered [0]).entry_single hdivided
  obtain rfl := hentry entry hroutine.begins
  have haddress : im.listing.address? (functionText 0) = some 15 := hcode.address im.coherent
  have hfirst : callingCells (im.listing.target (functionText 0)) <+: im.listing.encode :=
    hdivided.codeAt.left.cells_prefix im.coherent
  have hbody : CodeAt im.listing 15 ([.label (functionText 0), .bare .setFp, .bare .pushRa] ++
      (e.code (context memorySize) n' ++ Code.epilogue 0 0)) := hcode
  have hframe : [Opcode.setFp.cell, Opcode.pushRa.cell] <+: im.listing.encode.drop 15 :=
    hbody.left.cells_prefix im.coherent
  rw [Listing.target_of_address haddress] at hfirst
  refine ⟨im, n', hlisting, fun a => ⟨hentry a, ?_⟩, haddress,
    append_prefix_of_drop hfirst hframe, hbody.right.left⟩
  rintro rfl
  exact hroutine.begins

end

/-!
# Labels out of range
-/

/-- A build whose first cells are known. -/
theorem build_of_cells {p : Program} {l : Listing} {memorySize : Nat} {cells : List Int32}
    (hmemory : isAddressable memorySize = true)
    (hlisting : (p.compile (Int32.ofNat memorySize)).listing = some l)
    (hcells : cells <+: l.encode) :
    let t : Target := { codeSize := l.codeSize, memorySize }
    ∃ b more, t.build p = .ok b ∧ b.code = l.encode ∧
      Machine.load b.code t.codeSize t.memorySize =
        .ok ((Machine.start cells memorySize).extended more) := by
  intro t
  rcases hcells with ⟨more, hmore⟩
  rcases build_of_listing (t := t) hmemory hlisting (Nat.le_refl _) with
    ⟨b, hbuild, hcode, hlength⟩
  rcases Machine.load_ok (Nat.le_of_eq hlength) hmemory with ⟨m, hload⟩
  refine ⟨b, more, hbuild, hcode, ?_⟩
  rw [← Machine.start_append, hmore, ← hcode]
  exact hload.trans (congrArg _ (Machine.load_eq_ok hload).2.2)

/-- The label behind the second branch is at cell 2684354560. -/
def outlying : Program :=
  plain (.skipping (.bool Written.start true) (.doubled .eq (.bool Written.start false) 28))

/-- The code up to the second branch. -/
def outlyingCells : List Int32 :=
  [Opcode.push.cell, 1, Opcode.push.cell, 1, Opcode.jumpEq.cell, -1610612736]

theorem outlying_cells (memorySize : Int32) :
    ∃ l, (outlying.compile memorySize).listing = some l ∧ outlyingCells <+: l.encode := by
  have hskipped := (Expr.Constant.bool false).doubled .eq rfl 28
  rcases plain_listing ((Expr.Constant.bool true).skipping hskipped rfl) memorySize with
    ⟨l, n, hlisting, hcoherent, hcode⟩
  have hsize : ∀ n, cellCount ((Expr.bool Written.start false).code (context memorySize) n) = 2 :=
    fun _ => rfl
  have hfinish : ∀ n, cellCount (BinaryOp.finishCode n .eq) = 8 := fun _ => rfl
  have hcells := Expr.cells_skipping hcoherent rfl hsize hfinish hcode
  exact ⟨l, hlisting, (List.prefix_append _ _).trans hcells⟩

/-- The jump of the conditional is the third instruction and the last. -/
theorem outlying_refused (more : List Int32) :
    let m := (Machine.start outlyingCells 2147483647).extended more
    (∀ n m', m.Reaches n m' → m'.Apart) ∧ ∃ m' trapped, m.Reaches 2 m' ∧
      Exec.step.run m' = .error (.codeOutOfRange (-1610612736) 4) trapped ∧
      trapped.output.toList = [] := by
  let s := Machine.start outlyingCells 2147483647
  let last := (s.run 2).2
  have hrun : (s.run 2).1 = .outOfSteps := by decide +kernel
  have hapart : ∀ j ≤ 2, (s.run j).2.hp.toInt < (s.run j).2.sp.toInt := by decide +kernel
  have hlast : last.ip = 4 ∧ last.code[last.ip]? = some Opcode.jumpEq.cell ∧
      last.code[last.ip + 1]? = some (-1610612736) ∧ last.memory.read? last.sp = some 1 ∧
      last.memory.read? (last.sp + 1) = some 1 ∧ last.output.toList = [] := by
    decide +kernel
  rcases hlast with ⟨hip, hop, htarget, hright, hleft, houtput⟩
  intro m
  have hreaches : ∀ j ≤ 2, m.Reaches j ((s.run j).2.extended more) := fun j =>
    s.reaches_run_extended more hrun
  have htrap := Exec.jumpEq_refused (m := last.extended more) (last.cell_extended more hop)
    (last.cell_extended more htarget) hright hleft (by decide)
  rw [show (last.extended more).ip = 4 from hip] at htrap
  refine ⟨fun n m' hn => ?_, _, _, hreaches 2 (Nat.le_refl 2), htrap, houtput⟩
  have hle : n ≤ 2 := by
    rcases Nat.le_total n 2 with hle | hge
    · exact hle
    · refine Nat.le_of_eq (hn.last (hreaches 2 (Nat.le_refl 2)) hge fun next hnext => ?_).1
      cases htrap.symm.trans hnext
  obtain rfl := hn.unique (hreaches n hle)
  exact hapart n hle

theorem outlying_stops :
    ∃ (t : Target) (b : Build) (m m' trapped : Machine), t.memorySize = 2147483647 ∧
      t.build outlying = .ok b ∧ Machine.load b.code t.codeSize t.memorySize = .ok m ∧
      (∀ n m'', m.Reaches n m'' → m''.Apart) ∧ m.Reaches 2 m' ∧
      Exec.step.run m' = .error (.codeOutOfRange (-1610612736) 4) trapped ∧
      trapped.output.toList = [] := by
  have hmemory : isAddressable 2147483647 = true := by decide
  rcases outlying_cells (Int32.ofNat 2147483647) with ⟨l, hlisting, hcells⟩
  rcases build_of_cells hmemory hlisting hcells with ⟨b, more, hbuild, _, hload⟩
  rcases outlying_refused more with ⟨hapart, m', trapped, hreaches, htrap, houtput⟩
  exact ⟨_, b, _, m', trapped, rfl, hbuild, hload, hapart, hreaches, htrap, houtput⟩

end Program

end ClassLet
