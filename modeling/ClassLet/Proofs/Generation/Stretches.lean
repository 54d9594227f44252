import ClassLet.Proofs.Generation.ProgramCode
import ClassLet.Proofs.Machine.Moves
import ClassLet.Proofs.Machine.Refinement
import ClassLet.Proofs.Written

/-!
# Stretches of code

The listing of a program consists of stretches: the main stream, which ends with `halt`, and the
bodies of functions and methods, each of which starts with its own label and ends with a jump back.
Jumps lead forwards within a stretch, so that a running machine leaves a stretch or goes back in it
by calls only.

Main statements: `Listing.Stretches.controlIsLocal` and `Program.generate_wellFormed`.
-/

namespace ClassLet

/-!
# Last instructions
-/

/-- The last item is the operation, without an operand. -/
def EndsWith (op : Opcode) (items : List Item) : Prop :=
  ∃ line, items.getLast? = some (.instruction { op, operand := none, line })

theorem getLast?_tail {α : Type} {x y : α} {xs : List α} (h : (x :: xs).getLast? = some y)
    (hne : x ≠ y) : xs.getLast? = some y := by
  rw [List.getLast?_cons] at h
  cases hlast : xs.getLast? with
  | none =>
      rw [hlast] at h
      exact absurd (Option.some.inj h) hne
  | some z =>
      rw [hlast] at h
      exact h

theorem exists_label_split {items : List Item} {name : String} (h : name ∈ labelNames items) :
    ∃ before after, items = before ++ .label name :: after := by
  rcases List.mem_filterMap.mp h with ⟨item, hitem, hname⟩
  cases item with
  | instruction i => cases hname
  | label n =>
      cases hname
      exact List.append_of_mem hitem

/-- The first cell of the instruction is at `ip`, if the stretch is placed from the cell `a` on. -/
def InstructionAt (stretch : List Item) (a : Nat) (i : Instruction) (ip : Nat) : Prop :=
  ∃ before after, stretch = before ++ .instruction i :: after ∧ ip = a + cellCount before

/-- There is an instruction behind any items that are followed by one, maybe after labels. -/
theorem exists_instructionAt {xs ys : List Item} {i : Instruction} (a : Nat)
    (h : ys.getLast? = some (.instruction i)) :
    ∃ j, InstructionAt (xs ++ ys) a j (a + cellCount xs) := by
  induction ys generalizing xs with
  | nil => cases h
  | cons item ys ih =>
      cases item with
      | instruction j => exact ⟨j, xs, ys, rfl, rfl⟩
      | label name =>
          rcases @ih (xs ++ [.label name]) (getLast?_tail h (by simp)) with ⟨j, hat⟩
          exact ⟨j, by simpa [Item.width] using hat⟩

/-!
# Listings of stretches
-/

/-- The main stream is followed by the bodies. A function label stands at the start of a body and
nowhere else. -/
structure Listing.Stretches (l : Listing) (main : List Item) (bodies : List (List Item)) :
    Prop where
  items : l.items = main ++ bodies.flatten
  halts : EndsWith .halt main
  returns : ∀ body ∈ bodies, EndsWith .call body
  mainLabels : ∀ name ∈ labelNames main, ¬IsFunctionLabel name
  entries : ∀ body ∈ bodies, ∃ name inner, body = .label name :: inner ∧ IsFunctionLabel name ∧
    ∀ n ∈ labelNames inner, ¬IsFunctionLabel n
  forward : ∀ stretch ∈ main :: bodies, JumpsForward stretch

/-- A machine that is at an instruction of a stretch and goes on without a call is at a later
instruction of the same stretch. -/
def Listing.ControlIsLocal (l : Listing) (stretches : List (List Item)) : Prop :=
  ∀ before stretch after, stretches = before ++ stretch :: after →
    ∀ (m m' : Machine) (i : Instruction), m.code = l.encode.toArray →
      InstructionAt stretch (cellCount before.flatten) i m.ip → i.op ≠ .call →
        Exec.step.run m = .ok .running m' →
          m.ip < m'.ip ∧ ∃ j, InstructionAt stretch (cellCount before.flatten) j m'.ip

/-- The operand of a jump is the address of its label. -/
theorem CodeAt.jump_target {l : Listing} (hl : l.Readable)
    (haddressable : isAddressable l.codeSize = true) {ip a : Nat} {i : Instruction} {name : String}
    {rest rest' : List Item} (h : CodeAt l ip (.instruction i :: rest))
    (hoperand : i.operand = some (.label name)) {target : Int32}
    (htarget : l.encode[ip + 1]? = some target) (hlabel : CodeAt l a (.label name :: rest')) :
    target.toInt.toNat = a := by
  rcases i with ⟨op, operand, line⟩
  obtain rfl : operand = some (.label name) := hoperand
  rw [h.operand hl.toCoherent] at htarget
  cases htarget
  have hle := hlabel.le_cellCount
  have hsize := codeSize_eq_cellCount l
  rw [Listing.operandCell, Listing.target, hlabel.address hl.toCoherent, Option.getD_some]
  have hto : (Int32.ofNat a).toInt = a := toInt_codeAddress haddressable (by omega)
  rw [hto]
  exact Int.toNat_natCast a

namespace Listing.Stretches

variable {l : Listing} {main : List Item} {bodies : List (List Item)}

theorem last (h : l.Stretches main bodies) {stretch : List Item}
    (hstretch : stretch ∈ main :: bodies) :
    ∃ op, (op = .halt ∨ op = .call) ∧ EndsWith op stretch := by
  rcases List.mem_cons.mp hstretch with rfl | hbody
  · exact ⟨.halt, Or.inl rfl, h.halts⟩
  · exact ⟨.call, Or.inr rfl, h.returns _ hbody⟩

/-- Behind an instruction that is neither `halt` nor a call, the stretch goes on. -/
theorem last_behind (h : l.Stretches main bodies) {xs ys : List Item} {i : Instruction}
    (hmem : xs ++ .instruction i :: ys ∈ main :: bodies) (hhalt : i.op ≠ .halt)
    (hcall : i.op ≠ .call) : ∃ j, ys.getLast? = some (.instruction j) := by
  rcases h.last hmem with ⟨op, hop, line, hlast⟩
  rw [List.getLast?_append, List.getLast?_cons, Option.some_or, ← List.getLast?_cons] at hlast
  refine ⟨_, getLast?_tail hlast ?_⟩
  rintro ⟨⟩
  rcases hop with rfl | rfl
  · exact hhalt rfl
  · exact hcall rfl

theorem controlIsLocal (h : l.Stretches main bodies) (hl : l.Readable)
    (haddressable : isAddressable l.codeSize = true) : l.ControlIsLocal (main :: bodies) := by
  intro before stretch after hstretches m m' i hcode hat hcall hstep
  rcases hat with ⟨xs, ys, rfl, hip⟩
  have hmem : xs ++ .instruction i :: ys ∈ main :: bodies := by
    rw [hstretches]
    exact List.mem_append_right _ List.mem_cons_self
  have hitems : l.items = (before.flatten ++ xs) ++ (.instruction i :: ys) ++ after.flatten := by
    rw [h.items, ← List.flatten_cons, hstretches]
    simp
  rw [← cellCount_append] at hip
  have hplaced : CodeAt l m.ip (.instruction { i with line := 0 } :: ys.map Item.plain) :=
    ⟨_, _, _, hitems, rfl, hip⟩
  have hcell : m.code[m.ip]? = some i.op.cell := by
    rw [hcode, List.getElem?_toArray]
    exact hplaced.opcode hl.toCoherent
  rcases Exec.step_moves hcall hcell hstep with ⟨hhalt, hleads⟩
  rcases h.last_behind hmem hhalt hcall with ⟨k, hlast⟩
  have hwidth := i.op.width_pos
  rcases hleads with hnext | ⟨hjump, target, htarget, hto⟩
  · rcases @exists_instructionAt (xs ++ [.instruction i]) _ _ (cellCount before.flatten) hlast with
      ⟨j, hat⟩
    refine ⟨by omega, j, ?_⟩
    rw [hnext, hip]
    simpa [Item.width, Nat.add_assoc] using hat
  · rcases h.forward _ hmem xs _ ys rfl hjump with ⟨name, hname, hoperand⟩
    rcases exists_label_split hname with ⟨between, behind, rfl⟩
    have hlabel : CodeAt l (cellCount (before.flatten ++ xs ++ .instruction i :: between))
        (.label name :: behind.map Item.plain) :=
      ⟨_, .label name :: behind, after.flatten, by rw [hitems]; simp, rfl, rfl⟩
    have hentry : m'.ip = cellCount (before.flatten ++ xs ++ .instruction i :: between) := by
      rw [hto]
      rw [hcode, List.getElem?_toArray] at htarget
      exact hplaced.jump_target hl haddressable hoperand htarget hlabel
    have hbehind : behind.getLast? = some (.instruction k) := by
      rw [List.getLast?_append, List.getLast?_cons, Option.some_or, ← List.getLast?_cons] at hlast
      exact getLast?_tail hlast (by simp)
    rcases @exists_instructionAt (xs ++ .instruction i :: between ++ [.label name]) _ _
      (cellCount before.flatten) hbehind with ⟨j, hat⟩
    refine ⟨?_, j, ?_⟩
    · rw [hentry, hip]
      simp only [cellCount_append, cellCount_cons, Item.width]
      omega
    · rw [hentry]
      simpa [Item.width, Nat.add_assoc] using hat

end Listing.Stretches

/-!
# The stretches of a program
-/

/-- The same as in `items`, for items that only differ in their lines. -/
theorem JumpsForward.of_plain {items : List Item} (h : JumpsForward (items.map Item.plain)) :
    JumpsForward items := by
  rintro before item after rfl
  have hitem := h (before.map Item.plain) item.plain (after.map Item.plain) (by simp)
  rw [labelNames_plain] at hitem
  cases item with
  | label name => trivial
  | instruction i => exact hitem

theorem EndsWith.of_plain {op : Opcode} {items inner : List Item}
    (h : items.map Item.plain = inner ++ [.bare op]) : EndsWith op items := by
  have hlast := congrArg List.getLast? h
  rw [List.getLast?_map, List.getLast?_concat, Option.map_eq_some_iff] at hlast
  rcases hlast with ⟨item, hitem, hplain⟩
  cases item with
  | label name => cases hplain
  | instruction i =>
      rcases i with ⟨op, operand, line⟩
      cases hplain
      exact ⟨line, hitem⟩

theorem exists_segments {items : List Item} {bodies : List (List Item)}
    (h : items.map Item.plain = bodies.flatten) :
    ∃ segments : List (List Item), items = segments.flatten ∧
      segments.map (List.map Item.plain) = bodies := by
  induction bodies generalizing items with
  | nil =>
      rw [List.flatten_nil, List.map_eq_nil_iff] at h
      exact ⟨[], h, rfl⟩
  | cons body bodies ih =>
      rcases List.map_eq_append_iff.mp h with ⟨first, rest, rfl, rfl, hrest⟩
      rcases ih hrest with ⟨segments, rfl, rfl⟩
      exact ⟨first :: segments, rfl, rfl⟩

namespace Program

theorem generate_stretches {p : Program} {memorySize : Int32} {l : Listing}
    (h : p.generate memorySize = .ok l) :
    l.Readable ∧ ∃ main bodies, l.Stretches main bodies := by
  rcases generate_written h with ⟨_, known, e, items, n, bodies, hwritten, hitems, _⟩
  refine ⟨readable_of_written hitems hwritten, ?_⟩
  rcases List.map_eq_append_iff.mp hitems with ⟨main, rest, hsplit, hmain, hrest⟩
  rcases exists_segments hrest with ⟨segments, rfl, rfl⟩
  have hend : main.map Item.plain = ((if p.hasDeclarations then [.push 0] else []) ++
      (items ++ p.body.code (context memorySize) n)) ++ [.bare .halt] := by
    simp [hmain, mainCode]
  have hroutine : ∀ body ∈ segments, IsRoutine (body.map Item.plain) := fun body hbody =>
    hwritten.routines _ (List.mem_map_of_mem hbody)
  have hforward := hwritten.forward
  have hinner := hwritten.inner
  rw [← hmain, ← List.map_cons, List.forall_mem_map] at hforward
  rw [← hmain, labelNames_plain] at hinner
  refine ⟨main, segments, ?_⟩
  exact {
    items := hsplit
    halts := EndsWith.of_plain hend
    returns := by
      intro body hbody
      rcases hroutine body hbody with ⟨name, inner, hshape, _, _⟩
      rw [← List.cons_append] at hshape
      exact EndsWith.of_plain hshape
    mainLabels := hinner
    entries := by
      intro body hbody
      rcases hroutine body hbody with ⟨name, inner, hshape, hname, hlabels⟩
      rcases List.map_eq_cons_iff.mp hshape with ⟨first, others, rfl, hfirst, hothers⟩
      refine ⟨name, others, by rw [Item.eq_label_of_plain hfirst], hname, ?_⟩
      rw [← labelNames_plain, hothers, labelNames_append, labelNames_bare, labelNames_nil,
        List.append_nil]
      exact hlabels
    forward := fun stretch hstretch => (hforward stretch hstretch).of_plain }

/-- Whatever notes the tree has, what is generated for it can be assembled, and control moves in it
as it should. -/
theorem generate_wellFormed {p : Program} {memorySize : Int32} {l : Listing}
    (h : p.generate memorySize = .ok l) :
    (labelNames l.items).Nodup ∧
      (∀ i, Item.instruction i ∈ l.items → i.WellFormed ∧
        ∀ name, i.operand = some (.label name) → name ∈ labelNames l.items) ∧
      (∃ main bodies, l.Stretches main bodies ∧
        (isAddressable l.codeSize = true → l.ControlIsLocal (main :: bodies))) ∧
      ∀ capacity,
        ((∃ code, assemble l.text capacity = .ok code) ↔ l.codeSize ≤ capacity) ∧
          ∀ code, assemble l.text capacity = .ok code → code.length = l.codeSize := by
  rcases generate_stretches h with ⟨hl, main, bodies, hstretches⟩
  refine ⟨hl.labels, fun i hi => ⟨hl.operands i hi, fun name => hl.defined i name hi⟩,
    ⟨main, bodies, hstretches, hstretches.controlIsLocal hl⟩, fun capacity => ?_⟩
  rw [assemble_readable hl]
  split
  · rename_i hsmall
    refine ⟨⟨?_, fun hle => absurd hsmall (Nat.not_lt.mpr hle)⟩, ?_⟩
    · rintro ⟨code, ⟨⟩⟩
    · rintro code ⟨⟩
  · rename_i hfits
    refine ⟨⟨fun _ => Nat.not_lt.mp hfits, fun _ => ⟨l.encode, rfl⟩⟩, ?_⟩
    rintro code ⟨⟩
    rw [hl.toCoherent.length_encode, codeSize_eq_cellCount]

/-- Chooses in a body and behind it; nothing needs to be linked. -/
def choosing : Program :=
  { decls := [.function (Written.header "f" [] .int)
      ⟨[], .ifElse Written.start (.bool Written.start true) (.int Written.start 1)
        (.int Written.start 2)⟩ none]
    body := .print Written.start (.not Written.start (.bool Written.start false))
    pos := Written.start }

theorem generate_wellFormed_choosing :
    ∃ l, choosing.generate 10000 = .ok l ∧ l.codeSize = 39 ∧ (labelNames l.items).Nodup ∧
      (∀ i, Item.instruction i ∈ l.items → i.WellFormed ∧
        ∀ name, i.operand = some (.label name) → name ∈ labelNames l.items) ∧
      (∃ main bodies, l.Stretches main bodies ∧
        (isAddressable l.codeSize = true → l.ControlIsLocal (main :: bodies))) ∧
      ∀ capacity,
        ((∃ code, assemble l.text capacity = .ok code) ↔ l.codeSize ≤ capacity) ∧
          ∀ code, assemble l.text capacity = .ok code → code.length = l.codeSize := by
  have hcompiled : (choosing.generate 10000).toOption.map Listing.codeSize = some 39 := by
    decide +kernel
  cases hgenerate : choosing.generate 10000 with
  | error failure =>
      rw [hgenerate] at hcompiled
      cases hcompiled
  | ok l =>
      rw [hgenerate] at hcompiled
      exact ⟨l, rfl, Option.some.inj hcompiled, generate_wellFormed hgenerate⟩

end Program

end ClassLet
