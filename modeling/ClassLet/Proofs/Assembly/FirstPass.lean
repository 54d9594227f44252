import Mathlib.Data.List.Forall2
import ClassLet.Proofs.Assembly.LineGrammar

/-!
# Reading an assembly text line by line

The lines are read in their order, up to the first that is malformed or defines a label again. What
is known then of the lines before it, and at the end of the whole text, does not depend on how they
were read: the size of the code, where each label is defined, and the instructions.

Main statements: `Draft.read_of_readsText` and `Draft.read_of_fault`, and `readsText_or_fault`:
there is no third case.
-/

namespace ClassLet

/-!
# Lines
-/

namespace AssemblyLine

/-- The number of code cells that the line takes. -/
def width : AssemblyLine → Nat
  | instruction op _ => op.width
  | _ => 0

def labelName? : AssemblyLine → Option String
  | label name => some name
  | _ => none

end AssemblyLine

def linesSize (lines : List AssemblyLine) : Nat :=
  lines.foldr (fun line size => line.width + size) 0

def definedNames (lines : List AssemblyLine) : List String :=
  lines.filterMap AssemblyLine.labelName?

/-- The instructions of the lines; the first line has the given number. -/
def draftsFrom : Nat → List AssemblyLine → List DraftInstruction
  | _, [] => []
  | number, .instruction op operand :: lines =>
      { line := number, op, operand } :: draftsFrom (number + 1) lines
  | number, _ :: lines => draftsFrom (number + 1) lines

/-- The label is defined, and the instructions before its definition take so many cells. -/
def DefinedAt (lines : List AssemblyLine) (name : String) (a : Nat) : Prop :=
  ∃ before after, lines = before ++ .label name :: after ∧ a = linesSize before

/-- All lines of the text are lines of the grammar, and none defines a label again. -/
structure ReadsText (text : List Char) (lines : List AssemblyLine) : Prop where
  pieces : ∃ pieces, HasLines text pieces ∧ List.Forall₂ AssemblyLine.ReadsAs pieces lines
  labels : (definedNames lines).Nodup

/-- The error is about the first line that is malformed or defines a label again. -/
def FirstLineFault (text : List Char) (err : AssemblyError) : Prop :=
  ∃ before piece after lines, HasLines text (before ++ piece :: after) ∧
    List.Forall₂ AssemblyLine.ReadsAs before lines ∧ (definedNames lines).Nodup ∧
    (AssemblyLine.Malformed (before.length + 1) piece err ∨
      ∃ name, AssemblyLine.ReadsAs piece (.label name) ∧ name ∈ definedNames lines ∧
        err = .labelTwice (before.length + 1) name)

/-!
# One line more
-/

theorem linesSize_append (xs ys : List AssemblyLine) :
    linesSize (xs ++ ys) = linesSize xs + linesSize ys := by
  induction xs with
  | nil => exact (Nat.zero_add _).symm
  | cons line xs ih =>
      show line.width + linesSize (xs ++ ys) = line.width + linesSize xs + linesSize ys
      rw [ih, Nat.add_assoc]

theorem definedNames_append (xs ys : List AssemblyLine) :
    definedNames (xs ++ ys) = definedNames xs ++ definedNames ys :=
  List.filterMap_append

theorem draftsFrom_append (number : Nat) (xs ys : List AssemblyLine) :
    draftsFrom number (xs ++ ys) =
      draftsFrom number xs ++ draftsFrom (number + xs.length) ys := by
  induction xs generalizing number with
  | nil => rfl
  | cons line xs ih =>
      have hrest := ih (number + 1)
      rw [Nat.add_right_comm] at hrest
      cases line <;> simp [draftsFrom, hrest, Nat.add_assoc]

theorem definedAt_concat {lines : List AssemblyLine} {line : AssemblyLine} {name : String}
    {a : Nat} :
    DefinedAt (lines ++ [line]) name a ↔
      DefinedAt lines name a ∨ line = .label name ∧ a = linesSize lines := by
  constructor
  · intro h
    rcases h with ⟨before, after, hsplit, ha⟩
    rcases List.eq_nil_or_concat after with rfl | ⟨rest, last, rfl⟩
    · rcases List.append_inj' hsplit rfl with ⟨rfl, hlast⟩
      exact Or.inr ⟨List.singleton_inj.mp hlast, ha⟩
    · rw [List.concat_eq_append, ← List.cons_append, ← List.append_assoc] at hsplit
      rcases List.append_inj' hsplit rfl with ⟨rfl, _⟩
      exact Or.inl ⟨before, rest, rfl, ha⟩
  · intro h
    rcases h with ⟨before, after, rfl, ha⟩ | ⟨rfl, ha⟩
    · exact ⟨before, after ++ [line], by simp, ha⟩
    · exact ⟨lines, [], rfl, ha⟩

theorem mem_definedNames_iff {lines : List AssemblyLine} {name : String} :
    name ∈ definedNames lines ↔ ∃ a, DefinedAt lines name a := by
  constructor
  · intro hmem
    rcases List.mem_filterMap.mp hmem with ⟨line, hline, hname⟩
    cases line with
    | label name' =>
        cases hname
        rcases List.append_of_mem hline with ⟨before, after, hsplit⟩
        exact ⟨_, before, after, hsplit, rfl⟩
    | blank => cases hname
    | instruction op operand => cases hname
  · intro h
    rcases h with ⟨_, before, after, rfl, _⟩
    rw [definedNames_append]
    exact List.mem_append_right _ List.mem_cons_self

theorem nodup_definedNames_concat {lines : List AssemblyLine} {line : AssemblyLine} :
    (definedNames (lines ++ [line])).Nodup ↔
      (definedNames lines).Nodup ∧ ∀ name, line = .label name → name ∉ definedNames lines := by
  rw [definedNames_append]
  cases line with
  | blank => simp [definedNames, List.filterMap_cons, AssemblyLine.labelName?]
  | instruction op operand => simp [definedNames, List.filterMap_cons, AssemblyLine.labelName?]
  | label name =>
      show (definedNames lines ++ [name]).Nodup ↔ _
      simp [List.nodup_append, ne_comm, List.forall_mem_ne]

/-!
# Drafts
-/

namespace Draft

/-- The draft is what reading the lines from the first one gives. -/
structure Holds (d : Draft) (lines : List AssemblyLine) : Prop where
  size : d.size = linesSize lines
  labels : ∀ name a, d.labels.find? name = some a ↔ DefinedAt lines name a
  instructions : d.instructions.toList = draftsFrom 1 lines

theorem holds_empty : Holds empty [] where
  size := rfl
  labels := by
    intro name a
    constructor
    · intro h
      cases h
    · intro h
      rcases h with ⟨before, after, hsplit, _⟩
      exact absurd hsplit (by simp)
  instructions := rfl

namespace Holds

variable {d : Draft} {lines : List AssemblyLine}

theorem contains_iff (h : d.Holds lines) (name : String) :
    d.labels.contains name = true ↔ name ∈ definedNames lines := by
  rw [mem_definedNames_iff, NameMap.contains, Option.isSome_iff_exists]
  simp only [h.labels]

theorem addLine (h : d.Holds lines) {line : AssemblyLine}
    (hnew : ∀ name, line = .label name → name ∉ definedNames lines) :
    ∃ d', d.addLine (lines.length + 1) line = .ok d' ∧ d'.Holds (lines ++ [line]) := by
  cases line with
  | blank =>
      refine ⟨d, rfl, ?_, ?_, ?_⟩
      · rw [h.size, linesSize_append]
        rfl
      · intro name a
        rw [h.labels, definedAt_concat]
        simp
      · rw [h.instructions, draftsFrom_append, draftsFrom, draftsFrom, List.append_nil]
        simp
  | label name =>
      have hcontains : d.labels.contains name = false := by
        rw [← Bool.not_eq_true, h.contains_iff]
        exact hnew name rfl
      refine ⟨{ d with labels := d.labels.insert name d.size }, ?_, ?_, ?_, ?_⟩
      · simp [Draft.addLine, hcontains]
      · rw [linesSize_append]
        exact h.size
      · intro k a
        rw [NameMap.find?_insert, definedAt_concat, ← h.labels, ← h.size, AssemblyLine.label.injEq]
        by_cases hk : k = name
        · subst hk
          have hnone : d.labels.find? k = none := by
            rw [NameMap.find?_eq_none_iff, ← NameMap.contains_iff, hcontains]
            exact Bool.false_ne_true
          simp [hnone, eq_comm]
        · simp [hk, Ne.symm hk]
      · rw [draftsFrom_append]
        simp [draftsFrom, h.instructions]
  | instruction op operand =>
      refine ⟨_, rfl, ?_, ?_, ?_⟩
      · rw [linesSize_append, ← h.size]
        simp [linesSize, AssemblyLine.width]
      · intro name a
        rw [definedAt_concat, ← h.labels]
        simp
      · rw [draftsFrom_append]
        simp [draftsFrom, h.instructions, Nat.add_comm]

end Holds

theorem read_append (d : Draft) (number : Nat) (xs ys : List (List Char)) :
    d.read number (xs ++ ys) =
      d.read number xs >>= fun d => d.read (number + xs.length) ys := by
  induction xs generalizing d number with
  | nil => rfl
  | cons piece xs ih =>
      rw [List.cons_append, read, read, bind_assoc]
      congr 1
      funext line
      rw [bind_assoc]
      congr 1
      funext d'
      rw [ih, List.length_cons, Nat.add_assoc, Nat.add_comm 1]

theorem Holds.read {d : Draft} {pieces : List (List Char)} {before lines : List AssemblyLine}
    (h : d.Holds before) (hreads : List.Forall₂ AssemblyLine.ReadsAs pieces lines)
    (hlabels : (definedNames (before ++ lines)).Nodup) :
    ∃ d', d.read (before.length + 1) pieces = .ok d' ∧ d'.Holds (before ++ lines) := by
  induction hreads generalizing d before with
  | nil => exact ⟨d, rfl, by rwa [List.append_nil]⟩
  | @cons piece line pieces lines hline _ ih =>
      rw [List.append_cons] at hlabels ⊢
      have hprefix := hlabels
      rw [definedNames_append] at hprefix
      have hnew := (nodup_definedNames_concat.mp (List.nodup_append.mp hprefix).1).2
      rcases h.addLine hnew with ⟨d', hadd, hholds⟩
      rcases ih hholds hlabels with ⟨d'', hread, hholds'⟩
      refine ⟨d'', ?_, hholds'⟩
      rw [List.length_append, List.length_singleton] at hread
      rw [Draft.read, AssemblyLine.parse_of_readsAs hline]
      show (d.addLine _ _ >>= _) = _
      rw [hadd]
      exact hread

end Draft

/-!
# The whole text
-/

variable {text : List Char} {lines : List AssemblyLine} {err : AssemblyError}

theorem Draft.read_of_readsText (h : ReadsText text lines) :
    ∃ d, Draft.empty.read 1 (splitLines text) = .ok d ∧ d.Holds lines := by
  rcases h.pieces with ⟨pieces, hpieces, hreads⟩
  rw [hpieces.splitLines]
  exact Draft.holds_empty.read hreads h.labels

theorem Draft.read_of_fault (h : FirstLineFault text err) :
    Draft.empty.read 1 (splitLines text) = .error err := by
  rcases h with ⟨before, piece, after, lines, hpieces, hreads, hlabels, hfault⟩
  rcases Draft.holds_empty.read hreads hlabels with ⟨d, hread, hholds⟩
  rw [List.length_nil, Nat.zero_add] at hread
  rw [hpieces.splitLines, Draft.read_append, hread]
  show d.read _ (piece :: after) = _
  rw [Draft.read, Nat.add_comm]
  rcases hfault with hmalformed | ⟨name, hline, hmem, rfl⟩
  · rw [AssemblyLine.parse_of_malformed hmalformed]
    rfl
  · rw [AssemblyLine.parse_of_readsAs hline]
    show (d.addLine _ _ >>= _) = _
    rw [Draft.addLine, if_pos ((hholds.contains_iff name).mpr hmem)]
    rfl

/-- The lines of a text are in order, or there is a first one that is not. -/
theorem readsText_or_fault (text : List Char) :
    (∃ lines, ReadsText text lines) ∨ ∃ err, FirstLineFault text err := by
  have hpieces := hasLines_splitLines text
  generalize splitLines text = pieces at hpieces
  -- The pieces so far are in order; what follows them is read piece by piece.
  suffices hall : ∀ (after before : List (List Char)) (lines : List AssemblyLine),
      pieces = before ++ after → List.Forall₂ AssemblyLine.ReadsAs before lines →
      (definedNames lines).Nodup →
      (∃ lines, ReadsText text lines) ∨ ∃ err, FirstLineFault text err from
    hall pieces [] [] rfl List.Forall₂.nil List.nodup_nil
  intro after
  induction after with
  | nil =>
      intro before lines hsplit hreads hlabels
      rw [List.append_nil] at hsplit
      exact Or.inl ⟨lines, ⟨pieces, hpieces, hsplit ▸ hreads⟩, hlabels⟩
  | cons piece after ih =>
      intro before lines hsplit hreads hlabels
      rcases AssemblyLine.readsAs_or_malformed (before.length + 1) piece with
        ⟨line, hline⟩ | ⟨err, hmalformed⟩
      · by_cases htwice : ∃ name, line = .label name ∧ name ∈ definedNames lines
        · rcases htwice with ⟨name, rfl, hmem⟩
          exact Or.inr ⟨_, before, piece, after, lines, hsplit ▸ hpieces, hreads, hlabels,
            Or.inr ⟨name, hline, hmem, rfl⟩⟩
        · apply ih (before ++ [piece]) (lines ++ [line])
          · rw [hsplit, List.append_assoc, List.singleton_append]
          · exact List.rel_append hreads (List.Forall₂.cons hline List.Forall₂.nil)
          · apply nodup_definedNames_concat.mpr
            exact ⟨hlabels, fun name hname hmem => htwice ⟨name, hname, hmem⟩⟩
      · exact Or.inr ⟨err, before, piece, after, lines, hsplit ▸ hpieces, hreads, hlabels,
          Or.inl hmalformed⟩

end ClassLet
