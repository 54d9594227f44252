import ClassLet.Proofs.Generation.LinkedTrees
import ClassLet.Proofs.Typing.MissingParts
import ClassLet.Proofs.Written
import ClassLet.Target

/-!
# Which programs are built

A program is compiled to code exactly if linking and checking find no error and no part of it is
missing. A missing part is no error of the program: in the body it leaves the program without a
type, and in a declaration it stops generation.

Main statement: `Program.build_gate`.
-/

namespace ClassLet

namespace Program

/-- Linking and checking find no error. -/
def Checked (p : Program) : Prop :=
  p.link.errors = [] ∧ p.link.program.typing.errors = []

/-- An error of generation, at a missing part. -/
def IsIncompleteTree (d : Diagnostic) : Prop :=
  d.cause = .code .incompleteTree

/-!
# Outcomes of compiling
-/

section

variable {p : Program} (memorySize : Int32)

theorem compile_rejected (h : ¬p.Checked) :
    (p.compile memorySize).listing = none ∧ (p.compile memorySize).errors ≠ [] ∧
      ∀ d ∈ (p.compile memorySize).errors, ∀ fault, d.cause ≠ .code fault := by
  have herrors : p.link.errors.map Diagnostic.ofLink ++
      p.link.program.typing.errors.map Diagnostic.ofType ≠ [] := by
    intro hnil
    simp only [List.append_eq_nil_iff, List.map_eq_nil_iff] at hnil
    exact h hnil
  have hempty : (p.link.errors.map Diagnostic.ofLink ++
      p.link.program.typing.errors.map Diagnostic.ofType).isEmpty = false := by
    simpa using herrors
  have hcompile : p.compile memorySize =
      { listing := none, bodyType := p.link.program.typing.bodyType
        incomplete := p.link.program.typing.isIncomplete
        errors := p.link.errors.map Diagnostic.ofLink ++
          p.link.program.typing.errors.map Diagnostic.ofType } := by
    simp only [compile, hempty, Bool.false_and, Bool.false_eq_true, if_false]
  rw [hcompile]
  refine ⟨rfl, herrors, ?_⟩
  intro d hd fault
  rcases List.mem_append.mp hd with hd | hd
  · rcases List.mem_map.mp hd with ⟨e, _, rfl⟩
    exact Fault.noConfusion
  · rcases List.mem_map.mp hd with ⟨e, _, rfl⟩
    exact Fault.noConfusion

theorem compile_untyped (h : p.Checked) (hbody : p.body.hasMissing = true) :
    (p.compile memorySize).listing = none ∧ (p.compile memorySize).errors = [] := by
  have htype := bodyType_link h.1 h.2
  rw [hbody] at htype
  simp [compile, h.1, h.2, htype]

theorem compile_stopped (h : p.Checked) (hbody : p.body.hasMissing = false)
    (hdecls : Decl.hasMissingAll p.decls = true) :
    (p.compile memorySize).listing = none ∧
      ∃ d, IsIncompleteTree d ∧ (p.compile memorySize).errors = [d] := by
  have htype := bodyType_link h.1 h.2
  rw [hbody] at htype
  rcases generate_link h.1 memorySize with ⟨hmissing, _⟩ | ⟨_, pos, hgenerate⟩
  · rw [hasMissing, hdecls] at hmissing
    cases hmissing
  · have hstop : Diagnostic.ofCode { pos, cause := .incompleteTree } =
        { pos, cause := .code .incompleteTree } := rfl
    simp [compile, h.1, h.2, htype, hgenerate, hstop, IsIncompleteTree]

theorem compile_complete (h : p.Checked) (hmissing : p.hasMissing = false) :
    ∃ listing, (p.compile memorySize).listing = some listing ∧
      (p.compile memorySize).errors = [] := by
  have htype := bodyType_link h.1 h.2
  rw [(Bool.or_eq_false_iff.mp hmissing).2] at htype
  rcases generate_link h.1 memorySize with ⟨_, listing, hgenerate⟩ | ⟨hmissing', _⟩
  · simp [compile, h.1, h.2, htype, hgenerate]
  · rw [hmissing] at hmissing'
    cases hmissing'

/-- Either an error is found, or it depends on where a part is missing. -/
theorem outcome_cases (p : Program) :
    (¬p.Checked) ∨ (p.Checked ∧ p.body.hasMissing = true) ∨
      (p.Checked ∧ p.body.hasMissing = false ∧ Decl.hasMissingAll p.decls = true) ∨
      (p.Checked ∧ p.hasMissing = false) := by
  by_cases h : p.Checked
  · cases hbody : p.body.hasMissing with
    | true => exact Or.inr (Or.inl ⟨h, rfl⟩)
    | false =>
        cases hdecls : Decl.hasMissingAll p.decls with
        | true => exact Or.inr (Or.inr (Or.inl ⟨h, rfl, rfl⟩))
        | false =>
            refine Or.inr (Or.inr (Or.inr ⟨h, ?_⟩))
            rw [hasMissing, hbody, hdecls]
            rfl
  · exact Or.inl h

theorem compile_incomplete : (p.compile memorySize).incomplete =
    p.link.program.typing.isIncomplete := by
  simp only [compile]
  split
  · split <;> rfl
  · rfl

/-!
# Outcomes of building
-/

variable {t : Target}

theorem build_rejected (ht : isAddressable t.memorySize)
    (h : (p.compile (Int32.ofNat t.memorySize)).errors ≠ []) :
    t.build p = .error (.rejected (p.compile (Int32.ofNat t.memorySize)).errors) := by
  unfold Target.build
  rw [if_pos ht]
  simp [h]

theorem build_unlisted (ht : isAddressable t.memorySize)
    (herrors : (p.compile (Int32.ofNat t.memorySize)).errors = [])
    (hlisting : (p.compile (Int32.ofNat t.memorySize)).listing = none) :
    t.build p = .error .incompleteProgram := by
  unfold Target.build
  rw [if_pos ht]
  simp [herrors, hlisting]

/-- With a listing, only the assembler can fail. -/
theorem build_listed (ht : isAddressable t.memorySize) {listing : Listing}
    (herrors : (p.compile (Int32.ofNat t.memorySize)).errors = [])
    (hlisting : (p.compile (Int32.ofNat t.memorySize)).listing = some listing) :
    t.build p ≠ .error .incompleteProgram ∧ ∀ errors, t.build p ≠ .error (.rejected errors) := by
  unfold Target.build
  rw [if_pos ht]
  simp only [herrors, hlisting, List.isEmpty_nil, if_true]
  split <;> simp

end

/-!
# The gate
-/

theorem build_gate (p : Program) (memorySize : Int32) :
    ((p.compile memorySize).listing.isSome ↔ p.Checked ∧ p.hasMissing = false) ∧
      (∀ d ∈ (p.compile memorySize).errors, ∀ fault, d.cause = .code fault →
        fault = .incompleteTree) ∧
      (p.Checked → ((p.compile memorySize).incomplete ↔ p.hasMissing)) ∧
      ∀ t : Target, isAddressable t.memorySize →
        (t.build p = .error .incompleteProgram ↔ p.Checked ∧ p.body.hasMissing) ∧
          ((∃ d, IsIncompleteTree d ∧ t.build p = .error (.rejected [d])) ↔
            p.Checked ∧ Decl.hasMissingAll p.decls ∧ p.body.hasMissing = false) := by
  refine ⟨?_, ?_, ?_, ?_⟩
  · rcases p.outcome_cases with h | ⟨h, hbody⟩ | ⟨h, hbody, hdecls⟩ | ⟨h, hmissing⟩
    · simp [h, (compile_rejected memorySize h).1]
    · simp [h, (compile_untyped memorySize h hbody).1, hasMissing, hbody]
    · simp [h, (compile_stopped memorySize h hbody hdecls).1, hasMissing, hdecls]
    · rcases compile_complete memorySize h hmissing with ⟨listing, hlisting, _⟩
      simp [h, hlisting, hmissing]
  · intro d hd fault hfault
    rcases p.outcome_cases with h | ⟨h, hbody⟩ | ⟨h, hbody, hdecls⟩ | ⟨h, hmissing⟩
    · exact absurd hfault ((compile_rejected memorySize h).2.2 d hd fault)
    · simp [(compile_untyped memorySize h hbody).2] at hd
    · rcases (compile_stopped memorySize h hbody hdecls).2 with ⟨d', hstop, herrors⟩
      rw [herrors, List.mem_singleton] at hd
      rw [hd, hstop] at hfault
      cases hfault
      rfl
    · rcases compile_complete memorySize h hmissing with ⟨_, _, herrors⟩
      simp [herrors] at hd
  · intro h
    rw [compile_incomplete, isIncomplete_link h.1 h.2]
  · intro t ht
    rcases p.outcome_cases with h | ⟨h, hbody⟩ | ⟨h, hbody, hdecls⟩ | ⟨h, hmissing⟩
    · rcases compile_rejected (Int32.ofNat t.memorySize) h with ⟨_, herrors, hfaults⟩
      rw [build_rejected ht herrors]
      constructor
      · simp [h]
      · simp only [h, false_and, iff_false, Except.error.injEq, BuildError.rejected.injEq]
        rintro ⟨d, hstop, heq⟩
        exact hfaults d (heq ▸ List.mem_cons_self) _ hstop
    · rcases compile_untyped (Int32.ofNat t.memorySize) h hbody with ⟨hlisting, herrors⟩
      rw [build_unlisted ht herrors hlisting]
      simp [h, hbody]
    · rcases compile_stopped (Int32.ofNat t.memorySize) h hbody hdecls with ⟨_, d, hstop, herrors⟩
      rw [build_rejected ht (herrors ▸ List.cons_ne_nil _ _), herrors]
      constructor
      · simp [hbody]
      · simp only [h, hdecls, hbody, and_true, iff_true]
        exact ⟨d, hstop, rfl⟩
    · rcases compile_complete (Int32.ofNat t.memorySize) h hmissing with
        ⟨listing, hlisting, herrors⟩
      rcases build_listed ht herrors hlisting with ⟨hcomplete, haccepted⟩
      rw [hasMissing, Bool.or_eq_false_iff] at hmissing
      constructor
      · simp [hcomplete, hmissing.2]
      · simp [haccepted, hmissing.1]

/-- One function without an expression and a body with one, or none. -/
def gaping (body : Expr) : Program :=
  { decls := [.function (Written.header "f" [] .int) ⟨[], .missing Written.start⟩ none]
    body
    pos := Written.start }

theorem build_gate_gaping :
    let t : Target := {}
    isAddressable t.memorySize ∧
      t.build (gaping (.missing Written.start)) = .error .incompleteProgram ∧
      ∃ d, IsIncompleteTree d ∧
        t.build (gaping (.int Written.start 1)) = .error (.rejected [d]) := by
  have ht : isAddressable ({} : Target).memorySize := by decide
  have hbody := (((gaping (.missing Written.start)).build_gate 0).2.2.2 _ ht).1
  have hdecls := (((gaping (.int Written.start 1)).build_gate 0).2.2.2 _ ht).2
  exact ⟨ht, hbody.mpr ⟨by unfold Checked; decide, by decide⟩,
    hdecls.mpr ⟨by unfold Checked; decide, by decide, by decide⟩⟩

end Program

end ClassLet
