import ClassLet.Proofs.Generation.ForwardJumps

/-!
# Emitted bodies

Code of declarations goes to two places: items for the stream that is open, and the bodies of
functions and methods, each of them in one piece, to the finished ones. Every label that is taken
is defined once, in the items or in one of the bodies. Jumps lead forwards within the items or
within one of the bodies.

Main statements: `Written.trans`, one part of the code behind another, and `Written.close`, a body
that is closed joins the finished ones.
-/

namespace ClassLet

/-- The labels of bodies with the numbers from `n` on. -/
def functionRange (n count : Nat) : List String :=
  (List.range' n count).map functionText

@[simp]
theorem functionRange_zero (n : Nat) : functionRange n 0 = [] :=
  rfl

theorem functionRange_succ (n count : Nat) :
    functionRange n (count + 1) = functionText n :: functionRange (n + 1) count :=
  rfl

theorem functionRange_add (n a b : Nat) :
    functionRange n (a + b) = functionRange n a ++ functionRange (n + a) b := by
  simp only [functionRange, ← List.map_append]
  congr 1
  have happend : List.range' n a ++ List.range' (n + 1 * a) b = List.range' n (a + b) :=
    List.range'_append
  rw [Nat.one_mul] at happend
  exact happend.symm

theorem not_isFunctionLabel_labelRange {n count : Nat} {name : String}
    (h : name ∈ labelRange n count) : ¬IsFunctionLabel name := by
  rcases List.mem_map.mp h with ⟨k, _, rfl⟩
  exact not_isFunctionLabel_labelText k

/-!
# Routines
-/

/-- The code of a body: one function label, in front, and a jump back at the end. -/
def IsRoutine (segment : List Item) : Prop :=
  ∃ name inner, segment = .label name :: (inner ++ [.bare .call]) ∧ IsFunctionLabel name ∧
    ∀ n ∈ labelNames inner, ¬IsFunctionLabel n

namespace Code

/-- Takes a frame off the stack and leaves the result there. -/
def dropFrame (locals params : Nat) : List Item :=
  .bare .popTm :: (List.replicate locals (.bare .pop) ++ (.bare .popRa :: .bare .pop ::
    (List.replicate params (.bare .pop) ++ [.bare .popFp, .bare .pushTm, .bare .pushRa])))

def epilogue (locals params : Nat) : List Item :=
  dropFrame locals params ++ [.bare .call]

/-- The code of a body, given the code of its declarations and of its result. -/
def routine (label : String) (locals params : Nat) (inner : List Item) : List Item :=
  .label label :: .bare .setFp :: .bare .pushRa :: (inner ++ epilogue locals params)

def storeLabels : List String → List Item
  | [] => []
  | label :: labels => .pushLabel label :: (storeOnHeap ++ storeLabels labels)

@[simp]
theorem labelNames_epilogue (locals params : Nat) : labelNames (epilogue locals params) = [] := by
  simp [epilogue, dropFrame]

@[simp]
theorem labelNames_storeLabels (labels : List String) : labelNames (storeLabels labels) = [] := by
  induction labels with
  | nil => rfl
  | cons label labels ih => simp [storeLabels, storeOnHeap, ih]

end Code

theorem Uses.epilogue {names : List String} (locals params : Nat) :
    Uses names (Code.epilogue locals params) := by
  simp only [Code.epilogue, Code.dropFrame, cons_iff, append_iff, bare_iff, nil, and_true]
  exact ⟨⟨rfl, bareRepeat rfl _, rfl, rfl, bareRepeat rfl _, rfl, rfl, rfl⟩, rfl⟩

theorem Uses.storeLabels {names labels : List String} (h : labels ⊆ names) :
    Uses names (Code.storeLabels labels) := by
  induction labels with
  | nil => exact nil
  | cons label labels ih =>
      rw [List.cons_subset] at h
      simp only [Code.storeLabels, cons_iff, append_iff, pushLabel_iff]
      exact ⟨h.1, storeOnHeap, ih h.2⟩

theorem JumpsForward.epilogue (locals params : Nat) :
    JumpsForward (Code.epilogue locals params) := by
  have hparams : JumpsForward (List.replicate params (.bare .pop) ++
      [.bare .popFp, .bare .pushTm, .bare .pushRa]) :=
    (bareRepeat rfl params).append (by simp [Opcode.isJump])
  have hlocals : JumpsForward (List.replicate locals (.bare .pop) ++ (.bare .popRa :: .bare .pop ::
      (List.replicate params (.bare .pop) ++ [.bare .popFp, .bare .pushTm, .bare .pushRa]))) :=
    (bareRepeat rfl locals).append (by simp [Opcode.isJump, hparams])
  exact append (by simp [Code.dropFrame, Opcode.isJump, hlocals]) (by simp [Opcode.isJump])

theorem JumpsForward.storeLabels (labels : List String) :
    JumpsForward (Code.storeLabels labels) := by
  induction labels with
  | nil => exact nil
  | cons label labels ih =>
      exact cons_iff.mpr ⟨Item.JumpsInto.pushLabel label, storeOnHeap.append ih⟩

/-!
# Taken labels
-/

namespace Emitter

def finishedItems (e : Emitter) : List Item :=
  e.finished.toList.map Item.plain

/-- The labels that the second emitter has taken since the first. -/
def taken (e e' : Emitter) : List String :=
  labelRange e.labelCount (e'.labelCount - e.labelCount) ++
    functionRange e.functionCount (e'.functionCount - e.functionCount)

theorem taken_trans {e e' e'' : Emitter} (hl : e.labelCount ≤ e'.labelCount)
    (hl' : e'.labelCount ≤ e''.labelCount) (hf : e.functionCount ≤ e'.functionCount)
    (hf' : e'.functionCount ≤ e''.functionCount) (name : String) :
    (e.taken e'').count name = (e.taken e').count name + (e'.taken e'').count name := by
  have hlabels : labelRange e.labelCount (e''.labelCount - e.labelCount) =
      labelRange e.labelCount (e'.labelCount - e.labelCount) ++
        labelRange e'.labelCount (e''.labelCount - e'.labelCount) := by
    have hstart : e'.labelCount = e.labelCount + (e'.labelCount - e.labelCount) := by omega
    have htotal : e''.labelCount - e.labelCount =
        e'.labelCount - e.labelCount + (e''.labelCount - e'.labelCount) := by omega
    rw [htotal, labelRange_add, ← hstart]
  have hfunctions : functionRange e.functionCount (e''.functionCount - e.functionCount) =
      functionRange e.functionCount (e'.functionCount - e.functionCount) ++
        functionRange e'.functionCount (e''.functionCount - e'.functionCount) := by
    have hstart : e'.functionCount = e.functionCount + (e'.functionCount - e.functionCount) := by
      omega
    have htotal : e''.functionCount - e.functionCount =
        e'.functionCount - e.functionCount + (e''.functionCount - e'.functionCount) := by omega
    rw [htotal, functionRange_add, ← hstart]
  simp only [taken, hlabels, hfunctions, List.count_append]
  omega

/-!
# What has been written
-/

/-- The second emitter has the given items behind those of the first and the given bodies behind
its finished ones. They may refer to the given labels that are defined elsewhere. -/
structure Written (known : List String) (e e' : Emitter) (items : List Item)
    (bodies : List (List Item)) : Prop where
  streams : ∀ first rest, e.streams = first :: rest → e'.streams = (first ++ items) :: rest
  finished : e'.finishedItems = e.finishedItems ++ bodies.flatten
  labels_le : e.labelCount ≤ e'.labelCount
  functions_le : e.functionCount ≤ e'.functionCount
  names : (labelNames (items ++ bodies.flatten)).Perm (e.taken e')
  uses : Uses (labelNames (items ++ bodies.flatten) ++ known) (items ++ bodies.flatten)
  inner : ∀ name ∈ labelNames items, ¬IsFunctionLabel name
  routines : ∀ segment ∈ bodies, IsRoutine segment
  forward : ∀ stretch ∈ items :: bodies, JumpsForward stretch

theorem Added.written {known : List String} {e e' : Emitter} {items : List Item} {labels : Nat}
    (h : e.Added e' items labels)
    (hnames : (labelNames items).Perm (labelRange e.labelCount labels))
    (huses : Uses (labelNames items ++ known) items) (hforward : JumpsForward items) :
    Written known e e' items [] where
  streams := h.streams
  finished := by
    simp [finishedItems, h.finished]
  labels_le := by
    rw [h.labelCount]
    omega
  functions_le := Nat.le_of_eq h.functionCount.symm
  names := by
    simpa [taken, h.labelCount, h.functionCount] using hnames
  uses := by
    simpa using huses
  inner := fun name hname => not_isFunctionLabel_labelRange (hnames.mem_iff.mp hname)
  routines := by
    intro segment hsegment
    cases hsegment
  forward := by
    intro stretch hstretch
    rw [List.mem_singleton] at hstretch
    exact hstretch ▸ hforward

theorem Added.written_expr {known : List String} {e e' : Emitter} {expr : Expr}
    {ctx : CodeContext} (h : e.Added e' (expr.code ctx e.labelCount) expr.labels) :
    Written known e e' (expr.code ctx e.labelCount) [] := by
  have hnames := expr.labelNames_code ctx e.labelCount
  refine h.written hnames ((expr.uses_code ctx e.labelCount).mono ?_) (expr.jumpsForward_code ctx _)
  exact fun name hname => List.mem_append_left _ (hnames.mem_iff.mpr hname)

/-- Items without labels that use known ones. -/
theorem Added.written_unlabelled {known : List String} {e e' : Emitter} {items : List Item}
    (h : e.Added e' items 0) (hnames : labelNames items = []) (huses : Uses known items)
    (hforward : JumpsForward items) : Written known e e' items [] := by
  refine h.written (by rw [hnames]; exact List.Perm.refl _) ?_ hforward
  rw [hnames]
  exact huses

namespace Written

variable {known known' : List String} {e e' e'' : Emitter} {xs ys : List Item}
  {bodies bodies' : List (List Item)}

theorem refl (known : List String) (e : Emitter) : Written known e e [] [] :=
  (Added.refl e).written_unlabelled rfl Uses.nil JumpsForward.nil

theorem trans (h : Written known e e' xs bodies) (h' : Written known' e' e'' ys bodies')
    (hknown : known' ⊆ labelNames (xs ++ bodies.flatten) ++ known) :
    Written known e e'' (xs ++ ys) (bodies ++ bodies') where
  streams := by
    intro first rest hfirst
    rw [← List.append_assoc]
    exact h'.streams _ _ (h.streams first rest hfirst)
  finished := by
    rw [h'.finished, h.finished, List.flatten_append, List.append_assoc]
  labels_le := Nat.le_trans h.labels_le h'.labels_le
  functions_le := Nat.le_trans h.functions_le h'.functions_le
  names := by
    have hnames := h.names
    have hnames' := h'.names
    rw [List.perm_iff_count] at hnames hnames' ⊢
    intro name
    have hfirst := hnames name
    have hsecond := hnames' name
    rw [taken_trans h.labels_le h'.labels_le h.functions_le h'.functions_le]
    simp only [labelNames_append, List.flatten_append, List.count_append] at hfirst hsecond ⊢
    omega
  uses := by
    have hfirst : Uses (labelNames (xs ++ ys ++ (bodies ++ bodies').flatten) ++ known)
        (xs ++ bodies.flatten) := by
      apply h.uses.mono
      intro name hname
      simp only [labelNames_append, List.flatten_append, List.mem_append] at hname ⊢
      grind
    have hsecond : Uses (labelNames (xs ++ ys ++ (bodies ++ bodies').flatten) ++ known)
        (ys ++ bodies'.flatten) := by
      apply h'.uses.mono
      intro name hname
      have := @hknown name
      simp only [labelNames_append, List.flatten_append, List.mem_append] at this hname ⊢
      grind
    rw [Uses.append_iff] at hfirst hsecond
    rw [Uses.append_iff, Uses.append_iff]
    rw [List.flatten_append] at hfirst hsecond ⊢
    rw [Uses.append_iff]
    exact ⟨⟨hfirst.1, hsecond.1⟩, hfirst.2, hsecond.2⟩
  inner := by
    intro name hname
    rw [labelNames_append, List.mem_append] at hname
    rcases hname with hname | hname
    · exact h.inner name hname
    · exact h'.inner name hname
  routines := by
    intro segment hsegment
    rcases List.mem_append.mp hsegment with hsegment | hsegment
    · exact h.routines segment hsegment
    · exact h'.routines segment hsegment
  forward := by
    have hfirst := List.forall_mem_cons.mp h.forward
    have hsecond := List.forall_mem_cons.mp h'.forward
    rw [List.forall_mem_cons, List.forall_mem_append]
    exact ⟨hfirst.1.append hsecond.1, hfirst.2, hsecond.2⟩

end Written

/-!
# Closing a body
-/

theorem streams_openBody (e : Emitter) (label : String) :
    (e.openBody label).streams = [.label label] :: e.streams :=
  rfl

theorem streams_closeBody {e : Emitter} {first second : List Item} {rest : List (List Item)}
    (h : e.streams = first :: second :: rest) :
    e.closeBody.streams = second :: rest ∧
      e.closeBody.finishedItems = e.finishedItems ++ first := by
  cases hpending : e.pending with
  | nil => simp [streams, hpending] at h
  | cons body others =>
      simp only [streams, hpending, List.map_cons, List.cons_append, List.cons.injEq] at h
      rcases h with ⟨rfl, hrest⟩
      have hclose : e.closeBody =
          { e with pending := others, finished := e.finished ++ body } := by
        simp [closeBody, hpending]
      rw [hclose]
      exact ⟨hrest, by simp [finishedItems]⟩

theorem closeBody_counts (e : Emitter) :
    e.closeBody.labelCount = e.labelCount ∧ e.closeBody.functionCount = e.functionCount := by
  unfold closeBody
  split <;> exact ⟨rfl, rfl⟩

/-- For a body its label is taken, and what is taken within it. -/
theorem count_taken_closeBody {e e' : Emitter} (hle : e.functionCount + 1 ≤ e'.functionCount)
    (name : String) :
    (e.taken e'.closeBody).count name =
      ((e.newFunction.2.openBody e.newFunction.1).taken e').count name +
        [e.newFunction.1].count name := by
  rcases e'.closeBody_counts with ⟨hlabelCount, hfunctionCount⟩
  have hcount : e'.functionCount - e.functionCount =
      e'.functionCount - (e.functionCount + 1) + 1 := by omega
  simp only [taken, hlabelCount, hfunctionCount, hcount, functionRange_succ]
  simp only [newFunction, openBody, List.count_append, List.count_cons, List.count_nil,
    functionText]
  omega

/-- A body with a fresh label that is written and closed. -/
theorem Written.close {known : List String} {e e' : Emitter} {inner : List Item}
    {bodies : List (List Item)}
    (h : Written known (e.newFunction.2.openBody e.newFunction.1) e' (inner ++ [.bare .call])
      bodies) :
    Written known e e'.closeBody []
      (bodies ++ [.label e.newFunction.1 :: (inner ++ [.bare .call])]) := by
  rcases e.streams_cons with ⟨first, rest, hstreams⟩
  have hopen : (e.newFunction.2.openBody e.newFunction.1).streams =
      [.label e.newFunction.1] :: first :: rest := by
    rw [streams_openBody]
    exact congrArg _ hstreams
  rcases streams_closeBody (h.streams _ _ hopen) with ⟨hclosed, hfinished⟩
  rcases e'.closeBody_counts with ⟨hlabelCount, hfunctionCount⟩
  have hfunctions : e.functionCount + 1 ≤ e'.functionCount := h.functions_le
  have hnames : labelNames ([] ++ (bodies ++
      [Item.label e.newFunction.1 :: (inner ++ [Item.bare .call])]).flatten) =
      labelNames bodies.flatten ++ e.newFunction.1 :: labelNames (inner ++ [.bare .call]) := by
    simp
  refine {
    streams := ?_
    finished := ?_
    labels_le := by rw [hlabelCount]; exact h.labels_le
    functions_le := by rw [hfunctionCount]; omega
    names := ?_
    uses := ?_
    inner := by simp
    routines := ?_
    forward := ?_ }
  · intro first' rest' hfirst
    rw [hstreams, List.cons.injEq] at hfirst
    rcases hfirst with ⟨rfl, rfl⟩
    rw [List.append_nil]
    exact hclosed
  · rw [hfinished, h.finished]
    simp [finishedItems, newFunction, openBody]
  · have hinner := h.names
    rw [List.perm_iff_count] at hinner ⊢
    intro name
    have hcount := hinner name
    rw [count_taken_closeBody hfunctions, ← hcount, hnames]
    simp only [labelNames_append, List.count_append, List.count_cons, List.count_nil]
    omega
  · have huses : Uses (labelNames ([] ++ (bodies ++
        [Item.label e.newFunction.1 :: (inner ++ [Item.bare .call])]).flatten) ++ known)
        (inner ++ [.bare .call] ++ bodies.flatten) := by
      apply h.uses.mono
      intro name hname
      rw [hnames]
      simp only [labelNames_append, List.mem_append, List.mem_cons] at hname ⊢
      grind
    rw [Uses.append_iff] at huses
    simp only [List.nil_append, List.flatten_append, List.flatten_cons, List.flatten_nil,
      List.append_nil] at huses ⊢
    rw [Uses.append_iff, Uses.cons_iff]
    exact ⟨huses.2, Uses.label _, huses.1⟩
  · intro segment hsegment
    rcases List.mem_append.mp hsegment with hsegment | hsegment
    · exact h.routines segment hsegment
    · rw [List.mem_singleton] at hsegment
      refine ⟨_, inner, hsegment, ⟨e.functionCount, rfl⟩, ?_⟩
      intro name hname
      exact h.inner name (by rw [labelNames_append]; exact List.mem_append_left _ hname)
  · have hforward := List.forall_mem_cons.mp h.forward
    rw [List.forall_mem_cons, List.forall_mem_append, List.forall_mem_singleton]
    exact ⟨JumpsForward.nil, hforward.2,
      JumpsForward.cons_iff.mpr ⟨Item.JumpsInto.label _, hforward.1⟩⟩

end Emitter

end ClassLet
