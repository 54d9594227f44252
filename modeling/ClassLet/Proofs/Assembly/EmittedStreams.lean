import ClassLet.Assembly.Emitter

/-!
# What an emitter has been called with

A history of calls fixes the listing: the main stream holds what was emitted while no body was open,
and the body that a call opened holds what was emitted while it was the innermost open one, in the
order of the calls. A body is known by the position of the call that opened it.

Main statement: `EmitterCall.items_emitted`. Calls to open and to close need not match.
-/

namespace ClassLet

/-!
# Calls
-/

inductive EmitterCall where
  | emit (op : Opcode)
  | emitTimes (op : Opcode) (count : Nat)
  | push (v : Int32)
  | pushLabel (label : String)
  | jumpTo (op : Opcode) (label : String)
  | define (label : String)
  | openBody (label : String)
  | closeBody
  | atLine (line : Nat)
  | newLabel
  | newFunction
deriving DecidableEq, Repr, Inhabited

namespace EmitterCall

def apply (e : Emitter) : EmitterCall → Emitter
  | emit op => e.emit op
  | emitTimes op count => e.emitTimes op count
  | push v => e.emitValue .push v
  | pushLabel label => e.emitLabel .push label
  | jumpTo op label => e.emitLabel op label
  | define label => e.define label
  | openBody label => e.openBody label
  | closeBody => e.closeBody
  | atLine line => e.atLine line
  | newLabel => e.newLabel.2
  | newFunction => e.newFunction.2

/-- The emitter after the calls. -/
def run (calls : List EmitterCall) : Emitter :=
  calls.foldl apply Emitter.empty

/-!
# Reading a history

Positions count the calls before.
-/

/-- The items that the call emits at a line. -/
def items (line : Nat) : EmitterCall → List Item
  | emit op => [.instruction { op, operand := none, line }]
  | emitTimes op count => List.replicate count (.instruction { op, operand := none, line })
  | push v => [.instruction { op := .push, operand := some (.value v), line }]
  | pushLabel label => [.instruction { op := .push, operand := some (.label label), line }]
  | jumpTo op label => [.instruction { op, operand := some (.label label), line }]
  | define label => [.label label]
  | _ => []

def line? : EmitterCall → Option Nat
  | atLine line => some line
  | _ => none

def opened? : EmitterCall → Option String
  | openBody label => some label
  | _ => none

section History

variable (calls : List EmitterCall)

/-- The line that was set last before the position. -/
def lineBefore (p : Nat) : Nat :=
  ((calls.take p).filterMap line?).getLastD 0

/-- The bodies that are open at the position, the innermost first. -/
def openBefore : Nat → List Nat
  | 0 => []
  | p + 1 =>
      match calls[p]? with
      | some (openBody _) => p :: openBefore p
      | some closeBody => (openBefore p).tail
      | _ => openBefore p

/-- The bodies that were closed before the position, in the order of closing. -/
def closedBefore (p : Nat) : List Nat :=
  (List.range p).flatMap fun q =>
    if calls[q]? = some closeBody then (openBefore calls q).head?.toList else []

/-- What was emitted before the position while the body was the innermost open one, or while none
was open. -/
def emittedBefore (p : Nat) (body : Option Nat) : List Item :=
  (List.range p).flatMap fun q =>
    if (openBefore calls q).head? = body then
      calls[q]?.toList.flatMap (items (lineBefore calls q))
    else []

/-- The label that the body was opened with. -/
def labelOf (body : Nat) : List Item :=
  (calls[body]?.bind opened?).toList.map .label

/-- The body as far as it has been emitted before the position. -/
def bodyBefore (p body : Nat) : List Item :=
  labelOf calls body ++ emittedBefore calls p (some body)

/-- The calls before the position that open a body. -/
def openingsBefore (p : Nat) : List Nat :=
  (List.range p).filter fun q => (calls[q]?.bind opened?).isSome

end History

/-!
# One call more
-/

variable {calls : List EmitterCall} {p : Nat} {call : EmitterCall}

theorem lineBefore_succ (hcall : calls[p]? = some call) :
    lineBefore calls (p + 1) = call.line?.getD (lineBefore calls p) := by
  rw [lineBefore, List.take_add_one, hcall, List.filterMap_append]
  cases hline : call.line? <;> simp [lineBefore, hline]

theorem openBefore_succ (hcall : calls[p]? = some call) (hopened : call.opened? = none)
    (hclose : call ≠ closeBody) : openBefore calls (p + 1) = openBefore calls p := by
  rw [openBefore, hcall]
  cases call with
  | openBody label => cases hopened
  | closeBody => exact absurd rfl hclose
  | _ => rfl

theorem closedBefore_succ (hcall : calls[p]? = some call) (hclose : call ≠ closeBody) :
    closedBefore calls (p + 1) = closedBefore calls p := by
  simp [closedBefore, List.range_succ, hcall, hclose]

theorem closedBefore_close (hcall : calls[p]? = some closeBody) :
    closedBefore calls (p + 1) = closedBefore calls p ++ (openBefore calls p).head?.toList := by
  simp [closedBefore, List.range_succ, hcall]

theorem emittedBefore_succ (hcall : calls[p]? = some call) (body : Option Nat) :
    emittedBefore calls (p + 1) body = emittedBefore calls p body ++
      if (openBefore calls p).head? = body then call.items (lineBefore calls p) else [] := by
  simp [emittedBefore, List.range_succ, hcall]

theorem openingsBefore_succ (hcall : calls[p]? = some call) :
    openingsBefore calls (p + 1) =
      openingsBefore calls p ++ if call.opened?.isSome then [p] else [] := by
  cases hopened : call.opened? <;>
    simp [openingsBefore, List.range_succ, hcall, hopened]

/-- Every body that has been opened is open or has been closed, once. -/
theorem bodies_perm (hp : p ≤ calls.length) :
    (closedBefore calls p ++ openBefore calls p).Perm (openingsBefore calls p) := by
  induction p with
  | zero => exact List.Perm.refl []
  | succ p ih =>
      have hcall : calls[p]? = some calls[p] := List.getElem?_eq_getElem hp
      have hbefore := ih (Nat.le_of_succ_le hp)
      rw [openingsBefore_succ hcall]
      generalize calls[p] = call at hcall
      cases call with
      | openBody label =>
          rw [closedBefore_succ hcall (by simp), openBefore, hcall]
          exact List.perm_middle.trans
            ((hbefore.cons p).trans (List.perm_append_singleton p _).symm)
      | closeBody =>
          have hsame : (openBefore calls p).head?.toList ++ (openBefore calls p).tail =
              openBefore calls p := by
            cases openBefore calls p <;> rfl
          rw [closedBefore_close hcall, openBefore, hcall]
          simpa [opened?, List.append_assoc, hsame] using hbefore
      | _ =>
          rw [closedBefore_succ hcall (by simp), openBefore_succ hcall rfl (by simp)]
          simpa [opened?] using hbefore

theorem lt_of_mem_bodies (hp : p ≤ calls.length) {body : Nat}
    (h : body ∈ closedBefore calls p ++ openBefore calls p) : body < p := by
  have hopening := (bodies_perm hp).mem_iff.mp h
  exact List.mem_range.mp (List.mem_filter.mp hopening).1

theorem bodies_nodup (hp : p ≤ calls.length) :
    (closedBefore calls p ++ openBefore calls p).Nodup :=
  (bodies_perm hp).nodup_iff.mpr (List.nodup_range.filter _)

/-- The body that was opened last is the innermost one. -/
theorem openBefore_descending (hp : p ≤ calls.length) :
    (openBefore calls p).Pairwise fun inner outer => outer < inner := by
  induction p with
  | zero => exact List.Pairwise.nil
  | succ p ih =>
      have hcall : calls[p]? = some calls[p] := List.getElem?_eq_getElem hp
      have hbefore := ih (Nat.le_of_succ_le hp)
      generalize calls[p] = call at hcall
      cases call with
      | openBody label =>
          rw [openBefore, hcall]
          refine List.Pairwise.cons ?_ hbefore
          intro body hbody
          exact lt_of_mem_bodies (Nat.le_of_succ_le hp) (List.mem_append_right _ hbody)
      | closeBody =>
          rw [openBefore, hcall]
          exact hbefore.tail
      | _ =>
          rw [openBefore_succ hcall rfl (by simp)]
          exact hbefore

/-!
# Streams
-/

/-- What is emitted goes to the first of these streams: the open bodies, the innermost first, and
the main stream. -/
def streamsBefore (calls : List EmitterCall) (p : Nat) : List (List Item) :=
  (openBefore calls p).map (bodyBefore calls p) ++ [emittedBefore calls p none]

theorem bodyBefore_other (hcall : calls[p]? = some call) {body : Nat}
    (hother : (openBefore calls p).head? ≠ some body) :
    bodyBefore calls (p + 1) body = bodyBefore calls p body := by
  rw [bodyBefore, emittedBefore_succ hcall, if_neg hother, List.append_nil, bodyBefore]

theorem emittedBefore_silent (hcall : calls[p]? = some call)
    (hitems : call.items (lineBefore calls p) = []) :
    emittedBefore calls (p + 1) = emittedBefore calls p := by
  funext body
  rw [emittedBefore_succ hcall, hitems, ite_self, List.append_nil]

theorem bodyBefore_silent (hcall : calls[p]? = some call)
    (hitems : call.items (lineBefore calls p) = []) :
    bodyBefore calls (p + 1) = bodyBefore calls p := by
  funext body
  rw [bodyBefore, emittedBefore_silent hcall hitems, bodyBefore]

/-- Nothing is emitted to a body before it is opened. -/
theorem emittedBefore_unopened (hp : p ≤ calls.length) : emittedBefore calls p (some p) = [] := by
  rw [emittedBefore, List.flatMap_eq_nil_iff]
  intro q hq
  have hlt : q < p := List.mem_range.mp hq
  rw [if_neg]
  intro hhead
  have hmem : p ∈ openBefore calls q := List.mem_of_mem_head? hhead
  have hbefore := lt_of_mem_bodies (Nat.le_trans (Nat.le_of_lt hlt) hp)
    (List.mem_append_right (closedBefore calls q) hmem)
  exact Nat.lt_asymm hlt hbefore

/-- Behind the innermost stream nothing changes, since no body is open twice. -/
theorem streamsBefore_put (hp : p < calls.length) (hcall : calls[p]? = some call) :
    ∃ first rest, streamsBefore calls p = first :: rest ∧
      (openBefore calls p).map (bodyBefore calls (p + 1)) ++ [emittedBefore calls (p + 1) none] =
        (first ++ call.items (lineBefore calls p)) :: rest := by
  have hnodup := (List.nodup_append.mp (bodies_nodup (Nat.le_of_lt hp))).2.1
  unfold streamsBefore
  cases hopen : openBefore calls p with
  | nil =>
      refine ⟨_, [], rfl, ?_⟩
      rw [emittedBefore_succ hcall, hopen]
      rfl
  | cons body outer =>
      rw [hopen, List.nodup_cons] at hnodup
      refine ⟨_, _, rfl, ?_⟩
      have houter : ∀ b ∈ outer, bodyBefore calls (p + 1) b = bodyBefore calls p b := by
        intro b hb
        refine bodyBefore_other hcall ?_
        rw [hopen]
        rintro ⟨⟩
        exact hnodup.1 hb
      have hinner : bodyBefore calls (p + 1) body =
          bodyBefore calls p body ++ call.items (lineBefore calls p) := by
        rw [bodyBefore, emittedBefore_succ hcall, hopen, List.head?_cons, if_pos rfl, bodyBefore,
          List.append_assoc]
      have hmain : emittedBefore calls (p + 1) none = emittedBefore calls p none := by
        rw [emittedBefore_succ hcall, hopen, if_neg (by simp), List.append_nil]
      rw [List.map_cons, hinner, List.map_congr_left houter, hmain]
      rfl

end EmitterCall

/-!
# Emitters
-/

namespace Emitter

/-- The streams that are not finished, the innermost first. -/
def openStreams (e : Emitter) : List (List Item) :=
  e.pending.map Array.toList ++ [e.main.toList]

/-- The second emitter has the items in its innermost stream, behind those of the first. -/
structure Puts (e : Emitter) (items : List Item) (e' : Emitter) : Prop where
  line : e'.line = e.line
  finished : e'.finished = e.finished
  streams : ∀ first rest, e.openStreams = first :: rest → e'.openStreams = (first ++ items) :: rest

namespace Puts

variable {e e' e'' : Emitter} {items items' : List Item}

theorem trans (h : e.Puts items e') (h' : e'.Puts items' e'') : e.Puts (items ++ items') e'' where
  line := h'.line.trans h.line
  finished := h'.finished.trans h.finished
  streams := by
    intro first rest hfirst
    rw [← List.append_assoc]
    exact h'.streams _ _ (h.streams first rest hfirst)

theorem none (hline : e'.line = e.line) (hfinished : e'.finished = e.finished)
    (hstreams : e'.openStreams = e.openStreams) : e.Puts [] e' where
  line := hline
  finished := hfinished
  streams := by
    intro first rest hfirst
    rw [hstreams, hfirst, List.append_nil]

theorem put (e : Emitter) (item : Item) : e.Puts [item] (e.put item) := by
  unfold Emitter.put
  cases hpending : e.pending with
  | nil =>
      refine ⟨rfl, rfl, ?_⟩
      intro first rest hfirst
      simp only [openStreams, hpending, List.map_nil, List.nil_append, List.cons.injEq] at hfirst
      rcases hfirst with ⟨rfl, rfl⟩
      simp [openStreams]
  | cons body outer =>
      refine ⟨rfl, rfl, ?_⟩
      intro first rest hfirst
      simp only [openStreams, hpending, List.map_cons, List.cons_append, List.cons.injEq] at hfirst
      rcases hfirst with ⟨rfl, rfl⟩
      simp [openStreams]

theorem emitTimes (e : Emitter) (op : Opcode) (count : Nat) :
    e.Puts (List.replicate count (.instruction { op, operand := Option.none, line := e.line }))
      (e.emitTimes op count) := by
  induction count generalizing e with
  | zero => exact none rfl rfl rfl
  | succ count ih =>
      have hfirst : e.Puts [.instruction { op, operand := Option.none, line := e.line }]
          (e.emit op) := put e _
      have hrest := ih (e.emit op)
      rw [hfirst.line] at hrest
      exact hfirst.trans hrest

/-- Calls that neither open nor close a body nor set the line. -/
theorem apply (e : Emitter) {call : EmitterCall} (hopened : call.opened? = Option.none)
    (hclose : call ≠ .closeBody) (hline : call.line? = Option.none) :
    e.Puts (call.items e.line) (call.apply e) := by
  cases call with
  | emit op => exact put e _
  | emitTimes op count => exact emitTimes e op count
  | push v => exact put e _
  | pushLabel label => exact put e _
  | jumpTo op label => exact put e _
  | define label => exact put e _
  | openBody label => cases hopened
  | closeBody => exact absurd rfl hclose
  | atLine line => cases hline
  | newLabel => exact none rfl rfl rfl
  | newFunction => exact none rfl rfl rfl

end Puts

/-- The main stream, the bodies that have been closed and those that are open. -/
theorem items_listing (e : Emitter) :
    e.listing.items =
      e.main.toList ++ (e.finished.toList ++ (e.pending.map Array.toList).flatten) := by
  have hclosed : ∀ (bodies : List (Array Item)) (done : Array Item),
      (bodies.foldl (· ++ ·) done).toList = done.toList ++ (bodies.map Array.toList).flatten := by
    intro bodies
    induction bodies with
    | nil => simp
    | cons body bodies ih =>
        intro done
        rw [List.foldl_cons, ih]
        simp
  simp [listing, hclosed]

end Emitter

namespace EmitterCall

variable {calls : List EmitterCall} {p : Nat} {call : EmitterCall} {e : Emitter}

/-- The emitter has been called with the part of the history before the position. -/
structure Follows (calls : List EmitterCall) (p : Nat) (e : Emitter) : Prop where
  line : e.line = lineBefore calls p
  streams : e.openStreams = streamsBefore calls p
  finished : e.finished.toList = (closedBefore calls p).flatMap (bodyBefore calls p)

namespace Follows

theorem start (calls : List EmitterCall) : Follows calls 0 Emitter.empty where
  line := rfl
  streams := rfl
  finished := rfl

/-- A body that has been closed is not the innermost open one. -/
theorem finished_succ (h : Follows calls p e) (hp : p < calls.length)
    (hcall : calls[p]? = some call) :
    e.finished.toList = (closedBefore calls p).flatMap (bodyBefore calls (p + 1)) := by
  have hsame : ∀ body ∈ closedBefore calls p,
      bodyBefore calls p body = bodyBefore calls (p + 1) body := by
    intro body hbody
    refine (bodyBefore_other hcall ?_).symm
    intro hhead
    exact (List.nodup_append.mp (bodies_nodup (Nat.le_of_lt hp))).2.2 body hbody body
      (List.mem_of_mem_head? hhead) rfl
  rw [h.finished, List.flatMap_def, List.flatMap_def, List.map_congr_left hsame]

theorem puts (h : Follows calls p e) (hp : p < calls.length) (hcall : calls[p]? = some call)
    (hopened : call.opened? = none) (hclose : call ≠ closeBody) (hline : call.line? = none) :
    Follows calls (p + 1) (call.apply e) := by
  have hputs := Emitter.Puts.apply e hopened hclose hline
  rcases streamsBefore_put hp hcall with ⟨first, rest, hfirst, hsucc⟩
  constructor
  · rw [hputs.line, h.line, lineBefore_succ hcall, hline]
    rfl
  · rw [streamsBefore, openBefore_succ hcall hopened hclose, hsucc, ← h.line]
    exact hputs.streams first rest (h.streams.trans hfirst)
  · rw [hputs.finished, closedBefore_succ hcall hclose]
    exact h.finished_succ hp hcall

theorem sets (h : Follows calls p e) {line : Nat} (hcall : calls[p]? = some (atLine line)) :
    Follows calls (p + 1) (e.atLine line) where
  line := by
    rw [lineBefore_succ hcall]
    rfl
  streams := by
    rw [streamsBefore, openBefore_succ hcall rfl (by simp), bodyBefore_silent hcall rfl,
      emittedBefore_silent hcall rfl]
    exact h.streams
  finished := by
    rw [closedBefore_succ hcall (by simp), bodyBefore_silent hcall rfl]
    exact h.finished

theorem opens (h : Follows calls p e) (hp : p < calls.length) {label : String}
    (hcall : calls[p]? = some (openBody label)) : Follows calls (p + 1) (e.openBody label) where
  line := by
    rw [lineBefore_succ hcall]
    exact h.line
  streams := by
    have hbody : bodyBefore calls p p = [.label label] := by
      rw [bodyBefore, emittedBefore_unopened (Nat.le_of_lt hp), labelOf, hcall]
      rfl
    have hopen : openBefore calls (p + 1) = p :: openBefore calls p := by
      rw [openBefore, hcall]
    rw [streamsBefore, hopen, bodyBefore_silent hcall rfl, emittedBefore_silent hcall rfl,
      List.map_cons, hbody]
    exact congrArg ([Item.label label] :: ·) h.streams
  finished := by
    rw [closedBefore_succ hcall (by simp), bodyBefore_silent hcall rfl]
    exact h.finished

theorem pending_length (h : Follows calls p e) :
    e.pending.length = (openBefore calls p).length := by
  simpa [Emitter.openStreams, streamsBefore] using congrArg List.length h.streams

/-- Without an open body nothing is closed. -/
theorem closeBody_eq_self (h : Follows calls p e) (hopen : openBefore calls p = []) :
    e.closeBody = e := by
  have hpending : e.pending = [] := by
    rw [← List.length_eq_zero_iff, h.pending_length, hopen, List.length_nil]
  rw [Emitter.closeBody, hpending]

theorem closes (h : Follows calls p e) (hcall : calls[p]? = some closeBody) :
    Follows calls (p + 1) e.closeBody := by
  have hline : lineBefore calls (p + 1) = lineBefore calls p := by
    rw [lineBefore_succ hcall]
    rfl
  have hsucc : openBefore calls (p + 1) = (openBefore calls p).tail := by
    rw [openBefore, hcall]
  cases hopen : openBefore calls p with
  | nil =>
      rw [h.closeBody_eq_self hopen]
      constructor
      · rw [hline, h.line]
      · rw [h.streams, streamsBefore, streamsBefore, hsucc, hopen, emittedBefore_silent hcall rfl]
        rfl
      · rw [h.finished, closedBefore_close hcall, hopen, bodyBefore_silent hcall rfl]
        simp
  | cons body outer =>
      have hlength := h.pending_length
      have hstreams := h.streams
      rw [hopen] at hlength
      rw [Emitter.openStreams, streamsBefore, hopen] at hstreams
      cases hpending : e.pending with
      | nil =>
          rw [hpending] at hlength
          cases hlength
      | cons first rest =>
          rw [hpending, List.map_cons, List.map_cons, List.cons_append, List.cons_append,
            List.cons.injEq] at hstreams
          rw [Emitter.closeBody, hpending]
          constructor
          · rw [hline]
            exact h.line
          · rw [streamsBefore, hsucc, hopen, bodyBefore_silent hcall rfl,
              emittedBefore_silent hcall rfl]
            exact hstreams.2
          · rw [closedBefore_close hcall, hopen, bodyBefore_silent hcall rfl]
            simp [h.finished, hstreams.1]

theorem step (h : Follows calls p e) (hp : p < calls.length) (hcall : calls[p]? = some call) :
    Follows calls (p + 1) (call.apply e) := by
  cases call with
  | openBody label => exact h.opens hp hcall
  | closeBody => exact h.closes hcall
  | atLine line => exact h.sets hcall
  | _ => exact h.puts hp hcall rfl (by simp) rfl

theorem run_take (hp : p ≤ calls.length) : Follows calls p (run (calls.take p)) := by
  induction p with
  | zero => exact start calls
  | succ p ih =>
      have hcall : calls[p]? = some calls[p] := List.getElem?_eq_getElem hp
      have hrun : run (calls.take (p + 1)) = calls[p].apply (run (calls.take p)) := by
        rw [run, List.take_add_one, hcall, List.foldl_append]
        rfl
      rw [hrun]
      exact (ih (Nat.le_of_succ_le hp)).step hp hcall

theorem run_all (calls : List EmitterCall) : Follows calls calls.length (run calls) := by
  have hrun := run_take (Nat.le_refl calls.length)
  rwa [List.take_length] at hrun

end Follows

/-!
# Listings
-/

/-- The bodies stand in the order in which they were closed, those that are still open behind the
others, the one that was opened last in front, and each of them stands there once. A call to close a
body that meets no open one might as well not have been made. -/
theorem items_emitted (calls : List EmitterCall) :
    let n := calls.length
    let bodies := closedBefore calls n ++ openBefore calls n
    (run calls).listing.items =
        emittedBefore calls n none ++ bodies.flatMap (bodyBefore calls n) ∧
      bodies.Perm (openingsBefore calls n) ∧
      ((openBefore calls n).Pairwise fun inner outer => outer < inner) ∧
      (openBefore calls n = [] →
        ∀ rest, run (calls ++ closeBody :: rest) = run (calls ++ rest)) := by
  intro n bodies
  have hrun := Follows.run_all calls
  have hstreams := hrun.streams
  rw [Emitter.openStreams, streamsBefore] at hstreams
  rcases List.append_inj' hstreams rfl with ⟨hpending, hmain⟩
  refine ⟨?_, bodies_perm (Nat.le_refl _), openBefore_descending (Nat.le_refl _), ?_⟩
  · rw [Emitter.items_listing, hrun.finished, hpending, List.singleton_inj.mp hmain,
      List.flatMap_append, List.flatMap_def, List.flatMap_def]
  · intro hopen rest
    have hclose := hrun.closeBody_eq_self hopen
    rw [run, run, List.foldl_append, List.foldl_cons, List.foldl_append]
    exact congrArg (rest.foldl apply) hclose

/-- The second body is closed inside the first, and the third never; one call closes nothing. -/
example :
    (run [.closeBody, .openBody "f", .atLine 3, .emit .pushRa, .openBody "g", .emit .setFp,
      .closeBody, .emit .call, .closeBody, .push 5, .openBody "h",
      .emitTimes .pop 2]).listing.items =
      [.instruction { op := .push, operand := some (.value 5), line := 3 },
        .label "g", .instruction { op := .setFp, operand := none, line := 3 },
        .label "f", .instruction { op := .pushRa, operand := none, line := 3 },
        .instruction { op := .call, operand := none, line := 3 },
        .label "h", .instruction { op := .pop, operand := none, line := 3 },
        .instruction { op := .pop, operand := none, line := 3 }] := by
  decide

end EmitterCall

end ClassLet
