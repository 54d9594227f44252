import Mathlib.Data.List.TakeWhile
import ClassLet.Proofs.Text.SolidText

/-!
# Pieces of texts

What the lines and the words of a text are, and what is left of it without the blanks at its ends,
is said here by the way in which the text is put together. The functions that take a text apart find
these pieces.

Main statements: `hasLines_iff`, `hasWords_iff` and `trims_iff`.
-/

namespace ClassLet

/-- No other characters than blanks. -/
def Blanks (text : List Char) : Prop :=
  ∀ c ∈ text, isBlank c = true

/-- At least one character, and no blank. -/
structure IsWord (text : List Char) : Prop where
  nonempty : text ≠ []
  solid : ∀ c ∈ text, isBlank c = false

theorem Blanks.nil : Blanks [] := by
  intro c hc
  cases hc

theorem Blanks.append {xs ys : List Char} (hxs : Blanks xs) (hys : Blanks ys) :
    Blanks (xs ++ ys) := by
  intro c hc
  rcases List.mem_append.mp hc with hc | hc
  · exact hxs c hc
  · exact hys c hc

/-!
# Lines
-/

/-- The lines, joined by newlines, make up the text. -/
inductive HasLines : List Char → List (List Char) → Prop where
  | last {line : List Char} :
      '\n' ∉ line →
      HasLines line [line]
  | cons {line rest : List Char} {lines : List (List Char)} :
      '\n' ∉ line →
      HasLines rest lines →
      HasLines (line ++ '\n' :: rest) (line :: lines)

theorem splitAll_of_none {separates : Char → Bool} {text : List Char}
    (h : ∀ c ∈ text, separates c = false) : splitAll separates text = [text] := by
  induction text with
  | nil => rfl
  | cons c text ih =>
      have hc := h c List.mem_cons_self
      rw [splitAll_cons, hc, ih fun x hx => h x (List.mem_cons_of_mem _ hx)]
      rfl

theorem newline_free {line : List Char} (h : '\n' ∉ line) : ∀ c ∈ line, (c == '\n') = false := by
  intro c hc
  rw [beq_eq_false_iff_ne]
  intro heq
  exact h (heq ▸ hc)

theorem HasLines.splitLines {text : List Char} {lines : List (List Char)}
    (h : HasLines text lines) : splitLines text = lines := by
  induction h with
  | last hline => exact splitAll_of_none (newline_free hline)
  | cons hline _ ih =>
      rw [ClassLet.splitLines, splitAll_append _ _ _ _ (newline_free hline) rfl]
      exact congrArg _ ih

theorem hasLines_splitLines (text : List Char) : HasLines text (splitLines text) := by
  induction text with
  | nil => exact HasLines.last List.not_mem_nil
  | cons c text ih =>
      rw [splitLines, splitAll_cons]
      by_cases hc : (c == '\n') = true
      · rw [if_pos hc, beq_iff_eq.mp hc]
        exact HasLines.cons List.not_mem_nil ih
      · rw [if_neg hc]
        have hne : '\n' ≠ c := fun heq => hc (beq_iff_eq.mpr heq.symm)
        rw [splitLines] at ih
        revert ih
        generalize splitAll (· == '\n') text = lines
        intro ih
        cases ih with
        | last hline => exact HasLines.last (List.not_mem_cons_of_ne_of_not_mem hne hline)
        | cons hline hrest =>
            exact HasLines.cons (List.not_mem_cons_of_ne_of_not_mem hne hline) hrest

theorem hasLines_iff {text : List Char} {lines : List (List Char)} :
    HasLines text lines ↔ splitLines text = lines := by
  constructor
  · exact HasLines.splitLines
  · intro h
    exact h ▸ hasLines_splitLines text

/-- Lines that are all ended by a newline leave an empty one behind. -/
theorem hasLines_ended {lines : List (List Char)} (h : ∀ line ∈ lines, '\n' ∉ line) :
    HasLines (lines.flatMap fun line => line ++ ['\n']) (lines ++ [[]]) := by
  induction lines with
  | nil => exact HasLines.last List.not_mem_nil
  | cons line lines ih =>
      rw [List.flatMap_cons, List.append_assoc]
      exact HasLines.cons (h line List.mem_cons_self)
        (ih fun l hl => h l (List.mem_cons_of_mem _ hl))

/-!
# Words
-/

/-- The words, with blanks between them and maybe around them, make up the text. -/
inductive HasWords : List Char → List (List Char) → Prop where
  | none {blanks : List Char} :
      Blanks blanks →
      HasWords blanks []
  | word {blanks word rest : List Char} {words : List (List Char)} :
      Blanks blanks →
      IsWord word →
      (∀ c, rest.head? = some c → isBlank c = true) →
      HasWords rest words →
      HasWords (blanks ++ (word ++ rest)) (word :: words)

theorem HasWords.cons_blank {c : Char} {text : List Char} {ws : List (List Char)}
    (hc : isBlank c = true) (h : HasWords text ws) : HasWords (c :: text) ws := by
  have hcons : ∀ {blanks : List Char}, Blanks blanks → Blanks (c :: blanks) := fun hblanks =>
    List.forall_mem_cons.mpr ⟨hc, hblanks⟩
  cases h with
  | none hblanks => exact HasWords.none (hcons hblanks)
  | word hblanks hword hrest htail => exact HasWords.word (hcons hblanks) hword hrest htail

theorem SolidText.isWord {text : List Char} (h : SolidText text) : IsWord text where
  nonempty := h.nonempty
  solid := fun c hc => not_blank_of_isSolid (h.solid c hc)

theorem IsWord.hasWords {word : List Char} (h : IsWord word) : HasWords word [word] := by
  have hend : ∀ c, ([] : List Char).head? = some c → isBlank c = true := by
    intro c hc
    cases hc
  have hall := HasWords.word Blanks.nil h hend (HasWords.none Blanks.nil)
  rwa [List.append_nil] at hall

/-- Two words with a space between them. -/
theorem IsWord.hasWords_pair {first second : List Char} (hfirst : IsWord first)
    (hsecond : IsWord second) : HasWords (first ++ ' ' :: second) [first, second] := by
  have hspace : isBlank ' ' = true := by decide
  refine HasWords.word Blanks.nil hfirst ?_ (hsecond.hasWords.cons_blank hspace)
  intro c hc
  cases hc
  exact hspace

theorem words_cons_blank {c : Char} (hc : isBlank c = true) (text : List Char) :
    words (c :: text) = words text := by
  simp [words, splitAll_cons, hc]

theorem words_blanks_append {blanks : List Char} (h : Blanks blanks) (text : List Char) :
    words (blanks ++ text) = words text := by
  induction blanks with
  | nil => rfl
  | cons c blanks ih =>
      rw [List.cons_append, words_cons_blank (h c List.mem_cons_self)]
      exact ih fun x hx => h x (List.mem_cons_of_mem _ hx)

theorem words_word_append {word rest : List Char} (hword : IsWord word)
    (hrest : ∀ c, rest.head? = some c → isBlank c = true) :
    words (word ++ rest) = word :: words rest := by
  cases rest with
  | nil =>
      rw [List.append_nil, words, splitAll_of_none hword.solid]
      simp [hword.nonempty, words]
  | cons c rest =>
      have hc := hrest c rfl
      rw [words_cons_blank hc, words, splitAll_append _ _ _ _ hword.solid hc]
      simp [hword.nonempty, words]

theorem HasWords.words {text : List Char} {ws : List (List Char)} (h : HasWords text ws) :
    words text = ws := by
  induction h with
  | none hblanks =>
      have hnone := words_blanks_append hblanks []
      rw [List.append_nil] at hnone
      exact hnone
  | word hblanks hword hrest _ ih =>
      rw [words_blanks_append hblanks, words_word_append hword hrest, ih]

/-- The start of a new word, in front of a blank or at the end. -/
theorem HasWords.single {c : Char} {text : List Char} {ws : List (List Char)}
    (hc : isBlank c = false) (hblank : ∀ x, text.head? = some x → isBlank x = true)
    (h : HasWords text ws) : HasWords (c :: text) ([c] :: ws) := by
  have hword : IsWord [c] := by
    constructor
    · exact List.cons_ne_nil c []
    · intro x hx
      rw [List.mem_singleton] at hx
      rw [hx]
      exact hc
  exact HasWords.word Blanks.nil hword hblank h

theorem hasWords_words (text : List Char) : HasWords text (words text) := by
  induction text with
  | nil => exact HasWords.none Blanks.nil
  | cons c text ih =>
      revert ih
      cases hc : isBlank c with
      | true =>
          intro ih
          rw [words_cons_blank hc]
          exact ih.cons_blank hc
      | false =>
          intro ih
          -- The character joins the first word if that starts the text.
          have hgrown : ∃ ws, HasWords (c :: text) ws := by
            generalize words text = ws at ih
            cases ih with
            | none hblanks =>
                refine ⟨_, HasWords.single hc ?_ (HasWords.none hblanks)⟩
                intro x hx
                exact hblanks x (List.mem_of_mem_head? hx)
            | word hblanks hword hrest htail =>
                rename_i blanks word rest ws
                cases blanks with
                | nil =>
                    have hlonger : IsWord (c :: word) := by
                      constructor
                      · exact List.cons_ne_nil c word
                      · intro x hx
                        rcases List.mem_cons.mp hx with heq | hx
                        · rw [heq]
                          exact hc
                        · exact hword.solid x hx
                    exact ⟨_, HasWords.word Blanks.nil hlonger hrest htail⟩
                | cons x blanks =>
                    refine ⟨_, HasWords.single hc ?_ (HasWords.word hblanks hword hrest htail)⟩
                    intro y hy
                    cases hy
                    exact hblanks x List.mem_cons_self
          rcases hgrown with ⟨ws, hws⟩
          rw [hws.words]
          exact hws

theorem hasWords_iff {text : List Char} {ws : List (List Char)} :
    HasWords text ws ↔ words text = ws := by
  constructor
  · exact HasWords.words
  · intro h
    exact h ▸ hasWords_words text

theorem HasWords.append_blanks {text blanks : List Char} {ws : List (List Char)}
    (h : HasWords text ws) (hblanks : Blanks blanks) : HasWords (text ++ blanks) ws := by
  induction h with
  | none hbefore => exact HasWords.none (hbefore.append hblanks)
  | word hbefore hword hrest htail ih =>
      rename_i before word rest ws
      rw [List.append_assoc, List.append_assoc]
      refine HasWords.word hbefore hword ?_ ih
      intro c hc
      cases rest with
      | nil => exact hblanks c (List.mem_of_mem_head? hc)
      | cons x rest => exact hrest c hc

/-!
# Blanks at the ends
-/

/-- The second text is the first one without the blanks at its ends. -/
inductive Trims : List Char → List Char → Prop where
  | intro {left inner right : List Char} :
      Blanks left →
      (∀ c, inner.head? = some c → isBlank c = false) →
      (∀ c, inner.getLast? = some c → isBlank c = false) →
      Blanks right →
      Trims (left ++ (inner ++ right)) inner

theorem IsWord.trim_eq {word : List Char} (h : IsWord word) : trim word = word := by
  apply trim_eq_self
  · intro c hc
    exact h.solid c (List.mem_of_mem_head? hc)
  · intro c hc
    exact h.solid c (List.mem_of_getLast? hc)

theorem trim_blanks_append {blanks : List Char} (h : Blanks blanks) (text : List Char) :
    trim (blanks ++ text) = trim text := by
  rw [trim, List.dropWhile_append_of_pos h, trim]

theorem dropWhile_blanks {blanks : List Char} (h : Blanks blanks) :
    blanks.dropWhile isBlank = [] :=
  List.dropWhile_eq_nil_iff.mpr h

theorem trim_append_blanks {blanks : List Char} (h : Blanks blanks) (text : List Char) :
    trim (text ++ blanks) = trim text := by
  rw [trim, trim, List.dropWhile_append]
  split
  · rename_i hempty
    rw [List.isEmpty_iff] at hempty
    rw [hempty, dropWhile_blanks h]
  · have hreverse : ∀ c ∈ blanks.reverse, isBlank c = true :=
      fun c hc => h c (List.mem_reverse.mp hc)
    rw [List.reverse_append, List.dropWhile_append_of_pos hreverse]

theorem Trims.trim {text inner : List Char} (h : Trims text inner) : trim text = inner := by
  cases h with
  | intro hleft hhead hlast hright =>
      rw [trim_blanks_append hleft, trim_append_blanks hright]
      exact trim_eq_self hhead hlast

theorem head?_dropWhile_blank {text : List Char} {c : Char}
    (h : (text.dropWhile isBlank).head? = some c) : isBlank c = false := by
  have hfirst := List.head?_dropWhile_not isBlank text
  rw [h] at hfirst
  exact hfirst

theorem blanks_takeWhile (text : List Char) : Blanks (text.takeWhile isBlank) := by
  intro c hc
  exact List.mem_takeWhile_imp hc

theorem trims_trim (text : List Char) : Trims text (trim text) := by
  generalize hrest : text.dropWhile isBlank = rest
  have htext : text = text.takeWhile isBlank ++ rest := by
    rw [← hrest, List.takeWhile_append_dropWhile]
  have hsplit : rest = trim text ++ (rest.reverse.takeWhile isBlank).reverse := by
    rw [trim, hrest, ← List.reverse_append, List.takeWhile_append_dropWhile, List.reverse_reverse]
  have hhead : ∀ c, (trim text).head? = some c → isBlank c = false := by
    intro c hc
    have hfirst : (text.dropWhile isBlank).head? = some c := by
      rw [hrest, hsplit, List.head?_append, hc]
      rfl
    exact head?_dropWhile_blank hfirst
  have hlast : ∀ c, (trim text).getLast? = some c → isBlank c = false := by
    intro c hc
    rw [trim, List.getLast?_reverse] at hc
    exact head?_dropWhile_blank hc
  have hright : Blanks (rest.reverse.takeWhile isBlank).reverse := by
    intro c hc
    exact blanks_takeWhile _ c (List.mem_reverse.mp hc)
  have htrims := Trims.intro (blanks_takeWhile text) hhead hlast hright
  rw [← hsplit, ← htext] at htrims
  exact htrims

theorem trims_iff {text inner : List Char} : Trims text inner ↔ trim text = inner := by
  constructor
  · exact Trims.trim
  · intro h
    exact h ▸ trims_trim text

theorem words_trim (text : List Char) : words (trim text) = words text := by
  have htrims := trims_trim text
  generalize trim text = inner at htrims
  cases htrims with
  | intro hleft _ _ hright =>
      rw [words_blanks_append hleft]
      exact ((hasWords_words inner).append_blanks hright).words.symm

end ClassLet
