import Mathlib.Tactic.Common
import RegionLedger.Text.Blank

/-!
# Words and lines of a text

A text falls apart into words in one way only, and into lines likewise.  Both are described here by
what stands between them, and the two splitting functions are shown to find just that.

* `Text.Spaced` — a text is some words, with blanks around them; `Text.spaced_iff`.
* `Text.Lined` — a text is some lines, each with its end; `Text.lined_iff`.
-/

namespace RegionLedger

namespace Text

/-! ## Pieces -/

section Pieces

variable {p : Char → Bool} {piece rest : List Char}

lemma splitAt_of_forall_not (h : ∀ c ∈ piece, p c = false) : splitAt p piece = [piece] := by
  induction piece with
  | nil => rfl
  | cons c piece ih =>
      rw [splitAt, h c List.mem_cons_self, ih fun d hd => h d (List.mem_cons_of_mem c hd)]
      rfl

/-- A piece ends at the first character with the property. -/
lemma splitAt_append_cons (h : ∀ c ∈ piece, p c = false) {c : Char} (hc : p c = true) :
    splitAt p (piece ++ c :: rest) = piece :: splitAt p rest := by
  induction piece with
  | nil =>
      rw [List.nil_append, splitAt, if_pos hc]
  | cons d piece ih =>
      rw [List.cons_append, splitAt, h d List.mem_cons_self,
        ih fun e he => h e (List.mem_cons_of_mem d he)]
      rfl

end Pieces

/-! ## Words -/

/-- The text is the words in this order, with blanks between them, and perhaps before and after. -/
inductive Spaced : List Char → List (List Char) → Prop where
  | blank {gap : List Char} (blank : ∀ c ∈ gap, isBlank c = true) : Spaced gap []
  | word (gap word : List Char) {rest : List Char} {words : List (List Char)}
      (blank : ∀ c ∈ gap, isBlank c = true) (nonempty : word ≠ [])
      (solid : ∀ c ∈ word, isBlank c = false) (apart : ∀ c ∈ rest.head?, isBlank c = true)
      (tail : Spaced rest words) : Spaced (gap ++ (word ++ rest)) (word :: words)

lemma words_append_of_blank {gap : List Char} (h : ∀ c ∈ gap, isBlank c = true)
    (cs : List Char) : words (gap ++ cs) = words cs := by
  induction gap with
  | nil => rfl
  | cons c gap ih =>
      rw [← ih fun d hd => h d (List.mem_cons_of_mem c hd), List.cons_append, words, splitAt,
        if_pos (h c List.mem_cons_self)]
      rfl

/-- A word ends where a blank follows, or at the end of the text. -/
lemma words_append_of_solid {word rest : List Char} (hne : word ≠ [])
    (hsolid : ∀ c ∈ word, isBlank c = false) (hapart : ∀ c ∈ rest.head?, isBlank c = true) :
    words (word ++ rest) = word :: words rest := by
  have hkeep : ∀ pieces : List (List Char), ((word :: pieces).filter fun w => !w.isEmpty) =
      word :: pieces.filter fun w => !w.isEmpty := by
    intro pieces
    exact List.filter_cons_of_pos (by simpa using hne)
  cases rest with
  | nil =>
      rw [List.append_nil, words, splitAt_of_forall_not hsolid, hkeep]
      rfl
  | cons c rest =>
      have hc : isBlank c = true := hapart c rfl
      have hgap : ∀ d ∈ [c], isBlank d = true := by simpa using hc
      have hrest : words (c :: rest) = words rest := words_append_of_blank hgap rest
      rw [hrest, words, splitAt_append_cons hsolid hc, hkeep]
      rfl

lemma Spaced.words_eq {cs : List Char} {ws : List (List Char)} (h : Spaced cs ws) :
    words cs = ws := by
  induction h with
  | @blank gap hblank =>
      have hwords := words_append_of_blank hblank []
      rwa [List.append_nil] at hwords
  | word _ _ hblank hne hsolid hapart _ ih =>
      rw [words_append_of_blank hblank, words_append_of_solid hne hsolid hapart, ih]

/-- Every text is some words.  Its first character is a blank, a word of its own, or lengthens the
first word of the rest. -/
lemma exists_spaced (cs : List Char) : ∃ ws, Spaced cs ws := by
  induction cs with
  | nil => exact ⟨[], .blank (by simp)⟩
  | cons c cs ih =>
      obtain ⟨ws, h⟩ := ih
      cases hc : isBlank c with
      | true =>
          cases h with
          | blank hblank => exact ⟨[], .blank (by simpa [hc] using hblank)⟩
          | @word gap w rest ws hblank hne hsolid hapart htail =>
              refine ⟨w :: ws, .word (c :: gap) w ?_ hne hsolid hapart htail⟩
              simpa [hc] using hblank
      | false =>
          by_cases hapart : ∀ d ∈ cs.head?, isBlank d = true
          · refine ⟨[c] :: ws, .word [] [c] (by simp) (by simp) ?_ hapart h⟩
            simpa using hc
          · cases h with
            | blank hblank =>
                refine absurd ?_ hapart
                intro d hd
                exact hblank d (List.mem_of_head? hd)
            | @word gap w rest ws hblank hne hsolid hapart' htail =>
                cases gap with
                | cons d gap =>
                    refine absurd ?_ hapart
                    rintro _ ⟨⟩
                    exact hblank d List.mem_cons_self
                | nil =>
                    refine ⟨(c :: w) :: ws, .word [] (c :: w) (by simp) (by simp) ?_ hapart' htail⟩
                    simpa [hc] using hsolid

/-- **A text is some words in one way only**, and these are the words found. -/
theorem spaced_iff {cs : List Char} {ws : List (List Char)} : Spaced cs ws ↔ ws = words cs := by
  constructor
  · intro h
    exact h.words_eq.symm
  · rintro rfl
    obtain ⟨ws, h⟩ := exists_spaced cs
    rwa [h.words_eq]

/-! ## Lines -/

/-- The text is the lines in this order.  A line feed ends a line, with a carriage return before it if
there is one; the last line may do without. -/
inductive Lined : List Char → List (List Char) → Prop where
  | nil : Lined [] []
  | last {line : List Char} (nonempty : line ≠ []) (single : '\n' ∉ line) : Lined line [line]
  | feed {line rest : List Char} {lines : List (List Char)} (single : '\n' ∉ line)
      (bare : line.getLast? ≠ some '\r') (tail : Lined rest lines) :
      Lined (line ++ '\n' :: rest) (line :: lines)
  | returnFeed {line rest : List Char} {lines : List (List Char)} (single : '\n' ∉ line)
      (tail : Lined rest lines) : Lined (line ++ '\r' :: '\n' :: rest) (line :: lines)

lemma splitAt_ne_nil (p : Char → Bool) (cs : List Char) : splitAt p cs ≠ [] := by
  cases cs with
  | nil => exact List.cons_ne_nil _ _
  | cons c cs =>
      rw [splitAt]
      split_ifs
      · exact List.cons_ne_nil _ _
      · split <;> exact List.cons_ne_nil _ _

lemma lines_append_feed {line : List Char} (h : '\n' ∉ line) (rest : List Char) :
    lines (line ++ '\n' :: rest) = trimReturn line :: lines rest := by
  have hsolid : ∀ c ∈ line, (c == '\n') = false := by
    intro c hc
    rw [beq_eq_false_iff_ne]
    rintro rfl
    exact h hc
  rw [lines, splitAt_append_cons hsolid (by decide), lines]
  cases hrest : splitAt (· == '\n') rest with
  | nil => exact absurd hrest (splitAt_ne_nil _ _)
  | cons piece pieces => rfl

lemma Lined.lines_eq {cs : List Char} {ls : List (List Char)} (h : Lined cs ls) :
    lines cs = ls := by
  induction h with
  | nil => rfl
  | @last line hne hsingle =>
      have hsolid : ∀ c ∈ line, (c == '\n') = false := by
        intro c hc
        rw [beq_eq_false_iff_ne]
        rintro rfl
        exact hsingle hc
      rw [lines, splitAt_of_forall_not hsolid, linesOfPieces, if_neg (by simpa using hne)]
  | feed hsingle hbare _ ih =>
      rw [lines_append_feed hsingle, ih, trimReturn, if_neg hbare]
  | @returnFeed line rest ls hsingle _ ih =>
      have hsingle' : '\n' ∉ line ++ ['\r'] := by simpa using hsingle
      have hsplit : line ++ '\r' :: '\n' :: rest = (line ++ ['\r']) ++ '\n' :: rest := by simp
      rw [hsplit, lines_append_feed hsingle', ih, trimReturn, if_pos (by simp), List.dropLast_concat]

/-- Every text is some lines.  The induction is on the length: the first line feed ends the first
line. -/
lemma exists_lined (cs : List Char) : ∃ ls, Lined cs ls := by
  obtain ⟨n, hn⟩ : ∃ n, n = cs.length := ⟨_, rfl⟩
  induction n using Nat.strongRecOn generalizing cs with
  | _ n ih =>
      by_cases hfeed : '\n' ∈ cs
      · obtain ⟨line, rest, rfl, hsingle⟩ := List.eq_append_cons_of_mem hfeed
        obtain ⟨ls, h⟩ := ih rest.length (by simp at hn; omega) rest rfl
        by_cases hreturn : line.getLast? = some '\r'
        · obtain ⟨init, rfl⟩ := List.getLast?_eq_some_iff.mp hreturn
          refine ⟨init :: ls, ?_⟩
          rw [List.append_assoc]
          exact .returnFeed (by simp at hsingle; exact hsingle) h
        · exact ⟨line :: ls, .feed hsingle hreturn h⟩
      · cases cs with
        | nil => exact ⟨[], .nil⟩
        | cons c cs => exact ⟨[c :: cs], .last (List.cons_ne_nil c cs) hfeed⟩

/-- **A text is some lines in one way only**, and these are the lines found. -/
theorem lined_iff {cs : List Char} {ls : List (List Char)} : Lined cs ls ↔ ls = lines cs := by
  constructor
  · intro h
    exact h.lines_eq.symm
  · rintro rfl
    obtain ⟨ls, h⟩ := exists_lined cs
    rwa [h.lines_eq]

end Text

end RegionLedger
