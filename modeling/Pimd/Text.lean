/-
Pimd/Text.lean

The words of a configuration line: `next_word` of `text.c`, called again and
again on one cursor.

A cursor is what is left of the string; the end of the list is its terminator,
and so is a NUL in the list.  `words` says without a cursor what the calls
should return: the line up to its newline or '#', split at every blank, each
run cut to the size of the buffer and lowercased.  One call returns the first
of the words and leaves a cursor with the others (`nextWord_words`).
-/
import Pimd.Lib.Seek
import Pimd.Lib.Wire

namespace Pimd.Text

open Wire List

/-- `TEXT_WORD_MAX`. -/
def textWordMax : ℕ := 41

/-- Spaces and tabs. -/
def isBlank (c : Byte) : Bool := c == 0x20 || c == 0x09

/-- ASCII only. -/
def lower (c : Byte) : Byte := if 0x41 ≤ c ∧ c ≤ 0x5a then c - 0x41 + 0x61 else c

/-- The copying loop, with room for `n` more characters: what it adds to the
token, and where it leaves the cursor. -/
def copyWord : ℕ → List Byte → List Byte × List Byte
  | 0, s => ([], s)
  | _ + 1, [] => ([], [])
  | n + 1, c :: s =>
    if c = 0 then ([], c :: s)
    -- the blank behind a word is stepped over, a newline or '#' is not
    else if isBlank c then ([], s)
    else if c = 0x0a ∨ c = 0x23 then ([], c :: s)
    else
      let r := copyWord n s
      (lower c :: r.1, r.2)

/-- `next_word`: the word, and the cursor behind it. -/
def nextWord (s : List Byte) : List Byte × List Byte := copyWord textWordMax (s.dropWhile isBlank)

/-- The cursor after `k` calls. -/
def cursor (s : List Byte) : ℕ → List Byte
  | 0 => s
  | k + 1 => (nextWord (cursor s k)).2

/-! ### The words of a line -/

/-- A run cut into pieces of `n`, the last one what is left. -/
def cut (n : ℕ) : List Byte → List (List Byte)
  | [] => []
  | c :: s => (c :: s).take n :: cut n (s.drop (n - 1))
termination_by s => s.length
decreasing_by grind

/-- NUL, newline and '#'. -/
def endsLine (c : Byte) : Bool := c == 0 || c == 0x0a || c == 0x23

/-- The runs between the blanks of a line, each cut into pieces of `n`; where
two blanks meet there is nothing to cut. -/
def words (n : ℕ) (s : List Byte) : List (List Byte) :=
  (((s.takeWhile fun c => !endsLine c).splitOnP isBlank).flatMap (cut n)).map (map lower)

/-- A character of a word. -/
def inWord (c : Byte) : Bool := !isBlank c && !endsLine c

variable {n : ℕ} {c : Byte} {run rest s : List Byte}

theorem cut_eq (hn : 0 < n) (h : run ≠ []) : cut n run = run.take n :: cut n (run.drop n) := by
  obtain ⟨c, s, rfl⟩ := exists_cons_of_ne_nil h
  obtain ⟨m, rfl⟩ := Nat.exists_eq_add_one.mpr hn
  rw [cut]
  rfl

theorem words_blank (h : isBlank c) : words n (c :: s) = words n s := by
  have hend : endsLine c = false := by
    rcases (by simpa [isBlank] using h : c = 0x20 ∨ c = 0x09) with rfl | rfl <;> rfl
  simp [words, hend, splitOnP_cons_eq_if_modifyHead, h, cut]

theorem words_blanks (h : ∀ c ∈ run, isBlank c) : words n (run ++ s) = words n s := by
  induction run with
  | nil => rfl
  | cons c run ih =>
    obtain ⟨hc, hrun⟩ := forall_mem_cons.1 h
    rw [cons_append, words_blank hc, ih hrun]

/-- A run and what stands behind it give their words one after the other. -/
theorem words_append (hrun : ∀ c ∈ run, inWord c) (hrest : ∀ c ∈ rest.head?, ¬ inWord c) :
    words n (run ++ rest) = (cut n run).map (map lower) ++ words n rest := by
  -- the split of the rest starts with an empty run, which the run is put before
  have hsplit : ∃ tl, (rest.takeWhile fun c => !endsLine c).splitOnP isBlank = [] :: tl := by
    cases rest with
    | nil => exact ⟨[], rfl⟩
    | cons c rest =>
      by_cases hc : endsLine c
      · exact ⟨[], by simp [hc]⟩
      · have hblank : isBlank c := by simpa [inWord, hc] using hrest c rfl
        exact ⟨_, by simp [hc, splitOnP_cons_eq_if_modifyHead, hblank]; rfl⟩
  obtain ⟨tl, htl⟩ := hsplit
  have hall : ((run ++ rest).takeWhile fun c => !endsLine c).splitOnP isBlank = run :: tl := by
    induction run with
    | nil => exact htl
    | cons c run ih =>
      obtain ⟨hc, hrun⟩ := forall_mem_cons.1 hrun
      obtain ⟨hblank, hend⟩ : isBlank c = false ∧ endsLine c = false := by simpa [inWord] using hc
      simp [hend, splitOnP_cons_eq_if_modifyHead, hblank, ih hrun]
  simp [words, htl, hall, cut]

/-! ### One call, and all of them -/

/-- The loop copies the run as far as there is room, and goes on behind it. -/
theorem copyWord_append (hrun : ∀ c ∈ run, inWord c) :
    copyWord n (run ++ rest) =
      ((run.take n).map lower ++ (copyWord (n - run.length) rest).1,
        run.drop n ++ (copyWord (n - run.length) rest).2) := by
  induction run generalizing n with
  | nil => simp
  | cons c run ih =>
    obtain ⟨hc, hrun⟩ := forall_mem_cons.1 hrun
    cases n with
    | zero => simp [copyWord]
    | succ n =>
      have hc : isBlank c = false ∧ (c ≠ 0#8 ∧ c ≠ 10#8) ∧ c ≠ 35#8 := by
        simpa [inWord, endsLine] using hc
      simp [copyWord, hc, ih hrun]

/-- Where no word goes on, the loop copies nothing and loses no word. -/
theorem copyWord_stops (hrest : ∀ c ∈ rest.head?, ¬ inWord c) (m : ℕ) :
    (copyWord m rest).1 = [] ∧ words n (copyWord m rest).2 = words n rest := by
  rcases m with - | m
  · exact ⟨rfl, rfl⟩
  · rcases rest with - | ⟨c, rest⟩
    · exact ⟨rfl, rfl⟩
    · rw [copyWord]
      split_ifs with h0 hblank hend
      · exact ⟨rfl, rfl⟩
      · exact ⟨rfl, (words_blank hblank).symm⟩
      · exact ⟨rfl, rfl⟩
      · simp_all [inWord, endsLine]

/-- **One call** returns the first of the words and leaves the others. -/
theorem nextWord_words (s : List Byte) :
    (nextWord s).1 = (words textWordMax s).headD [] ∧
      words textWordMax (nextWord s).2 = (words textWordMax s).tail := by
  obtain ⟨hs, hblanks, hnot⟩ := Seek.span_spec (span_eq_takeWhile_dropWhile (p := isBlank) (l := s))
  rw [nextWord, hs, words_blanks hblanks, ← hs]
  generalize s.dropWhile isBlank = t at hnot
  obtain ⟨ht, hrun, hrest⟩ := Seek.span_spec (span_eq_takeWhile_dropWhile (p := inWord) (l := t))
  generalize t.takeWhile inWord = run, t.dropWhile inWord = rest at ht hrun hrest
  subst ht
  obtain ⟨hnone, hkept⟩ := copyWord_stops (n := textWordMax) hrest (textWordMax - run.length)
  rw [copyWord_append hrun, words_append hrun hrest, hnone]
  by_cases hnil : run = []
  · -- no blank and no word here: the line is at its end
    subst hnil
    have hend : words textWordMax rest = [] := by
      cases rest with
      | nil => simp [words, cut]
      | cons c rest =>
        have hc : endsLine c := by simpa [inWord, hnot c rfl] using hrest c rfl
        simp [words, hc, cut]
    simpa [cut, hend] using hkept
  · rw [cut_eq (by decide) hnil]
    refine ⟨by simp, ?_⟩
    by_cases hlen : run.length < textWordMax
    · simp [drop_eq_nil_of_le hlen.le, hkept, cut]
    · -- the word fills the buffer, and what is left of it comes next
      rw [Nat.sub_eq_zero_of_le (not_lt.1 hlen), copyWord,
        words_append (fun c hc => hrun c (mem_of_mem_drop hc)) hrest]
      rfl

/-- **The words of repeated calls**: call `k` returns word `k` of the line, and
an empty word where there are no more. -/
theorem next_word_tokens (s : List Byte) (k : ℕ) :
    (nextWord (cursor s k)).1 = (words textWordMax s).getD k [] := by
  have hleft : words textWordMax (cursor s k) = (words textWordMax s).drop k := by
    induction k with
    | zero => rfl
    | succ k ih => rw [cursor, (nextWord_words _).2, ih, tail_drop]
  rw [(nextWord_words _).1, hleft, headD_eq_head?_getD, head?_drop, getD_eq_getElem?_getD]

end Pimd.Text
