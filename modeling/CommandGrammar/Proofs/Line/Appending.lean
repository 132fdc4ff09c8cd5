import CommandGrammar.Proofs.Line.Quoting
import Mathlib.Data.List.Infix

/-!
# `Proofs.Line.Appending` — text put behind a line

Whoever completes a line that is being edited changes its text and means its words. When does the
new text have the words that were meant? Two changes are decided here: more of the last word is put
behind the line, or the last word is taken away and another one is put there in single quotes; a
blank follows in both cases.

That the words come out if the text is taken as it is (`Scan.Takes`) is read off the splitter. That
they come out only then is a count: a character adds at most one character to the words
(`size_step_le`), and a special one outside quotes adds none (`size_step_eq`), so a text with a
special character falls behind its length and never catches up (`size_foldl_lt`).

Behind a waiting backslash the quote that should open a word is a character of it. There the count
is not enough, since the word could begin otherwise; what is read of a word stays at its beginning
(`word_foldl`).

## Contents
- `after`, `Scan.Takes`, `Scan.Unquoted`, `Scan.Empty`: the state behind a text.
- `Scan.Outcome`, `step_outcome`: what a character can do.
- `Scan.size`: the count. `size_foldl_le`, `size_foldl_lt`; `done_suffix_foldl`.
- `finish_eq_ok`, `size_of_finish`, `size_of_finish_blank`: what the end of a line tells.
- `wordChars_more_iff`: more of the last word.
- `wordChars_quoted_iff`, `wordChars_quoted_waiting_iff`: another word in quotes.
-/

namespace CommandGrammar
namespace Line

/-- The state behind a text. -/
def after (cs : List Char) : Scan := cs.foldl Scan.step Scan.start

/-- What comes next is added to the word as it is: every character stands for itself, except that
the first one may be any but a line break if a backslash waits for it. -/
def Scan.Takes (s : Scan) : List Char → Prop
  | [] => True
  | c :: cs => (if s.quoting = .escaped then c ≠ '\n' else Literal c) ∧ ∀ c ∈ cs, Literal c

/-- No quote is open. -/
def Scan.Unquoted (s : Scan) : Prop := s.quoting = .bare ∨ s.quoting = .escaped

/-- The word being read has no character yet. -/
def Scan.Empty (s : Scan) : Prop := s.word.getD [] = []

/-! ## What a character does -/

/-- What a character can do to the splitter: it finishes the word being read, or begins or goes on
with one, adding itself or nothing; or it is added behind the backslash that waited for it in double
quotes. -/
inductive Scan.Outcome (s : Scan) (c : Char) : Scan → Prop
  | ended (hbare : s.quoting = .bare) : Outcome s c s.break
  | entered (q : Quoting) : Outcome s c (s.enter q)
  | added (q : Quoting) (hq : q ≠ .doubleEscaped) : Outcome s c (s.put q c)
  | kept (hwaits : s.quoting = .doubleEscaped) :
      Outcome s c ((s.put .double '\\').put .double c)

theorem step_outcome (s : Scan) (c : Char) : s.Outcome c (s.step c) := by
  unfold Scan.step
  cases hq : s.quoting with
  | bare =>
      dsimp only
      split_ifs
      · exact .ended hq
      · exact .entered _
      · exact .entered _
      · exact .entered _
      · exact .added _ (by simp)
  | escaped =>
      dsimp only
      split_ifs
      · exact .entered _
      · exact .added _ (by simp)
  | single =>
      dsimp only
      split_ifs
      · exact .entered _
      · exact .added _ (by simp)
  | double =>
      dsimp only
      split_ifs
      · exact .entered _
      · exact .entered _
      · exact .added _ (by simp)
  | doubleEscaped =>
      dsimp only
      split_ifs
      · exact .entered _
      · exact .added _ (by simp)
      · exact .kept hq

/-! ## Counting characters -/

/-- The number of characters in the words so far. -/
def Scan.count (s : Scan) : Nat := s.done.flatten.length + (s.word.getD []).length

/-- The characters of the words so far, and the backslash in double quotes that waits to see whether
it is one of them. -/
def Scan.size (s : Scan) : Nat := s.count + if s.quoting = .doubleEscaped then 1 else 0

section

variable {s : Scan} {c : Char} {cs : List Char}

@[simp] theorem Scan.count_put (s : Scan) (q : Quoting) (c : Char) :
    (s.put q c).count = s.count + 1 := by
  simp [count, put, Nat.add_assoc]

@[simp] theorem Scan.count_enter (s : Scan) (q : Quoting) : (s.enter q).count = s.count := by
  simp [count, enter]

@[simp] theorem Scan.count_break (s : Scan) : s.break.count = s.count := by
  obtain ⟨q, done, word⟩ := s
  cases word with
  | none => rfl
  | some w => simp [count, Scan.break, Nat.add_comm]

@[simp] theorem Scan.quoting_put (s : Scan) (q : Quoting) (c : Char) :
    (s.put q c).quoting = q := rfl

@[simp] theorem Scan.quoting_enter (s : Scan) (q : Quoting) : (s.enter q).quoting = q := rfl

theorem Scan.quoting_break (h : s.quoting = .bare) : s.break.quoting = .bare := by
  obtain ⟨q, done, word⟩ := s
  cases word with
  | none => exact h
  | some w => rfl

/-- **A character adds at most one character to the words**, where the backslash that has waited in
double quotes counts as one of them already. -/
theorem size_step_le (s : Scan) (c : Char) : (s.step c).size ≤ s.size + 1 := by
  have houtcome := step_outcome s c
  generalize s.step c = s' at houtcome ⊢
  unfold Scan.size
  cases houtcome with
  | ended hbare => simp [Scan.quoting_break hbare, hbare]
  | entered q =>
      rw [Scan.count_enter]
      split_ifs <;> omega
  | added q hq =>
      rw [Scan.count_put, Scan.quoting_put, if_neg hq]
      omega
  | kept hwaits => simp [hwaits, Nat.add_assoc]

/-- **Outside quotes a special character adds none.** -/
theorem size_step_eq (hbare : s.quoting = .bare) (hc : ¬ Literal c) : (s.step c).size = s.size := by
  have hbreak : s.break.quoting = .bare := Scan.quoting_break hbare
  unfold Scan.step
  rw [hbare]
  dsimp only
  split_ifs with hblank hsingle hdouble hback
  · simp [Scan.size, hbare, hbreak]
  · simp [Scan.size, hbare]
  · simp [Scan.size, hbare]
  · simp [Scan.size, hbare]
  · exact absurd ⟨Bool.eq_false_iff.mpr hblank, hsingle, hdouble, hback⟩ hc

theorem size_foldl_le (s : Scan) (cs : List Char) :
    (cs.foldl Scan.step s).size ≤ s.size + cs.length := by
  induction cs generalizing s with
  | nil => simp
  | cons c cs ih =>
      have hfirst := size_step_le s c
      have hrest := ih (s.step c)
      simp only [List.foldl_cons, List.length_cons]
      omega

/-- Outside quotes a character that stands for itself is added to the word. -/
theorem step_literal (hbare : s.quoting = .bare) (hc : Literal c) : s.step c = s.put .bare c := by
  obtain ⟨hblank, hsingle, hdouble, hback⟩ := hc
  simp [Scan.step, hbare, hblank, hsingle, hdouble, hback]

/-- **A text with a special character adds fewer characters than it has.** -/
theorem size_foldl_lt (hbare : s.quoting = .bare) (h : ∃ c ∈ cs, ¬ Literal c) :
    (cs.foldl Scan.step s).size < s.size + cs.length := by
  induction cs generalizing s with
  | nil => simp at h
  | cons c cs ih =>
      simp only [List.foldl_cons, List.length_cons]
      by_cases hc : Literal c
      · have hlater : ∃ c ∈ cs, ¬ Literal c := by simpa [hc] using h
        have hrest := ih (s := s.put .bare c) rfl hlater
        have hput : (s.put .bare c).size = s.size + 1 := by simp [Scan.size, hbare]
        rw [step_literal hbare hc]
        omega
      · have hfirst := size_step_eq hbare hc
        have hrest := size_foldl_le (s.step c) cs
        omega

/-- Outside quotes a text that stands for itself is added to the word. -/
theorem foldl_literal (hbare : s.quoting = .bare) (h : ∀ c ∈ cs, Literal c) (hne : cs ≠ []) :
    cs.foldl Scan.step s = ⟨.bare, s.done, some (cs.reverse ++ s.word.getD [])⟩ := by
  induction cs generalizing s with
  | nil => exact absurd rfl hne
  | cons c cs ih =>
      obtain ⟨hc, hcs⟩ := List.forall_mem_cons.mp h
      rw [List.foldl_cons, step_literal hbare hc]
      by_cases hlast : cs = []
      · simp [hlast, Scan.put]
      · rw [ih (s := s.put .bare c) rfl hcs hlast]
        simp [Scan.put]

/-- No word that is finished is touched again. -/
theorem done_suffix_step (s : Scan) (c : Char) : s.done <:+ (s.step c).done := by
  have houtcome := step_outcome s c
  generalize s.step c = s' at houtcome ⊢
  cases houtcome with
  | ended hbare =>
      unfold Scan.break
      cases s.word with
      | none => exact List.suffix_rfl
      | some w => exact List.suffix_cons w.reverse s.done
  | entered q => exact List.suffix_rfl
  | added q hq => exact List.suffix_rfl
  | kept hwaits => exact List.suffix_rfl

theorem done_suffix_foldl (s : Scan) (cs : List Char) :
    s.done <:+ (cs.foldl Scan.step s).done := by
  induction cs generalizing s with
  | nil => exact List.suffix_rfl
  | cons c cs ih => exact (done_suffix_step s c).trans (ih (s.step c))

end

/-! ## What the end of a line tells -/

section

variable {s : Scan} {before : List (List Char)} {last : List Char}

/-- **The words of a line being edited are those of the state at its end**, and the last one is
the word being read. -/
theorem finish_eq_ok (h : s.finish .tolerant = .ok (before ++ [last])) :
    s.Unquoted ∧ s.done = before.reverse ∧ s.word.getD [] = last.reverse := by
  obtain ⟨q, done, word⟩ := s
  have hwords : Scan.Unquoted ⟨q, done, word⟩ ∧
      Scan.finish .tolerant ⟨.bare, done, word⟩ = .ok (before ++ [last]) := by
    cases q with
    | bare => exact ⟨.inl rfl, h⟩
    | escaped => exact ⟨.inr rfl, h⟩
    | single => cases h
    | double => cases h
    | doubleEscaped => cases h
  refine ⟨hwords.1, ?_⟩
  replace hwords := hwords.2
  cases word with
  | some w =>
      have hlist : done.reverse ++ [w.reverse] = before ++ [last] := by
        simpa [Scan.finish] using hwords
      obtain ⟨rfl, hw⟩ := List.append_inj' hlist rfl
      have hlast : w.reverse = last := by simpa using hw
      simp [← hlast]
  | none =>
      by_cases hempty : done = []
      · simp [Scan.finish, hempty] at hwords
      · have hlist : done.reverse ++ [[]] = before ++ [last] := by
          simpa [Scan.finish, hempty] using hwords
        obtain ⟨rfl, hw⟩ := List.append_inj' hlist rfl
        have hlast : [] = last := by simpa using hw
        simp [← hlast]

/-- The size at the end of a line is the number of characters in its words. -/
theorem size_of_finish (h : s.finish .tolerant = .ok (before ++ [last])) :
    s.size = before.flatten.length + last.length := by
  obtain ⟨hq, hdone, hword⟩ := finish_eq_ok h
  have hnot : s.quoting ≠ .doubleEscaped := by rcases hq with hq | hq <;> simp [hq]
  simp [Scan.size, Scan.count, hnot, hdone, hword, List.length_flatten]

/-- A word that is read to its end by a blank. -/
theorem finish_blank (hq : s.quoting = .bare) (hdone : s.done = before.reverse)
    (hword : s.word = some last.reverse) :
    (s.step ' ').finish .tolerant = .ok (before ++ [last, []]) := by
  have hblank : Text.isBlank ' ' = true := by decide
  simp [Scan.step, hq, hblank, Scan.break, hword, Scan.finish, hdone]

/-- **If a line has an empty word behind a blank at its end**, the blank has ended a word. -/
theorem size_of_finish_blank (h : (s.step ' ').finish .tolerant = .ok (before ++ [last, []])) :
    s.size = before.flatten.length + last.length := by
  have hsplit : (s.step ' ').finish .tolerant = .ok ((before ++ [last]) ++ [[]]) := by simpa using h
  obtain ⟨hq, -, hword⟩ := finish_eq_ok hsplit
  have hsize := size_of_finish hsplit
  have hblank : ¬ Literal ' ' := by decide
  cases hquoting : s.quoting with
  | bare =>
      rw [size_step_eq hquoting hblank] at hsize
      simpa using hsize
  | escaped => simp [Scan.step, hquoting, Scan.put] at hword
  | single => simp [Scan.step, hquoting, Scan.Unquoted] at hq
  | double => simp [Scan.step, hquoting, Scan.Unquoted] at hq
  | doubleEscaped => simp [Scan.step, hquoting, escapable, Scan.Unquoted] at hq

end

/-! ## More of the last word -/

section

variable {s : Scan} {before : List (List Char)} {cs last more stem v : List Char}

/-- What is taken goes on in the word being read. -/
theorem Scan.Takes.foldl (h : s.Takes cs) (hq : s.Unquoted) (hne : cs ≠ []) :
    cs.foldl Scan.step s = ⟨.bare, s.done, some (cs.reverse ++ s.word.getD [])⟩ := by
  obtain ⟨c, cs, rfl⟩ := List.exists_cons_of_ne_nil hne
  obtain ⟨hc, hcs⟩ := h
  have hfirst : s.step c = s.put .bare c := by
    rcases hq with hq | hq
    · exact step_literal hq (by simpa [hq] using hc)
    · simp_all [Scan.step]
  rw [List.foldl_cons, hfirst]
  by_cases hlast : cs = []
  · simp [hlast, Scan.put]
  · rw [foldl_literal (s := s.put .bare c) rfl hcs hlast]
    simp [Scan.put]

/-- Characters that stand for themselves are taken, whether a backslash waits or not. -/
theorem Scan.takes_of_literal (s : Scan) (h : ∀ c ∈ cs, Literal c) : s.Takes cs := by
  cases cs with
  | nil => trivial
  | cons c cs =>
      obtain ⟨hc, hcs⟩ := List.forall_mem_cons.mp h
      refine ⟨?_, hcs⟩
      split_ifs
      · exact hc.ne_lineBreak
      · exact hc

/-- **What is not taken adds fewer characters than it has.** -/
theorem size_foldl_lt_of_not_takes (hq : s.Unquoted) (h : ¬ s.Takes cs) :
    (cs.foldl Scan.step s).size < s.size + cs.length := by
  cases cs with
  | nil => exact absurd trivial h
  | cons c cs =>
      rcases hq with hq | hq
      · refine size_foldl_lt hq ?_
        by_contra hall
        push Not at hall
        exact h (by simpa [Scan.Takes, hq] using hall)
      · have hbare : (s.step c).quoting = .bare := by
          simp only [Scan.step, hq]
          split_ifs <;> rfl
        simp only [List.foldl_cons, List.length_cons]
        by_cases hbreak : c = '\n'
        · have hfirst : (s.step c).size = s.size := by simp [Scan.step, Scan.size, hq, hbreak]
          have hrest := size_foldl_le (s.step c) cs
          omega
        · have hspecial : ∃ c ∈ cs, ¬ Literal c := by simpa [Scan.Takes, hq, hbreak] using h
          have hfirst := size_step_le s c
          have hrest := size_foldl_lt hbare hspecial
          omega

/-- **More of the last word is read as it is if and only if it is taken.** -/
theorem wordChars_more_iff (h : wordChars .tolerant cs = .ok (before ++ [last]))
    (hmore : more ≠ []) :
    wordChars .tolerant (cs ++ more ++ [' ']) = .ok (before ++ [last ++ more, []]) ↔
      (after cs).Takes more := by
  have hend : (after cs).finish .tolerant = .ok (before ++ [last]) := h
  obtain ⟨hq, hdone, hword⟩ := finish_eq_ok hend
  have hline : wordChars .tolerant (cs ++ more ++ [' '])
      = ((more.foldl Scan.step (after cs)).step ' ').finish .tolerant := by
    simp [wordChars, after]
  rw [hline]
  constructor
  · intro hread
    by_contra hnot
    have hless := size_foldl_lt_of_not_takes hq hnot
    have hsize := size_of_finish_blank hread
    have hstart := size_of_finish hend
    rw [List.length_append] at hsize
    omega
  · intro htakes
    rw [htakes.foldl hq hmore]
    exact finish_blank rfl hdone (by simp [hword])

/-! ## Another word in quotes -/

/-- If the last word begins outside quotes and with no character, the words before it are finished
there: the last word is taken, because it would add fewer characters than it has if it was not. -/
theorem done_of_empty (h : wordChars .tolerant (stem ++ last) = .ok (before ++ [last]))
    (hq : (after stem).Unquoted) (hempty : (after stem).Empty) :
    (after stem).done = before.reverse := by
  have hend : (last.foldl Scan.step (after stem)).finish .tolerant = .ok (before ++ [last]) := by
    rw [← h, wordChars_append]
    rfl
  obtain ⟨-, hdone, -⟩ := finish_eq_ok hend
  have htakes : (after stem).Takes last := by
    by_contra hnot
    have hless := size_foldl_lt_of_not_takes hq hnot
    have hsize := size_of_finish hend
    have hstart : (after stem).size = (after stem).done.flatten.length := by
      have hzero : ((after stem).word.getD []).length = 0 := by rw [hempty, List.length_nil]
      rcases hq with hq | hq <;> simp [Scan.size, Scan.count, hq, hzero]
    have hgrown := (done_suffix_foldl (after stem) last).flatten.length_le
    have hfinished : before.reverse.flatten.length = before.flatten.length := by
      simp [List.length_flatten]
    rw [hdone, hfinished] at hgrown
    omega
  by_cases hnil : last = []
  · rw [← hdone, hnil, List.foldl_nil]
  · rw [← hdone, htakes.foldl hq hnil]

/-- A text in single quotes is added to the word. -/
theorem foldl_quoted (hbare : s.quoting = .bare) (hv : '\'' ∉ v) :
    ('\'' :: v ++ ['\'']).foldl Scan.step s
      = ⟨.bare, s.done, some (v.reverse ++ s.word.getD [])⟩ := by
  obtain ⟨q, done, word⟩ := s
  obtain rfl : q = .bare := hbare
  -- Another text follows, so no backslash is left waiting.
  obtain ⟨q', hq', hfold⟩ := Piece.foldl (.single hv : Piece _ v [' ']) done word
  rw [hfold, hq'.eq_bare (by simp)]

/-- **A text in single quotes is added to the word if and only if no single quote is in it.** -/
theorem finish_quoted_iff (hbare : s.quoting = .bare) (hdone : s.done = before.reverse) :
    ((('\'' :: v ++ ['\'']).foldl Scan.step s).step ' ').finish .tolerant
        = .ok (before ++ [(s.word.getD []).reverse ++ v, []]) ↔ '\'' ∉ v := by
  constructor
  · intro hread hquote
    -- The first single quote of the text closes the quotes; what is left has at least the last one.
    obtain ⟨u, rest, rfl, hu⟩ := List.eq_append_cons_of_mem hquote
    have hsplit : '\'' :: (u ++ '\'' :: rest) ++ ['\'']
        = ('\'' :: u ++ ['\'']) ++ (rest ++ ['\'']) := by simp
    rw [hsplit, List.foldl_append, foldl_quoted hbare hu] at hread
    have hsize := size_of_finish_blank hread
    have hspecial : ∃ c ∈ rest ++ ['\''], ¬ Literal c := ⟨'\'', by simp, by decide⟩
    have hless := size_foldl_lt
      (s := ⟨.bare, s.done, some (u.reverse ++ s.word.getD [])⟩) rfl hspecial
    simp [Scan.size, Scan.count, hdone, List.length_flatten] at hless hsize
    omega
  · intro hquote
    rw [foldl_quoted hbare hquote]
    exact finish_blank rfl hdone (by simp)

/-- **The last word is replaced by a text in single quotes if and only if no single quote is in the
text**, if it began with no character. -/
theorem wordChars_quoted_iff (h : wordChars .tolerant (stem ++ last) = .ok (before ++ [last]))
    (hbare : (after stem).quoting = .bare) (hempty : (after stem).Empty) :
    wordChars .tolerant (stem ++ ('\'' :: v ++ ['\'']) ++ [' ']) = .ok (before ++ [v, []]) ↔
      '\'' ∉ v := by
  have hdone := done_of_empty h (.inl hbare) hempty
  have hline : wordChars .tolerant (stem ++ ('\'' :: v ++ ['\'']) ++ [' '])
      = ((('\'' :: v ++ ['\'']).foldl Scan.step (after stem)).step ' ').finish .tolerant := by
    simp [wordChars, after]
  have hiff := finish_quoted_iff hbare hdone (v := v)
  rw [hempty, List.reverse_nil, List.nil_append] at hiff
  rw [hline, hiff]

/-! ## Another word in quotes behind a backslash -/

/-- The word being read goes on, or it is finished with what was read of it at its beginning. -/
theorem word_step {w : List Char} (hw : s.word = some w) (c : Char) :
    ((s.step c).done = s.done ∧ ∃ u, (s.step c).word = some (u ++ w)) ∨
      ∃ u, (w.reverse ++ u) :: s.done <:+ (s.step c).done := by
  have houtcome := step_outcome s c
  generalize s.step c = s' at houtcome ⊢
  cases houtcome with
  | ended hbare => exact .inr ⟨[], by simp [Scan.break, hw]⟩
  | entered q => exact .inl ⟨rfl, [], by simp [Scan.enter, hw]⟩
  | added q hq => exact .inl ⟨rfl, [c], by simp [Scan.put, hw]⟩
  | kept hwaits => exact .inl ⟨rfl, [c, '\\'], by simp [Scan.put, hw]⟩

theorem word_foldl {w : List Char} (hw : s.word = some w) (cs : List Char) :
    ((cs.foldl Scan.step s).done = s.done ∧ ∃ u, (cs.foldl Scan.step s).word = some (u ++ w)) ∨
      ∃ u, (w.reverse ++ u) :: s.done <:+ (cs.foldl Scan.step s).done := by
  induction cs generalizing s w with
  | nil => exact .inl ⟨rfl, [], hw⟩
  | cons c cs ih =>
      rcases word_step hw c with ⟨hdone, u, hu⟩ | ⟨u, hu⟩
      · rcases ih hu with ⟨hdone', u', hu'⟩ | ⟨u', hu'⟩
        · exact .inl ⟨hdone'.trans hdone, u' ++ u, by simpa using hu'⟩
        · exact .inr ⟨u.reverse ++ u', by simpa [hdone] using hu'⟩
      · exact .inr ⟨u, hu.trans (done_suffix_foldl _ cs)⟩

/-- A word that is finished begins with what was read of it. -/
theorem begins_of_finish {w : List Char} (hw : s.word = some w) (hdone : s.done = before.reverse)
    (h : (cs.foldl Scan.step s).finish .tolerant = .ok (before ++ [v, []])) :
    ∃ rest, v = w.reverse ++ rest := by
  have hsplit : (cs.foldl Scan.step s).finish .tolerant = .ok ((before ++ [v]) ++ [[]]) := by
    simpa using h
  obtain ⟨-, hend, -⟩ := finish_eq_ok hsplit
  rcases word_foldl hw cs with ⟨hsame, -⟩ | ⟨rest, hrest⟩
  · have hlength := congrArg List.length (hsame.symm.trans hend)
    simp [hdone] at hlength
  · rw [hend, hdone] at hrest
    have hsame := hrest.eq_of_length (by simp)
    exact ⟨rest, by simpa using hsame.symm⟩

/-- **Behind a waiting backslash the opening quote is taken as it is**, so it has to be the first
character of the text, and the next one, which opens the quotes, has to be the only other one. -/
theorem wordChars_quoted_waiting_iff
    (h : wordChars .tolerant (stem ++ last) = .ok (before ++ [last]))
    (hwaits : (after stem).quoting = .escaped) (hempty : (after stem).Empty) :
    wordChars .tolerant (stem ++ ('\'' :: v ++ ['\'']) ++ [' ']) = .ok (before ++ [v, []]) ↔
      ∃ rest, v = '\'' :: rest ∧ '\'' ∉ rest := by
  have hdone := done_of_empty h (.inr hwaits) hempty
  -- The state behind the quote that should have opened the word.
  obtain ⟨s, hs⟩ : ∃ s, (after stem).step '\'' = s := ⟨_, rfl⟩
  have hput : s = (after stem).put .bare '\'' := by simp [← hs, Scan.step, hwaits]
  have hbare : s.quoting = .bare := by rw [hput, Scan.quoting_put]
  have hbefore : s.done = before.reverse := by rw [hput, ← hdone, Scan.put]
  have hword : s.word = some ['\''] := by
    rw [hput, Scan.put, show (after stem).word.getD [] = [] from hempty]
  have hline : wordChars .tolerant (stem ++ ('\'' :: v ++ ['\'']) ++ [' '])
      = (((v ++ ['\'']).foldl Scan.step s).step ' ').finish .tolerant := by
    simp [← hs, wordChars, after]
  have hiff : ∀ rest, ((('\'' :: rest ++ ['\'']).foldl Scan.step s).step ' ').finish .tolerant
      = .ok (before ++ ['\'' :: rest, []]) ↔ '\'' ∉ rest := by
    intro rest
    rw [← finish_quoted_iff hbare hbefore, hword]
    rfl
  rw [hline]
  constructor
  · intro hread
    have hall : ((v ++ ['\'', ' ']).foldl Scan.step s).finish .tolerant
        = .ok (before ++ [v, []]) := by simpa using hread
    obtain ⟨rest, rfl⟩ := begins_of_finish hword hbefore hall
    exact ⟨rest, rfl, (hiff rest).mp hread⟩
  · rintro ⟨rest, rfl, hquote⟩
    exact (hiff rest).mpr hquote

end

end Line
end CommandGrammar
