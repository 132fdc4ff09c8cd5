import CommandGrammar.Line

/-!
# `Proofs.Line.Quoting` — the grammar of command lines

The grammar that the splitter is compared with, as relations between a text and its value:

* a line is words with gaps between them, and perhaps a gap at either end; a gap is one or more
  blanks;
* a word is one or more pieces;
* a piece is a plain character, a text in single quotes, a text in double quotes, a backslash with
  the character that it makes literal, or a backslash that stands for nothing: in front of a line
  break, or at the very end of the line.

Whether a backslash is at the very end is not seen from the backslash, so every relation also has
what follows in the line (`rest`).

That a line with a reading has these words is shown along the reading. That any other line has an
open quote does not need the splitter at all: a text begins with a blank, with a piece or with a
quote that is never closed (`begins`), and what it begins with is put in front of the reading of the
rest.

## Contents
- `Literal`, `isPlain_iff`: words that stand for themselves.
- `Quoted`, `Piece`, `Word`, `Words`, `Reads`: the grammar. `OpenQuote`, `Unclosed`: its complement.
- `Piece.foldl`, `Word.foldl`, `Words.foldl`, `Reads.foldl`: what the splitter makes of a reading.
- `begins`, `reads_or_unclosed`: every line has a reading or an open quote.
- `wordChars_of_reads`, `wordChars_of_unclosed`, `words_iff_reads`.
-/

namespace CommandGrammar
namespace Line

/-! ## Plain words -/

/-- A character that stands for itself outside quotes: no blank, no quote and no backslash. -/
def Literal (c : Char) : Prop :=
  Text.isBlank c = false ∧ c ≠ '\'' ∧ c ≠ '"' ∧ c ≠ '\\'

instance (c : Char) : Decidable (Literal c) :=
  inferInstanceAs (Decidable (_ ∧ _ ∧ _ ∧ _))

theorem Literal.ne_lineBreak {c : Char} (h : Literal c) : c ≠ '\n' := by
  rintro rfl
  exact absurd h.1 (by decide)

/-- A plain word is one whose characters stand for themselves. -/
theorem isPlain_iff {cs : List Char} : isPlain cs = true ↔ cs ≠ [] ∧ ∀ c ∈ cs, Literal c := by
  simp [isPlain, Literal, and_assoc]

/-! ## The grammar -/

/-- The inside of double quotes, and what it stands for. -/
inductive Quoted : List Char → List Char → Prop
  | nil : Quoted [] []
  | plain {c : Char} {t v : List Char} (hquote : c ≠ '"') (hback : c ≠ '\\') (h : Quoted t v) :
      Quoted (c :: t) (c :: v)
  /-- A backslash makes the quote, itself, the dollar and the backquote literal. -/
  | literal {c : Char} {t v : List Char} (hc : c = '"' ∨ c = '\\' ∨ c = '$' ∨ c = '\x60')
      (h : Quoted t v) : Quoted ('\\' :: c :: t) (c :: v)
  /-- A backslash in front of a line break stands for nothing. -/
  | joined {t v : List Char} (h : Quoted t v) : Quoted ('\\' :: '\n' :: t) v
  /-- In front of any other character the backslash stays. -/
  | kept {c : Char} {t v : List Char} (hc : ¬(c = '"' ∨ c = '\\' ∨ c = '$' ∨ c = '\x60'))
      (hbreak : c ≠ '\n') (h : Quoted t v) : Quoted ('\\' :: c :: t) ('\\' :: c :: v)

/-- A piece of a word in a line that goes on with `rest`: its text, and what it stands for. -/
inductive Piece : List Char → List Char → List Char → Prop
  | plain {c : Char} {rest : List Char} (hblank : Text.isBlank c = false) (hsingle : c ≠ '\'')
      (hdouble : c ≠ '"') (hback : c ≠ '\\') : Piece [c] [c] rest
  | single {v rest : List Char} (h : '\'' ∉ v) : Piece ('\'' :: v ++ ['\'']) v rest
  | double {t v rest : List Char} (h : Quoted t v) : Piece ('"' :: t ++ ['"']) v rest
  | literal {c : Char} {rest : List Char} (h : c ≠ '\n') : Piece ['\\', c] [c] rest
  | joined {rest : List Char} : Piece ['\\', '\n'] [] rest
  /-- A backslash at the very end of the line. -/
  | dangling : Piece ['\\'] [] []

/-- A word: one or more pieces. -/
inductive Word : List Char → List Char → List Char → Prop
  | last {t v rest : List Char} (h : Piece t v rest) : Word t v rest
  | more {t v t' v' rest : List Char} (h : Piece t v (t' ++ rest)) (h' : Word t' v' rest) :
      Word (t ++ t') (v ++ v') rest

/-- Blanks, perhaps none. -/
def Blanks (gap : List Char) : Prop := ∀ c ∈ gap, Text.isBlank c = true

/-- One or more words with a gap between neighbours. -/
inductive Words : List Char → List (List Char) → List Char → Prop
  | last {t v rest : List Char} (h : Word t v rest) : Words t [v] rest
  | more {t v gap t' rest : List Char} {vs : List (List Char)} (h : Word t v (gap ++ t' ++ rest))
      (hblanks : Blanks gap) (hgap : gap ≠ []) (h' : Words t' vs rest) :
      Words (t ++ gap ++ t') (v :: vs) rest

/-- The beginning of a line that goes on with `rest`: its text, its words, and the blanks at its
end. -/
inductive Reads : List Char → List (List Char) → List Char → List Char → Prop
  | blanks {trail rest : List Char} (h : Blanks trail) : Reads trail [] trail rest
  | words {lead t trail rest : List Char} {vs : List (List Char)} (hlead : Blanks lead)
      (h : Words t vs (trail ++ rest)) (htrail : Blanks trail) :
      Reads (lead ++ t ++ trail) vs trail rest

/-- A text that begins with a quote which is never closed. -/
inductive OpenQuote : List Char → Prop
  | single {cs : List Char} (h : '\'' ∉ cs) : OpenQuote ('\'' :: cs)
  | double {t v : List Char} (h : Quoted t v) : OpenQuote ('"' :: t)
  /-- The last character is a backslash, which would have made the next one literal. -/
  | doubleBackslash {t v : List Char} (h : Quoted t v) : OpenQuote ('"' :: t ++ ['\\'])

/-- Some quote of the line is never closed: behind words, and perhaps within one, a quote is open to
the end. -/
def Unclosed (cs : List Char) : Prop :=
  ∃ before vs trail tail, cs = before ++ tail ∧ Reads before vs trail tail ∧ OpenQuote tail

/-! ## What the splitter makes of a reading -/

section

variable {t v gap rest : List Char} {vs : List (List Char)}

theorem Blanks.nil : Blanks [] := fun _ hc => absurd hc List.not_mem_nil

theorem Blanks.cons {c : Char} (hc : Text.isBlank c = true) (h : Blanks gap) : Blanks (c :: gap) :=
  List.forall_mem_cons.mpr ⟨hc, h⟩

/-- The characters that a backslash in double quotes makes literal. -/
theorem escapable_iff {c : Char} :
    escapable c = true ↔ c = '"' ∨ c = '\\' ∨ c = '$' ∨ c = '\x60' := by
  simp [escapable, or_assoc]

/-- What is quoted is added to the word, and the quotes are still open. -/
theorem Quoted.foldl (h : Quoted t v) (done : List (List Char)) (w : List Char) :
    t.foldl Scan.step ⟨.double, done, some w⟩ = ⟨.double, done, some (v.reverse ++ w)⟩ := by
  induction h generalizing w with
  | nil => rfl
  | @plain c t v hquote hback h ih =>
      have hrest := ih (c :: w)
      simpa [Scan.step, Scan.put, hquote, hback] using hrest
  | @literal c t v hc h ih =>
      have hrest := ih (c :: w)
      have hbreak : c ≠ '\n' := by rcases hc with rfl | rfl | rfl | rfl <;> decide
      simpa [Scan.step, Scan.enter, Scan.put, hbreak, escapable_iff.mpr hc] using hrest
  | joined h ih =>
      have hrest := ih w
      simpa [Scan.step, Scan.enter] using hrest
  | @kept c t v hc hbreak h ih =>
      have hrest := ih (c :: '\\' :: w)
      have hnot : escapable c = false := Bool.eq_false_iff.mpr (mt escapable_iff.mp hc)
      simpa [Scan.step, Scan.enter, Scan.put, hbreak, hnot] using hrest

/-- Between single quotes every character is added to the word. -/
theorem foldl_single (h : '\'' ∉ v) (done : List (List Char)) (w : List Char) :
    v.foldl Scan.step ⟨.single, done, some w⟩ = ⟨.single, done, some (v.reverse ++ w)⟩ := by
  induction v generalizing w with
  | nil => rfl
  | cons c v ih =>
      have hc : c ≠ '\'' := fun heq => h (by simp [heq])
      have hrest := ih (fun hmem => h (List.mem_cons_of_mem c hmem)) (c :: w)
      simpa [Scan.step, Scan.put, hc] using hrest

/-- How a piece leaves the quoting: no quote is open, and only at the very end of the line a
backslash may wait for its character. -/
def Quoting.Settled (q : Quoting) (rest : List Char) : Prop :=
  q = .bare ∨ q = .escaped ∧ rest = []

theorem Quoting.Settled.eq_bare {q : Quoting} (h : q.Settled rest) (hrest : rest ≠ []) :
    q = .bare :=
  h.resolve_right fun hend => hrest hend.2

/-- **The value of a piece is added to the word**, which begins with it if there was none. -/
theorem Piece.foldl (h : Piece t v rest) (done : List (List Char)) (word : Option (List Char)) :
    ∃ q, Quoting.Settled q rest ∧
      t.foldl Scan.step ⟨.bare, done, word⟩ = ⟨q, done, some (v.reverse ++ word.getD [])⟩ := by
  have hsingle : Text.isBlank '\'' = false := by decide
  have hdouble : Text.isBlank '"' = false := by decide
  have hback : Text.isBlank '\\' = false := by decide
  cases h with
  | plain hblank hs hd hb =>
      exact ⟨.bare, .inl rfl, by simp [Scan.step, Scan.put, hblank, hs, hd, hb]⟩
  | single h =>
      refine ⟨.bare, .inl rfl, ?_⟩
      have hinside := foldl_single h done (word.getD [])
      simp [Scan.step, Scan.enter, hsingle, hinside]
  | double h =>
      refine ⟨.bare, .inl rfl, ?_⟩
      have hinside := h.foldl done (word.getD [])
      simp [Scan.step, Scan.enter, hdouble, hinside]
  | literal h => exact ⟨.bare, .inl rfl, by simp [Scan.step, Scan.enter, Scan.put, hback, h]⟩
  | joined => exact ⟨.bare, .inl rfl, by simp [Scan.step, Scan.enter, hback]⟩
  | dangling => exact ⟨.escaped, .inr ⟨rfl, rfl⟩, by simp [Scan.step, Scan.enter, hback]⟩

theorem Piece.ne_nil (h : Piece t v rest) : t ≠ [] := by
  cases h <;> simp

theorem Word.ne_nil (h : Word t v rest) : t ≠ [] := by
  cases h with
  | last h => exact h.ne_nil
  | more h h' => simp [h.ne_nil]

/-- **The value of a word is added**, piece by piece. -/
theorem Word.foldl (h : Word t v rest) (done : List (List Char)) (word : Option (List Char)) :
    ∃ q, Quoting.Settled q rest ∧
      t.foldl Scan.step ⟨.bare, done, word⟩ = ⟨q, done, some (v.reverse ++ word.getD [])⟩ := by
  induction h generalizing word with
  | last h => exact h.foldl done word
  | @more t v t' v' rest h h' ih =>
      obtain ⟨q, hq, hpiece⟩ := h.foldl done word
      -- The word goes on, so the piece is no backslash at the very end.
      have hbare : q = .bare := hq.eq_bare (by simp [h'.ne_nil])
      obtain ⟨q', hq', hword⟩ := ih (some (v.reverse ++ word.getD []))
      refine ⟨q', hq', ?_⟩
      rw [List.foldl_append, hpiece, hbare, hword]
      simp

/-- Blanks between words mean nothing. -/
theorem Blanks.foldl (h : Blanks gap) (done : List (List Char)) :
    gap.foldl Scan.step ⟨.bare, done, none⟩ = ⟨.bare, done, none⟩ := by
  induction gap with
  | nil => rfl
  | cons c gap ih =>
      obtain ⟨hc, hgap⟩ := List.forall_mem_cons.mp h
      simpa [Scan.step, Scan.break, hc] using ih hgap

/-- A gap ends a word. -/
theorem Blanks.foldl_word (h : Blanks gap) (hgap : gap ≠ []) (done : List (List Char))
    (w : List Char) :
    gap.foldl Scan.step ⟨.bare, done, some w⟩ = ⟨.bare, w.reverse :: done, none⟩ := by
  obtain ⟨c, gap, rfl⟩ := List.exists_cons_of_ne_nil hgap
  obtain ⟨hc, hrest⟩ := List.forall_mem_cons.mp h
  simpa [Scan.step, Scan.break, hc] using Blanks.foldl hrest (w.reverse :: done)

/-- **Words are read one after the other**, and the last of them may still go on. -/
theorem Words.foldl (h : Words t vs rest) (done : List (List Char)) :
    ∃ q before w, Quoting.Settled q rest ∧ vs = before ++ [w.reverse] ∧
      t.foldl Scan.step ⟨.bare, done, none⟩ = ⟨q, before.reverse ++ done, some w⟩ := by
  induction h generalizing done with
  | @last t v rest h =>
      obtain ⟨q, hq, hword⟩ := h.foldl done none
      exact ⟨q, [], v.reverse, hq, by simp, by simpa using hword⟩
  | @more t v gap t' rest vs h hblanks hgap h' ih =>
      obtain ⟨q, hq, hword⟩ := h.foldl done none
      have hbare : q = .bare := hq.eq_bare (by simp [hgap])
      obtain ⟨q', before, w, hq', hvs, hwords⟩ := ih (v :: done)
      refine ⟨q', v :: before, w, hq', by simp [hvs], ?_⟩
      rw [List.foldl_append, List.foldl_append, hword, hbare, hblanks.foldl_word hgap]
      simpa using hwords

/-- **The beginning of a line leaves its words behind**, and the last one may go on unless a gap has
ended it. -/
theorem Reads.foldl {cs trail : List Char} (h : Reads cs vs trail rest) :
    ∃ q done word, Quoting.Settled q rest ∧ cs.foldl Scan.step Scan.start = ⟨q, done, word⟩ ∧
      vs = done.reverse ++ (word.map List.reverse).toList ∧
      (word = none ↔ vs = [] ∨ trail ≠ []) := by
  unfold Scan.start
  cases h with
  | blanks h => exact ⟨.bare, [], none, .inl rfl, h.foldl [], by simp⟩
  | @words lead t trail rest vs hlead h htrail =>
      obtain ⟨q, before, w, hq, hvs, hwords⟩ := h.foldl []
      have hread : (lead ++ t ++ trail).foldl Scan.step ⟨.bare, [], none⟩
          = trail.foldl Scan.step ⟨q, before.reverse, some w⟩ := by
        rw [List.foldl_append, List.foldl_append, hlead.foldl, hwords, List.append_nil]
      by_cases hend : trail = []
      · subst hend
        exact ⟨q, before.reverse, some w, by simpa using hq, hread, by simp [hvs]⟩
      · have hbare : q = .bare := hq.eq_bare (by simp [hend])
        refine ⟨.bare, w.reverse :: before.reverse, none, .inl rfl, ?_, by simp [hvs, hend]⟩
        rw [hread, hbare, htrail.foldl_word hend]

end

/-- The words of a line: those of its reading, and in a line being edited an empty one behind a gap
at the end. -/
def readWords (mode : Mode) (vs : List (List Char)) (trail : List Char) : List (List Char) :=
  if mode = .tolerant ∧ vs ≠ [] ∧ trail ≠ [] then vs ++ [[]] else vs

/-- **A line that has a reading has its words.** -/
theorem wordChars_of_reads {cs trail : List Char} {vs : List (List Char)}
    (h : Reads cs vs trail []) (mode : Mode) :
    wordChars mode cs = .ok (readWords mode vs trail) := by
  obtain ⟨q, done, word, hq, hfold, hvs, hword⟩ := h.foldl
  unfold wordChars readWords
  rw [hfold]
  have hfinish : Scan.finish mode ⟨q, done, word⟩ = Scan.finish mode ⟨.bare, done, word⟩ := by
    rcases hq with rfl | ⟨rfl, -⟩ <;> rfl
  rw [hfinish]
  cases word with
  | some w =>
      have htrail : trail = [] := by
        by_cases hgap : trail = []
        · exact hgap
        · exact absurd (hword.mpr (.inr hgap)) (by simp)
      simp [Scan.finish, hvs, htrail]
  | none =>
      have hgap := hword.mp rfl
      simp only [Option.map_none, Option.toList_none, List.append_nil] at hvs
      subst hvs
      by_cases hempty : done = []
      · simp [Scan.finish, hempty]
      · have htrail : trail ≠ [] := hgap.resolve_left (by simpa using hempty)
        cases mode with
        | strict => simp [Scan.finish]
        | tolerant => simp [Scan.finish, hempty, htrail]

/-! ## Every other line has an open quote -/

/-- In double quotes every character is added to the word, a backslash waits for the next one, and
no line ends well. -/
theorem OpenQuote.finish {tail : List Char} (h : OpenQuote tail) (done : List (List Char))
    (word : Option (List Char)) (mode : Mode) :
    (tail.foldl Scan.step ⟨.bare, done, word⟩).finish mode = .error .unclosedQuote := by
  have hsingle : Text.isBlank '\'' = false := by decide
  have hdouble : Text.isBlank '"' = false := by decide
  cases h with
  | single h =>
      have hinside := foldl_single h done (word.getD [])
      simp [Scan.step, Scan.enter, Scan.finish, hsingle, hinside]
  | double h =>
      have hinside := h.foldl done (word.getD [])
      simp [Scan.step, Scan.enter, Scan.finish, hdouble, hinside]
  | doubleBackslash h =>
      have hinside := h.foldl done (word.getD [])
      simp [Scan.step, Scan.enter, Scan.finish, hdouble, hinside]

theorem OpenQuote.ne_nil {tail : List Char} (h : OpenQuote tail) : tail ≠ [] := by
  cases h <;> simp

/-- **A line with a quote that is never closed has no words.** -/
theorem wordChars_of_unclosed {cs : List Char} (h : Unclosed cs) (mode : Mode) :
    wordChars mode cs = .error .unclosedQuote := by
  obtain ⟨before, vs, trail, tail, rfl, hreads, hopen⟩ := h
  obtain ⟨q, done, word, hq, hfold, -, -⟩ := hreads.foldl
  rw [wordChars_append, hfold, hq.eq_bare hopen.ne_nil]
  exact hopen.finish done word mode

/-- The text is quoted up to a closing quote, or it is quoted to its end, where a backslash may
stand alone. -/
def Inside (cs : List Char) : Prop :=
  (∃ t v rest, cs = t ++ '"' :: rest ∧ Quoted t v) ∨ ∃ t v, Quoted t v ∧ (cs = t ∨ cs = t ++ ['\\'])

/-- What can be put in front of every quoted text can be put in front of the inside of quotes. -/
theorem Inside.append {cs : List Char} (h : Inside cs) (pre : List Char)
    (hpre : ∀ t v, Quoted t v → ∃ v', Quoted (pre ++ t) v') : Inside (pre ++ cs) := by
  rcases h with ⟨t, v, rest, rfl, ht⟩ | ⟨t, v, ht, hcs⟩
  · obtain ⟨v', hv'⟩ := hpre t v ht
    exact .inl ⟨pre ++ t, v', rest, by simp, hv'⟩
  · obtain ⟨v', hv'⟩ := hpre t v ht
    refine .inr ⟨pre ++ t, v', hv', ?_⟩
    rcases hcs with rfl | rfl
    · exact .inl rfl
    · exact .inr (by simp)

/-- A backslash and the character behind it are quoted, whatever that is. -/
theorem Quoted.exists_backslash (c : Char) {t v : List Char} (h : Quoted t v) :
    ∃ v', Quoted ('\\' :: c :: t) v' := by
  by_cases hc : c = '"' ∨ c = '\\' ∨ c = '$' ∨ c = '\x60'
  · exact ⟨_, .literal hc h⟩
  · by_cases hbreak : c = '\n'
    · subst hbreak
      exact ⟨_, .joined h⟩
    · exact ⟨_, .kept hc hbreak h⟩

/-- **Behind a double quote every text is quoted, up to a closing quote or to the end.** -/
theorem inside (cs : List Char) : Inside cs := by
  -- A backslash takes the next character with it, so the induction is on the length.
  induction hn : cs.length using Nat.strongRecOn generalizing cs with
  | _ n ih =>
      subst hn
      cases cs with
      | nil => exact .inr ⟨[], [], .nil, .inl rfl⟩
      | cons c rest =>
          by_cases hquote : c = '"'
          · subst hquote
            exact .inl ⟨[], [], rest, rfl, .nil⟩
          · by_cases hback : c = '\\'
            · subst hback
              cases rest with
              | nil => exact .inr ⟨[], [], .nil, .inr rfl⟩
              | cons d rest =>
                  have hshort : rest.length < ('\\' :: d :: rest).length := by
                    simp only [List.length_cons]
                    omega
                  have hrest : Inside rest := ih rest.length hshort rest rfl
                  exact hrest.append ['\\', d] fun t v h => h.exists_backslash d
            · have hrest : Inside rest := ih rest.length (by simp) rest rfl
              exact hrest.append [c] fun t v h => ⟨c :: v, .plain hquote hback h⟩

/-- **A text begins with a blank, with a piece or with a quote that is never closed.** -/
theorem begins (c : Char) (cs : List Char) :
    Text.isBlank c = true ∨ (∃ t v rest, c :: cs = t ++ rest ∧ Piece t v rest) ∨
      OpenQuote (c :: cs) := by
  by_cases hblank : Text.isBlank c = true
  · exact .inl hblank
  · refine .inr ?_
    by_cases hsingle : c = '\''
    · subst hsingle
      by_cases hclosed : '\'' ∈ cs
      · obtain ⟨v, rest, rfl, hv⟩ := List.eq_append_cons_of_mem hclosed
        exact .inl ⟨'\'' :: v ++ ['\''], v, rest, by simp, .single hv⟩
      · exact .inr (.single hclosed)
    · by_cases hdouble : c = '"'
      · subst hdouble
        rcases inside cs with ⟨t, v, rest, rfl, ht⟩ | ⟨t, v, ht, rfl | rfl⟩
        · exact .inl ⟨'"' :: t ++ ['"'], v, rest, by simp, .double ht⟩
        · exact .inr (.double ht)
        · exact .inr (.doubleBackslash ht)
      · by_cases hback : c = '\\'
        · subst hback
          cases cs with
          | nil => exact .inl ⟨['\\'], [], [], rfl, .dangling⟩
          | cons d rest =>
              by_cases hbreak : d = '\n'
              · subst hbreak
                exact .inl ⟨['\\', '\n'], [], rest, rfl, .joined⟩
              · exact .inl ⟨['\\', d], [d], rest, rfl, .literal hbreak⟩
        · exact .inl ⟨[c], [c], cs, rfl, .plain (Bool.eq_false_iff.mpr hblank) hsingle hdouble hback⟩

/-- A blank in front of a line belongs to a gap. -/
theorem Reads.cons_blank {c : Char} {cs trail rest : List Char} {vs : List (List Char)}
    (hc : Text.isBlank c = true) (h : Reads cs vs trail rest) :
    ∃ trail', Reads (c :: cs) vs trail' rest := by
  cases h with
  | blanks h => exact ⟨_, .blanks (h.cons hc)⟩
  | words hlead h htrail => exact ⟨_, .words (hlead.cons hc) h htrail⟩

/-- A piece in front of words goes on in the first of them. -/
theorem Words.append_piece {t v t' rest : List Char} {vs : List (List Char)}
    (hpiece : Piece t v (t' ++ rest)) (h : Words t' vs rest) : ∃ vs', Words (t ++ t') vs' rest := by
  cases h with
  | last h => exact ⟨_, .last (.more hpiece h)⟩
  | @more u w gap u' _ vs h hblanks hgap h' =>
      have hword : Word (t ++ u) (v ++ w) (gap ++ u' ++ rest) := .more (by simpa using hpiece) h
      exact ⟨_, by simpa using Words.more hword hblanks hgap h'⟩

/-- A piece in front of a line is a word of its own if a gap follows, and else goes on in the first
word. -/
theorem Reads.append_piece {t v cs trail rest : List Char} {vs : List (List Char)}
    (hpiece : Piece t v (cs ++ rest)) (h : Reads cs vs trail rest) :
    ∃ vs' trail', Reads (t ++ cs) vs' trail' rest := by
  cases h with
  | blanks h =>
      have hwords : Words t [v] (cs ++ rest) := .last (.last hpiece)
      exact ⟨_, _, Reads.words Blanks.nil hwords h⟩
  | @words lead u _ _ _ hlead h htrail =>
      by_cases hgap : lead = []
      · subst hgap
        obtain ⟨vs', hvs'⟩ := h.append_piece (by simpa using hpiece)
        exact ⟨vs', trail, by simpa using Reads.words Blanks.nil hvs' htrail⟩
      · have hword : Word t v (lead ++ u ++ (trail ++ rest)) := .last (by simpa using hpiece)
        have hwords : Words (t ++ lead ++ u) (v :: vs) (trail ++ rest) := .more hword hlead hgap h
        exact ⟨v :: vs, trail, by simpa using Reads.words Blanks.nil hwords htrail⟩

/-- **Every line has a reading up to its end or up to a quote that is never closed.** -/
theorem exists_reads (cs : List Char) :
    ∃ before vs trail tail, cs = before ++ tail ∧ Reads before vs trail tail ∧
      (tail = [] ∨ OpenQuote tail) := by
  induction hn : cs.length using Nat.strongRecOn generalizing cs with
  | _ n ih =>
      subst hn
      cases cs with
      | nil => exact ⟨[], [], [], [], rfl, .blanks Blanks.nil, .inl rfl⟩
      | cons c cs =>
          rcases begins c cs with hblank | ⟨t, v, rest, hcs, hpiece⟩ | hopen
          · obtain ⟨before, vs, trail, tail, rfl, hreads, htail⟩ := ih cs.length (by simp) cs rfl
            obtain ⟨trail', hreads'⟩ := hreads.cons_blank hblank
            exact ⟨c :: before, vs, trail', tail, rfl, hreads', htail⟩
          · have hshort : rest.length < (c :: cs).length := by
              have hpos := List.length_pos_iff.mpr hpiece.ne_nil
              rw [hcs, List.length_append]
              omega
            obtain ⟨before, vs, trail, tail, rfl, hreads, htail⟩ := ih rest.length hshort rest rfl
            obtain ⟨vs', trail', hreads'⟩ := hreads.append_piece hpiece
            exact ⟨t ++ before, vs', trail', tail, by simp [hcs], hreads', htail⟩
          · exact ⟨[], [], [], c :: cs, rfl, .blanks Blanks.nil, .inr hopen⟩

theorem reads_or_unclosed (cs : List Char) :
    (∃ vs trail, Reads cs vs trail []) ∨ Unclosed cs := by
  obtain ⟨before, vs, trail, tail, hcs, hreads, rfl | hopen⟩ := exists_reads cs
  · refine .inl ⟨vs, trail, ?_⟩
    rw [hcs, List.append_nil]
    exact hreads
  · exact .inr ⟨before, vs, trail, tail, hcs, hreads, hopen⟩

/-! ## The splitter and the grammar -/

/-- The words of a line are those of its reading, in whichever mode. -/
theorem words_eq_ok_iff {mode : Mode} {line : String} {ws : List String} :
    words mode line = .ok ws ↔
      ∃ vs trail, Reads line.toList vs trail [] ∧
        ws = (readWords mode vs trail).map String.ofList := by
  unfold words
  constructor
  · intro hok
    rcases reads_or_unclosed line.toList with ⟨vs, trail, hreads⟩ | hopen
    · rw [wordChars_of_reads hreads] at hok
      injection hok with hws
      exact ⟨vs, trail, hreads, hws.symm⟩
    · rw [wordChars_of_unclosed hopen] at hok
      cases hok
  · rintro ⟨vs, trail, hreads, rfl⟩
    rw [wordChars_of_reads hreads]
    rfl

theorem words_eq_error_iff_unclosed {mode : Mode} {line : String} :
    words mode line = .error .unclosedQuote ↔ Unclosed line.toList := by
  unfold words
  constructor
  · intro herror
    rcases reads_or_unclosed line.toList with ⟨vs, trail, hreads⟩ | hopen
    · rw [wordChars_of_reads hreads] at herror
      cases herror
    · exact hopen
  · intro hopen
    rw [wordChars_of_unclosed hopen]
    rfl

theorem map_readWords_tolerant (vs : List (List Char)) (trail : List Char) :
    (readWords .tolerant vs trail).map String.ofList
      = vs.map String.ofList ++ if vs ≠ [] ∧ trail ≠ [] then [""] else [] := by
  unfold readWords
  by_cases hgap : vs ≠ [] ∧ trail ≠ []
  · simp [hgap]
  · rw [if_neg (fun h => hgap h.2), if_neg hgap, List.append_nil]

/-- No line has both a reading and an open quote. -/
theorem unclosed_iff_not_reads {line : String} :
    Unclosed line.toList ↔ ¬ ∃ vs trail, Reads line.toList vs trail [] := by
  constructor
  · rintro hopen ⟨vs, trail, hreads⟩
    have herror := wordChars_of_unclosed hopen .strict
    rw [wordChars_of_reads hreads] at herror
    cases herror
  · intro hnot
    exact (reads_or_unclosed line.toList).resolve_left hnot

/-- **The words of a line are those of the grammar.** A submitted line has the words of its reading,
and it is refused exactly if it has no reading, which is to say that some quote is never closed. A
line being edited is refused alike, and has the same words, but for an empty one behind them if
there are words and blanks follow the last of them. -/
theorem words_iff_reads (line : String) :
    (∀ ws, words .strict line = .ok ws ↔
      ∃ vs trail, Reads line.toList vs trail [] ∧ ws = vs.map String.ofList) ∧
    (words .strict line = .error .unclosedQuote ↔
      ¬ ∃ vs trail, Reads line.toList vs trail []) ∧
    (words .strict line = .error .unclosedQuote ↔ Unclosed line.toList) ∧
    (words .tolerant line = .error .unclosedQuote ↔
      words .strict line = .error .unclosedQuote) ∧
    ∀ ws, words .tolerant line = .ok ws ↔
      ∃ vs trail, Reads line.toList vs trail [] ∧
        ws = vs.map String.ofList ++ if vs ≠ [] ∧ trail ≠ [] then [""] else [] := by
  refine ⟨fun ws => ?_, ?_, words_eq_error_iff_unclosed, ?_, fun ws => ?_⟩
  · rw [words_eq_ok_iff]
    simp [readWords]
  · rw [words_eq_error_iff_unclosed]
    exact unclosed_iff_not_reads
  · rw [words_eq_error_iff_unclosed, words_eq_error_iff_unclosed]
  · rw [words_eq_ok_iff]
    simp only [map_readWords_tolerant]

/-- A blank behind a backslash belongs to the word, so no gap follows it. -/
example : wordChars .tolerant ['a', '\\', ' '] = .ok [['a', ' ']] := rfl

end Line
end CommandGrammar
