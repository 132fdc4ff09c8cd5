import CommandGrammar.Notation.Token

/-!
# `Proofs.Notation.Lexing` — one character of the notation

What a character does depends on the lexeme being read. Here is one equation for each way and a
list of all ways, so that later proofs do not unfold a step, and the one invariant that the reader
of lexemes relies on.

## Contents
- `foldlM_induction`, `exists_step_of_foldlM`: folds that may fail, and where they fail.
- `Begins`, `begins`: all that can begin at a character.
- `Scan.step_nothing`, `Scan.step_word`, …: one equation for each kind of pending lexeme.
- `Scan.Moves`, `Scan.outcome_step`, `Scan.moves_of_step`, `Scan.eq_of_step_error`: all that a
  character can do.
- `word_ne_nil_of_tokens`: no bare word is empty.
-/

namespace CommandGrammar
namespace Notation

/-- A fold that succeeds takes a step that succeeds. -/
theorem foldlM_cons_eq_ok {α β ε : Type} {f : β → α → Except ε β} {a : α} {l : List α} {b r : β} :
    (a :: l).foldlM f b = .ok r ↔ ∃ b', f b a = .ok b' ∧ l.foldlM f b' = .ok r := by
  rw [List.foldlM_cons]
  cases f b a <;> simp [bind, Except.bind]

/-- **What every step keeps, of the state and of what was read before it, a fold keeps.** -/
theorem foldlM_induction {α β ε : Type} {f : β → α → Except ε β} {P : List α → β → Prop}
    (hstep : ∀ {before : List α} {b b' : β} {a : α}, P before b → f b a = .ok b' →
      P (before ++ [a]) b')
    {before l : List α} {b r : β} (hb : P before b) (h : l.foldlM f b = .ok r) :
    P (before ++ l) r := by
  induction l generalizing before b with
  | nil =>
      injection h with h
      rwa [List.append_nil, ← h]
  | cons a l ih =>
      obtain ⟨b', hnext, h⟩ := foldlM_cons_eq_ok.mp h
      simpa using ih (hstep hb hnext) h

/-- A fold that fails takes a step that fails. -/
theorem exists_step_of_foldlM {α β ε : Type} {f : β → α → Except ε β} {l : List α} {b : β} {e : ε}
    (h : l.foldlM f b = .error e) :
    ∃ before a after b', l = before ++ a :: after ∧ before.foldlM f b = .ok b' ∧
      f b' a = .error e := by
  induction l generalizing b with
  | nil => cases h
  | cons a l ih =>
      cases hf : f b a with
      | error e' =>
          rw [List.foldlM_cons, hf] at h
          cases h
          exact ⟨[], a, l, b, rfl, rfl, hf⟩
      | ok next =>
          rw [List.foldlM_cons, hf] at h
          obtain ⟨before, a', after, b', rfl, hbefore, hstep⟩ := ih h
          exact ⟨a :: before, a', after, b', rfl, foldlM_cons_eq_ok.mpr ⟨next, hf, hbefore⟩, hstep⟩

/-! ## What begins at a character -/

/-- The mark at which a lexeme begins, and its position. -/
def Token.mark? : Token → Option (Char × Nat)
  | .word _ => none
  | .quoted _ => none
  | .placeholder _ pos => some ('<', pos)
  | .openSquare pos => some ('[', pos)
  | .closeSquare pos => some (']', pos)
  | .openParen pos => some ('(', pos)
  | .closeParen pos => some (')', pos)
  | .bar pos => some ('|', pos)

/-- All that can begin at a character, or be said against it. -/
inductive Begins (pos : Nat) (c : Char) (done : List Token) :
    Except Error (List Token × Pending) → Prop
  | blank (h : Text.isBlank c = true) : Begins pos c done (.ok (done, .nothing))
  | quote (h : isQuote c = true) : Begins pos c done (.ok (done, .quoted c pos []))
  | angle (h : c = '<') : Begins pos c done (.ok (done, .placeholder none pos []))
  | stray (h : c = '>') : Begins pos c done (.error (.invalid (.unexpected '>' pos)))
  /-- The mark is a lexeme of its own. -/
  | mark {t : Token} (ht : t.mark? = some (c, pos)) (hc : c ≠ '<') :
      Begins pos c done (.ok (t :: done, .nothing))
  | word (h : endsWord c = false) : Begins pos c done (.ok (done, .word [c]))

/-- **A character begins one of these.** -/
theorem begins (pos : Nat) (c : Char) (done : List Token) :
    Begins pos c done (begin pos c done) := by
  unfold begin
  by_cases hblank : Text.isBlank c = true
  · rw [if_pos hblank]
    exact .blank hblank
  rw [if_neg hblank]
  by_cases hquote : isQuote c = true
  · rw [if_pos hquote]
    exact .quote hquote
  rw [if_neg hquote]
  by_cases hangle : c = '<'
  · rw [if_pos hangle]
    exact .angle hangle
  rw [if_neg hangle]
  by_cases hstray : c = '>'
  · rw [if_pos hstray]
    exact .stray hstray
  rw [if_neg hstray]
  have hmark : ∀ (m : Char) (t : Token) {rest : Except Error (List Token × Pending)},
      t.mark? = some (m, pos) → (c ≠ m → Begins pos c done rest) →
      Begins pos c done (if c = m then .ok (t :: done, .nothing) else rest) := by
    intro m t rest ht hrest
    by_cases hc : c = m
    · rw [if_pos hc]
      exact .mark (hc ▸ ht) hangle
    · rw [if_neg hc]
      exact hrest hc
  refine hmark '[' _ rfl fun h₁ => hmark ']' _ rfl fun h₂ => hmark '(' _ rfl fun h₃ =>
    hmark ')' _ rfl fun h₄ => hmark '|' _ rfl fun h₅ => .word ?_
  simp [endsWord, hblank, hquote, hangle, hstray, h₁, h₂, h₃, h₄, h₅]

namespace Scan

/-! ## One equation for each pending lexeme -/

variable {pos start : Nat} {done : List Token} {acc : List Char} {c q : Char}

/-- Between lexemes a character begins one. -/
theorem step_nothing : Scan.step ⟨pos, done, .nothing⟩ c
    = (begin pos c done).map fun next => ⟨pos + c.utf8Size, next.1, next.2⟩ := by
  simp only [Scan.step]
  cases begin pos c done <;> rfl

/-- What ends a word begins the next lexeme. -/
theorem step_word_end (h : endsWord c = true) : Scan.step ⟨pos, done, .word acc⟩ c
    = Scan.step ⟨pos, .word acc.reverse :: done, .nothing⟩ c := by
  simp only [Scan.step, if_pos h]

theorem step_word (h : endsWord c = false) : Scan.step ⟨pos, done, .word acc⟩ c
    = .ok ⟨pos + c.utf8Size, done, .word (c :: acc)⟩ := by
  simp only [Scan.step, h]
  rfl

theorem step_quoted_end : Scan.step ⟨pos, done, .quoted q start acc⟩ q
    = .ok ⟨pos + q.utf8Size, .quoted acc.reverse :: done, .nothing⟩ := by
  simp only [Scan.step, if_true]
  rfl

theorem step_quoted (h : c ≠ q) : Scan.step ⟨pos, done, .quoted q start acc⟩ c
    = .ok ⟨pos + c.utf8Size, done, .quoted q start (c :: acc)⟩ := by
  simp only [Scan.step, if_neg h]
  rfl

/-- In a quote inside angle brackets every character is kept. -/
theorem step_placeholder_quoted : Scan.step ⟨pos, done, .placeholder (some q) start acc⟩ c
    = .ok ⟨pos + c.utf8Size, done,
        .placeholder (if c = q then none else some q) start (c :: acc)⟩ :=
  rfl

theorem step_placeholder_end : Scan.step ⟨pos, done, .placeholder none start acc⟩ '>'
    = .ok ⟨pos + '>'.utf8Size, .placeholder acc.reverse start :: done, .nothing⟩ := rfl

theorem step_placeholder_quote (h : isQuote c = true) :
    Scan.step ⟨pos, done, .placeholder none start acc⟩ c
      = .ok ⟨pos + c.utf8Size, done, .placeholder (some c) start (c :: acc)⟩ := by
  have hne : c ≠ '>' := by
    rintro rfl
    exact absurd h (by decide)
  simp only [Scan.step, if_neg hne, if_pos h]
  rfl

theorem step_placeholder_blank (h : Text.isBlank c = true) :
    Scan.step ⟨pos, done, .placeholder none start acc⟩ c
      = .ok ⟨pos + c.utf8Size, done, .placeholder none start acc⟩ := by
  have hne : c ≠ '>' := by
    rintro rfl
    exact absurd h (by decide)
  have hquote : isQuote c = false := by
    cases hq : isQuote c with
    | false => rfl
    | true =>
        simp only [isQuote, Bool.or_eq_true, beq_iff_eq] at hq
        rcases hq with rfl | rfl <;> exact absurd h (by decide)
  simp only [Scan.step, if_neg hne, hquote, if_pos h]
  rfl

theorem step_placeholder (hend : c ≠ '>') (hquote : isQuote c = false)
    (hblank : Text.isBlank c = false) : Scan.step ⟨pos, done, .placeholder none start acc⟩ c
      = .ok ⟨pos + c.utf8Size, done, .placeholder none start (c :: acc)⟩ := by
  simp only [Scan.step, if_neg hend, hquote, hblank]
  rfl

/-! ## All that a character can do -/

/-- What a character does to a state that does not refuse it: it begins a lexeme, behind a word that
it ends or between lexemes, or it goes on with the lexeme being read, or ends that. -/
inductive Moves : Scan → Char → Scan → Prop
  | begins {pos : Nat} {c : Char} {done : List Token} {next : List Token × Pending}
      (h : begin pos c done = .ok next) :
      Moves ⟨pos, done, .nothing⟩ c ⟨pos + c.utf8Size, next.1, next.2⟩
  | wordEnd {pos : Nat} {c : Char} {done : List Token} {acc : List Char}
      {next : List Token × Pending} (hend : endsWord c = true)
      (h : begin pos c (.word acc.reverse :: done) = .ok next) :
      Moves ⟨pos, done, .word acc⟩ c ⟨pos + c.utf8Size, next.1, next.2⟩
  | word {pos : Nat} {c : Char} {done : List Token} {acc : List Char} (h : endsWord c = false) :
      Moves ⟨pos, done, .word acc⟩ c ⟨pos + c.utf8Size, done, .word (c :: acc)⟩
  | quotedEnd {pos start : Nat} {q : Char} {done : List Token} {acc : List Char} :
      Moves ⟨pos, done, .quoted q start acc⟩ q
        ⟨pos + q.utf8Size, .quoted acc.reverse :: done, .nothing⟩
  | quoted {pos start : Nat} {c q : Char} {done : List Token} {acc : List Char} (h : c ≠ q) :
      Moves ⟨pos, done, .quoted q start acc⟩ c
        ⟨pos + c.utf8Size, done, .quoted q start (c :: acc)⟩
  | angleQuoted {pos start : Nat} {c q : Char} {done : List Token} {acc : List Char} :
      Moves ⟨pos, done, .placeholder (some q) start acc⟩ c
        ⟨pos + c.utf8Size, done, .placeholder (if c = q then none else some q) start (c :: acc)⟩
  | angleEnd {pos start : Nat} {done : List Token} {acc : List Char} :
      Moves ⟨pos, done, .placeholder none start acc⟩ '>'
        ⟨pos + '>'.utf8Size, .placeholder acc.reverse start :: done, .nothing⟩
  /-- Outside quotes a blank is dropped. -/
  | angle {pos start : Nat} {c : Char} {done : List Token} {acc : List Char} (h : c ≠ '>') :
      Moves ⟨pos, done, .placeholder none start acc⟩ c
        ⟨pos + c.utf8Size, done, .placeholder (if isQuote c then some c else none) start
          (if Text.isBlank c then acc else c :: acc)⟩

/-- A quote is no blank. -/
theorem isBlank_of_isQuote (h : isQuote c = true) : Text.isBlank c = false := by
  simp only [isQuote, Bool.or_eq_true, beq_iff_eq] at h
  rcases h with rfl | rfl <;> decide

/-- In angle brackets and outside quotes every character is read. -/
theorem step_angle (h : c ≠ '>') : Scan.step ⟨pos, done, .placeholder none start acc⟩ c
    = .ok ⟨pos + c.utf8Size, done, .placeholder (if isQuote c then some c else none) start
        (if Text.isBlank c then acc else c :: acc)⟩ := by
  cases hquote : isQuote c with
  | true =>
      rw [step_placeholder_quote hquote, if_pos rfl, isBlank_of_isQuote hquote]
      rfl
  | false =>
      cases hblank : Text.isBlank c with
      | true => exact step_placeholder_blank hblank
      | false => exact step_placeholder h hquote hblank

/-- All that can come of a character: a state, or a closing bracket that closes nothing. -/
inductive Outcome (s : Scan) (c : Char) : Except Error Scan → Prop
  | moves {s' : Scan} (h : s.Moves c s') : Outcome s c (.ok s')
  | stray (h : c = '>') : Outcome s c (.error (.invalid (.unexpected '>' s.pos)))

/-- What begins at a character comes of it, if that is a move of the state. -/
theorem outcome_begin {s : Scan} {done : List Token}
    (hmoves : ∀ next, begin s.pos c done = .ok next →
      s.Moves c ⟨s.pos + c.utf8Size, next.1, next.2⟩) :
    s.Outcome c (Scan.step ⟨s.pos, done, .nothing⟩ c) := by
  rw [step_nothing]
  have hbegins := begins s.pos c done
  cases hb : begin s.pos c done with
  | ok next => exact .moves (hmoves next hb)
  | error e =>
      rw [hb] at hbegins
      cases hbegins with
      | stray hc => exact .stray hc

/-- **One of these comes of a character.** -/
theorem outcome_step (s : Scan) (c : Char) : s.Outcome c (s.step c) := by
  obtain ⟨pos, done, pending⟩ := s
  cases pending with
  | nothing => exact outcome_begin (s := ⟨pos, done, .nothing⟩) fun next hb => .begins hb
  | word acc =>
      cases hc : endsWord c with
      | true =>
          rw [step_word_end hc]
          exact outcome_begin (s := ⟨pos, done, .word acc⟩) fun next hb => .wordEnd hc hb
      | false =>
          rw [step_word hc]
          exact .moves (.word hc)
  | quoted q start acc =>
      by_cases hc : c = q
      · subst hc
        rw [step_quoted_end]
        exact .moves .quotedEnd
      · rw [step_quoted hc]
        exact .moves (.quoted hc)
  | placeholder quote start acc =>
      cases quote with
      | some q => exact .moves .angleQuoted
      | none =>
          by_cases hc : c = '>'
          · subst hc
            exact .moves .angleEnd
          · rw [step_angle hc]
            exact .moves (.angle hc)

theorem moves_of_step {s s' : Scan} (h : s.step c = .ok s') : s.Moves c s' := by
  have houtcome := s.outcome_step c
  rw [h] at houtcome
  cases houtcome with
  | moves hmoves => exact hmoves

/-- **A character is refused only if it is a closing bracket that closes nothing.** -/
theorem eq_of_step_error {s : Scan} {e : Error} (h : s.step c = .error e) :
    c = '>' ∧ e = .invalid (.unexpected '>' s.pos) := by
  have houtcome := s.outcome_step c
  rw [h] at houtcome
  cases houtcome with
  | stray hc => exact ⟨hc, rfl⟩

/-! ## Bare words -/

/-- No bare word is empty, also not the one being read. -/
structure Proper (s : Scan) : Prop where
  done : Token.word [] ∉ s.done
  pending : s.pending ≠ .word []

theorem start_proper : Scan.start.Proper := ⟨by simp [Scan.start], by simp [Scan.start]⟩

theorem begin_proper {next : List Token × Pending} (h : begin pos c done = .ok next)
    (hdone : Token.word [] ∉ done) : Token.word [] ∉ next.1 ∧ next.2 ≠ .word [] := by
  -- One case for each kind of character: a mark is no word, and a word begins with its character.
  unfold begin at h
  grind

/-- **A character keeps every bare word from being empty.** -/
theorem Proper.step {s s' : Scan} (hs : s.Proper) (h : s.step c = .ok s') : s'.Proper := by
  cases moves_of_step h with
  | begins hb => exact ⟨(begin_proper hb hs.done).1, (begin_proper hb hs.done).2⟩
  | @wordEnd pos c done acc next hend hb =>
      have hdone : Token.word [] ∉ .word acc.reverse :: done := by
        simpa using ⟨fun he => hs.pending (by simp [he]), hs.done⟩
      exact ⟨(begin_proper hb hdone).1, (begin_proper hb hdone).2⟩
  | word hc => exact ⟨hs.done, by simp⟩
  | quotedEnd => exact ⟨by simpa using hs.done, by simp⟩
  | quoted hc => exact ⟨hs.done, by simp⟩
  | angleQuoted => exact ⟨hs.done, by simp⟩
  | angleEnd => exact ⟨by simpa using hs.done, by simp⟩
  | angle hc => exact ⟨hs.done, by simp⟩

theorem Proper.run {s s' : Scan} (hs : s.Proper) {cs : List Char}
    (h : cs.foldlM Scan.step s = .ok s') : s'.Proper := by
  induction cs generalizing s with
  | nil =>
      injection h with h
      exact h ▸ hs
  | cons c cs ih =>
      obtain ⟨next, hstep, h⟩ := foldlM_cons_eq_ok.mp h
      exact ih (hs.step hstep) h

end Scan

/-- **No bare word is empty.** -/
theorem word_ne_nil_of_tokens {source : String} {ts : List Token} (h : tokens source = .ok ts) :
    Token.word [] ∉ ts := by
  unfold tokens tokenChars at h
  cases hrun : source.toList.foldlM Scan.step Scan.start with
  | error e => simp [hrun, bind, Except.bind] at h
  | ok s =>
      have hs := Scan.start_proper.run hrun
      rw [hrun] at h
      replace h : s.finish = .ok ts := h
      obtain ⟨pos, done, pending⟩ := s
      cases pending with
      | nothing =>
          injection h with h
          subst h
          simpa using hs.done
      | word acc =>
          injection h with h
          subst h
          simpa using ⟨hs.done, fun he => hs.pending (by simp [he])⟩
      | quoted q start acc => exact absurd h (by simp [Scan.finish])
      | placeholder quote start acc => exact absurd h (by simp [Scan.finish])

end Notation
end CommandGrammar
