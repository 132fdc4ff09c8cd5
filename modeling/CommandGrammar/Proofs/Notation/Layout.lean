import CommandGrammar.Proofs.Notation.Writing

/-!
# `Proofs.Notation.Layout` — blanks between the parts of a notation

Blanks can be put into a text of the notation wherever they stand in no quoted text and in no bare
word: in front of and behind every mark, at both ends, and inside angle brackets even in the middle
of a name. The text is then read as the same scheme, or refused for the same reason; only positions
in the reason change.

Where a blank may be put is said of the characters in front of it and behind it (`Loose`), with no
mention of lexemes: all that matters of the characters in front is which quote is open and whether
angle brackets are (`Place`).

Blanks are put in one after the other, the last one first (`Spread.tokenChars`). One blank ends the
bare word in front of it, if there is one, and does nothing else, so what is behind it is read from
a state that differs in positions only (`Scan.step_blank`). Such states stay so, whatever is read
(`foldlM_unplaced`), and the reader of lexemes never looks at a position.

## Contents
- `Place`, `Loose`, `Spread`: where blanks may be put; texts with blanks put in.
- `Fault.unplaced`, `Error.unplaced`, `Scheme.Error.unplaced`: errors without positions.
- `Scan.unplaced`, `Scan.step_unplaced`, `Reading.step_unplaced`: positions change nothing else.
- `Scan.Behind`: what the state has to do with the characters that were read.
- `Scan.rest`, `Scan.rest_blank`, `tokenChars_blank`: one blank.
- `parse_spread`.
-/

namespace CommandGrammar
namespace Notation

/-! ## Where blanks may be put -/

/-- What is open behind a text: a quote, and angle brackets. -/
structure Place where
  quote : Option Char
  inAngle : Bool
  deriving DecidableEq

namespace Place

/-- Nothing is open. -/
def outside : Place := ⟨none, false⟩

/-- What is open behind one more character. In quotes only the same quote means anything. -/
def after (p : Place) (c : Char) : Place :=
  match p.quote with
  | some q => { p with quote := if c = q then none else some q }
  | none =>
    if isQuote c then { p with quote := some c }
    else { p with inAngle := if p.inAngle then c != '>' else c == '<' }

/-- What is open behind a text. -/
def behind (cs : List Char) : Place := cs.foldl after outside

@[simp] theorem behind_nil : behind [] = outside := rfl

@[simp] theorem behind_concat (cs : List Char) (c : Char) :
    behind (cs ++ [c]) = (behind cs).after c := by
  simp [behind]

end Place

/-- Between the two texts a blank belongs to no quoted text and to no bare word. -/
structure Loose (before after : List Char) : Prop where
  /-- No quote that is open is closed. -/
  unquoted : ∀ q ∈ (Place.behind before).quote, q ∉ after
  /-- Outside quotes and brackets, no bare word goes on. -/
  apart : Place.behind before = .outside →
    (∀ c ∈ before.getLast?, endsWord c = true) ∨ ∀ c ∈ after.head?, endsWord c = true

/-- Inside brackets and outside quotes, a blank may be put anywhere. -/
theorem loose_inside {before : List Char} (h : Place.behind before = ⟨none, true⟩)
    (after : List Char) : Loose before after := by
  refine ⟨?_, ?_⟩
  · intro q hq
    rw [h] at hq
    cases hq
  · intro houtside
    cases h.symm.trans houtside

/-- Outside brackets and quotes, a blank may be put where no bare word ends. -/
theorem loose_outside {before : List Char} (h : Place.behind before = .outside)
    (hlast : ∀ c ∈ before.getLast?, endsWord c = true) (after : List Char) :
    Loose before after := by
  refine ⟨?_, fun _ => .inl hlast⟩
  intro q hq
  rw [h] at hq
  cases hq

/-- Behind `before`, the second text is the first one with blanks put in. -/
inductive Spread : List Char → List Char → List Char → Prop
  | nil {before : List Char} : Spread before [] []
  | char {before cs cs' : List Char} (c : Char) (h : Spread (before ++ [c]) cs cs') :
      Spread before (c :: cs) (c :: cs')
  | blank {before cs cs' : List Char} {b : Char} (hb : Text.isBlank b = true)
      (hloose : Loose before cs) (h : Spread before cs cs') : Spread before cs (b :: cs')

/-- Only a quote opens a quoted text. -/
theorem Place.isQuote_after {p : Place} (hp : ∀ q ∈ p.quote, isQuote q = true) (c : Char) :
    ∀ q ∈ (p.after c).quote, isQuote q = true := by
  intro q hq
  unfold Place.after at hq
  cases hquote : p.quote with
  | none =>
      by_cases hc : isQuote c = true
      · simp only [hquote, if_pos hc] at hq
        cases hq
        exact hc
      · simp only [hquote, if_neg hc] at hq
        cases hq
  | some q' =>
      simp only [hquote] at hq
      split_ifs at hq
      · cases hq
      · exact hp q (hquote ▸ hq)

theorem Place.isQuote_behind {cs : List Char} {q : Char} (h : (behind cs).quote = some q) :
    isQuote q = true := by
  have hall : ∀ (cs : List Char) (p : Place), (∀ q ∈ p.quote, isQuote q = true) →
      ∀ q ∈ (cs.foldl after p).quote, isQuote q = true := by
    intro cs
    induction cs with
    | nil => exact fun p hp => hp
    | cons c cs ih => exact fun p hp => ih (p.after c) (isQuote_after hp c)
  exact hall cs outside (by simp [outside]) q h

theorem endsWord_of_isBlank {c : Char} (h : Text.isBlank c = true) : endsWord c = true := by
  simp [endsWord, h]

namespace Spread

variable {before cs cs' : List Char}

/-- Of all characters only blanks are put in. -/
theorem mem_of_isBlank_eq_false (h : Spread before cs cs') {c : Char} (hc : c ∈ cs')
    (hblank : Text.isBlank c = false) : c ∈ cs := by
  induction h with
  | nil => exact hc
  | char d h ih =>
      rcases List.mem_cons.mp hc with rfl | hc
      · exact List.mem_cons_self
      · exact List.mem_cons_of_mem d (ih hc)
  | blank hb hloose h ih =>
      rcases List.mem_cons.mp hc with rfl | hc
      · rw [hb] at hblank
        cases hblank
      · exact ih hc

/-- What follows begins as before, or with a blank. -/
theorem endsWord_head (h : Spread before cs cs') (hcs : ∀ c ∈ cs.head?, endsWord c = true) :
    ∀ c ∈ cs'.head?, endsWord c = true := by
  cases h with
  | nil => exact hcs
  | char d h => exact hcs
  | blank hb hloose h =>
      intro c hc
      cases hc
      exact endsWord_of_isBlank hb

/-- Where a blank may be put, one may be put after others have been put in behind it. -/
theorem loose (h : Spread before cs cs') (hloose : Loose before cs) : Loose before cs' where
  unquoted q hq hmem := hloose.unquoted q hq
    (h.mem_of_isBlank_eq_false hmem (Scan.isBlank_of_isQuote (Place.isQuote_behind hq)))
  apart hout := (hloose.apart hout).imp_right h.endsWord_head

end Spread

/-! ## Without positions -/

/-- The fault, wherever it is. -/
def Fault.unplaced : Fault → Fault
  | .unclosedQuote _ => .unclosedQuote 0
  | .unexpected c _ => .unexpected c 0
  | .emptyOptional _ => .emptyOptional 0
  | .missingType name => .missingType name
  | .unquotedChoice choices => .unquotedChoice choices
  | .unclosedChoice choices => .unclosedChoice choices
  | .unexpectedInChoices c choices => .unexpectedInChoices c choices

/-- The error, wherever it is. -/
def Error.unplaced : Error → Error
  | .unclosedAngle _ => .unclosedAngle 0
  | .unclosedSquare _ => .unclosedSquare 0
  | .unclosedParen _ => .unclosedParen 0
  | .emptyAlternative => .emptyAlternative
  | .invalid fault => .invalid fault.unplaced

end Notation

/-- The error, wherever it is. -/
def Scheme.Error.unplaced : Scheme.Error → Scheme.Error
  | .missingKeywordName => .missingKeywordName
  | .missingVariableName => .missingVariableName
  | .unsupportedType name => .unsupportedType name
  | .malformed cause => .malformed cause.unplaced

namespace Notation

/-- The lexeme, wherever it stands. -/
def Token.unplaced : Token → Token
  | .word w => .word w
  | .quoted w => .quoted w
  | .placeholder content _ => .placeholder content 0
  | .openSquare _ => .openSquare 0
  | .closeSquare _ => .closeSquare 0
  | .openParen _ => .openParen 0
  | .closeParen _ => .closeParen 0
  | .bar _ => .bar 0

/-- The lexeme being read, wherever it begins. -/
def Pending.unplaced : Pending → Pending
  | .nothing => .nothing
  | .word acc => .word acc
  | .quoted q _ acc => .quoted q 0 acc
  | .placeholder quote _ acc => .placeholder quote 0 acc

/-- The state without its positions. -/
def Scan.unplaced (s : Scan) : Scan := ⟨0, s.done.map Token.unplaced, s.pending.unplaced⟩

/-- The open group, wherever it was opened. -/
def Opened.unplaced : Opened → Opened
  | .optional _ => .optional 0
  | .union _ branches => .union 0 branches

/-- The open groups, wherever they were opened. -/
def unplacedGroups (outer : List (Opened × Scheme Unit)) : List (Opened × Scheme Unit) :=
  outer.map fun group => (group.1.unplaced, group.2)

/-- The reading without its positions. -/
def Reading.unplaced (r : Reading) : Reading := ⟨r.items, unplacedGroups r.outer⟩

section

variable {ε α β : Type}

/-- A result of which `e` and `g` keep what matters. -/
def kept (e : ε → ε) (g : β → β) (x : Except ε β) : Except ε β := (x.map g).mapError e

variable {e : ε → ε} {g : β → β}

@[simp] theorem kept_ok (b : β) : kept e g (.ok b) = .ok (g b) := rfl

@[simp] theorem kept_error (err : ε) : kept e g (.error err) = .error (e err) := rfl

theorem kept_ite (p : Prop) [Decidable p] (x y : Except ε β) :
    kept e g (if p then x else y) = if p then kept e g x else kept e g y := apply_ite _ _ _ _

/-- Results of which the same is kept are both there or both refused. -/
theorem kept_cases {x y : Except ε β} (h : kept e g x = kept e g y) :
    (∃ a b, x = .ok a ∧ y = .ok b ∧ g a = g b) ∨
      ∃ a b, x = .error a ∧ y = .error b ∧ e a = e b := by
  cases x with
  | error a =>
      cases y with
      | error b => exact .inr ⟨a, b, rfl, rfl, Except.error.inj h⟩
      | ok b => cases h
  | ok a =>
      cases y with
      | error b => cases h
      | ok b => exact .inl ⟨a, b, rfl, rfl, Except.ok.inj h⟩

/-- What follows a result needs no more of it than what matters. -/
theorem kept_bind {γ : Type} {g' : γ → γ} {x y : Except ε β} {f f' : β → Except ε γ}
    (h : kept e g x = kept e g y)
    (hf : ∀ a b, g a = g b → kept e g' (f a) = kept e g' (f' b)) :
    kept e g' (x >>= f) = kept e g' (y >>= f') := by
  rcases kept_cases h with ⟨a, b, rfl, rfl, hab⟩ | ⟨a, b, rfl, rfl, hab⟩
  · exact hf a b hab
  · exact congrArg Except.error hab

/-- **What a step drops does not matter to a fold**, neither in the states nor in what is read. -/
theorem foldlM_kept {f : β → α → Except ε β} {k : α → α}
    (hstep : ∀ b a, kept e g (f (g b) (k a)) = kept e g (f b a)) {l l' : List α}
    (hl : l.map k = l'.map k) {b b' : β} (hb : g b = g b') :
    kept e g (l.foldlM f b) = kept e g (l'.foldlM f b') := by
  induction l generalizing l' b b' with
  | nil =>
      rw [List.map_nil, eq_comm, List.map_eq_nil_iff] at hl
      subst hl
      exact congrArg Except.ok hb
  | cons a l ih =>
      cases l' with
      | nil => cases hl
      | cons a' l' =>
          obtain ⟨ha, hl⟩ := List.cons.inj hl
          have hnext : kept e g (f b a) = kept e g (f b' a') := by
            rw [← hstep b a, ← hstep b' a', hb, ha]
          rw [List.foldlM_cons, List.foldlM_cons]
          exact kept_bind hnext fun next next' => ih hl

end

/-! ### Lexemes -/

theorem map_unplaced_unplaced (ts : List Token) :
    (ts.map Token.unplaced).map Token.unplaced = ts.map Token.unplaced := by
  rw [List.map_map]
  refine List.map_congr_left fun t _ => ?_
  cases t <;> rfl

/-- Lexemes that are finished do not matter to what begins. -/
theorem begin_eq_map (pos : Nat) (c : Char) (done : List Token) :
    begin pos c done = (begin pos c []).map fun next => (next.1 ++ done, next.2) := by
  simp only [begin,
    apply_ite (Except.map fun next : List Token × Pending => (next.1 ++ done, next.2))]
  rfl

/-- What begins at a character does not depend on where it stands. -/
theorem begin_unplaced (pos : Nat) (c : Char) :
    kept Error.unplaced (fun next => (next.1.map Token.unplaced, next.2.unplaced)) (begin 0 c [])
      = kept Error.unplaced (fun next => (next.1.map Token.unplaced, next.2.unplaced))
        (begin pos c []) := by
  simp only [begin, kept_ite]
  rfl

namespace Scan

theorem step_nothing_unplaced (pos : Nat) (done : List Token) (c : Char) :
    kept Error.unplaced unplaced (step ⟨0, done.map Token.unplaced, .nothing⟩ c)
      = kept Error.unplaced unplaced (step ⟨pos, done, .nothing⟩ c) := by
  have hstep : ∀ (pos : Nat) (done : List Token), step ⟨pos, done, .nothing⟩ c
      = begin pos c [] >>= fun next => .ok ⟨pos + c.utf8Size, next.1 ++ done, next.2⟩ := by
    intro pos done
    rw [step_nothing, begin_eq_map]
    cases begin pos c [] <;> rfl
  rw [hstep, hstep pos]
  refine kept_bind (begin_unplaced pos c) fun next next' hnext => ?_
  obtain ⟨hdone, hpending⟩ := Prod.mk.inj hnext
  show Except.ok (Scan.mk 0 ((next.1 ++ done.map Token.unplaced).map Token.unplaced)
    next.2.unplaced) = .ok ⟨0, (next'.1 ++ done).map Token.unplaced, next'.2.unplaced⟩
  rw [List.map_append, List.map_append, map_unplaced_unplaced, hdone, hpending]

/-- **A character does the same wherever it stands.** -/
theorem step_unplaced (s : Scan) (c : Char) :
    kept Error.unplaced unplaced (s.unplaced.step c) = kept Error.unplaced unplaced (s.step c) := by
  obtain ⟨pos, done, pending⟩ := s
  have hdone := map_unplaced_unplaced done
  cases pending with
  | nothing => exact step_nothing_unplaced pos done c
  | word acc =>
      simp only [unplaced, Pending.unplaced]
      cases hc : endsWord c with
      | true =>
          rw [step_word_end hc, step_word_end hc]
          exact step_nothing_unplaced pos (.word acc.reverse :: done) c
      | false =>
          rw [step_word hc, step_word hc]
          simp [unplaced, Pending.unplaced, hdone]
  | quoted q start acc =>
      simp only [unplaced, Pending.unplaced]
      by_cases hc : c = q
      · subst hc
        rw [step_quoted_end, step_quoted_end]
        simp [unplaced, Token.unplaced, Pending.unplaced, hdone]
      · rw [step_quoted hc, step_quoted hc]
        simp [unplaced, Pending.unplaced, hdone]
  | placeholder quote start acc =>
      simp only [unplaced, Pending.unplaced]
      cases quote with
      | some q =>
          rw [step_placeholder_quoted, step_placeholder_quoted]
          simp [unplaced, Pending.unplaced, hdone]
      | none =>
          by_cases hend : c = '>'
          · subst hend
            rw [step_placeholder_end, step_placeholder_end]
            simp [unplaced, Token.unplaced, Pending.unplaced, hdone]
          · cases hquote : isQuote c with
            | true =>
                rw [step_placeholder_quote hquote, step_placeholder_quote hquote]
                simp [unplaced, Pending.unplaced, hdone]
            | false =>
                cases hblank : Text.isBlank c with
                | true =>
                    rw [step_placeholder_blank hblank, step_placeholder_blank hblank]
                    simp [unplaced, Pending.unplaced, hdone]
                | false =>
                    rw [step_placeholder hend hquote hblank, step_placeholder hend hquote hblank]
                    simp [unplaced, Pending.unplaced, hdone]

/-! ## States and what was read -/

end Scan

/-- What is open while a lexeme is read. -/
def Pending.place : Pending → Place
  | .nothing => .outside
  | .word _ => .outside
  | .quoted q _ _ => ⟨some q, false⟩
  | .placeholder quote _ _ => ⟨quote, true⟩

/-- The characters that were read leave open what the state has open, and a bare word that is being
read goes up to their end. -/
structure Scan.Behind (before : List Char) (s : Scan) : Prop where
  place : Place.behind before = s.pending.place
  word : ∀ acc, s.pending = .word acc → ∃ c ∈ before.getLast?, endsWord c = false

theorem Scan.start_behind : Scan.start.Behind [] where
  place := rfl
  word acc h := by cases h

theorem Place.after_outside {c : Char} (hquote : isQuote c = false) (hangle : c ≠ '<') :
    outside.after c = outside := by
  simp [after, outside, hquote, hangle]

theorem Place.after_outside_of_word {c : Char} (h : endsWord c = false) :
    outside.after c = outside := by
  simp only [endsWord, Bool.or_eq_false_iff, beq_eq_false_iff_ne] at h
  apply after_outside
  · exact h.1.1.1.1.1.1.1.2
  · exact h.1.2

/-- What begins at a character is open behind it, and no bare word begins at a character that would
end one. -/
theorem begin_place {pos : Nat} {c : Char} {done : List Token} {next : List Token × Pending}
    (h : begin pos c done = .ok next) :
    Place.outside.after c = next.2.place ∧ ∀ acc, next.2 = .word acc → endsWord c = false := by
  have hbegins := begins pos c done
  rw [h] at hbegins
  cases hbegins with
  | blank hblank =>
      refine ⟨Place.after_outside ?_ ?_, fun acc hacc => by cases hacc⟩
      · cases hquote : isQuote c with
        | false => rfl
        | true => rw [← hblank, Scan.isBlank_of_isQuote hquote]
      · rintro rfl
        exact absurd hblank (by decide)
  | quote hquote =>
      refine ⟨?_, fun acc hacc => by cases hacc⟩
      simp [Place.after, Place.outside, Pending.place, hquote]
  | angle hc =>
      subst hc
      exact ⟨rfl, fun acc hacc => by cases hacc⟩
  | @mark t ht hc =>
      refine ⟨Place.after_outside ?_ hc, fun acc hacc => by cases hacc⟩
      cases t <;> cases ht <;> rfl
  | word hword => exact ⟨Place.after_outside_of_word hword, fun _ _ => hword⟩

/-- **A character keeps the state behind what was read.** -/
theorem Scan.Behind.step {before : List Char} {s s' : Scan} {c : Char} (hs : s.Behind before)
    (h : s.step c = .ok s') : s'.Behind (before ++ [c]) := by
  have hplace := hs.place
  have hlast : c ∈ (before ++ [c]).getLast? := by simp
  cases moves_of_step h with
  | begins hb =>
      obtain ⟨hafter, hword⟩ := begin_place hb
      constructor
      · rw [Place.behind_concat, hplace]
        exact hafter
      · exact fun acc hacc => ⟨c, hlast, hword acc hacc⟩
  | wordEnd hend hb =>
      obtain ⟨hafter, hword⟩ := begin_place hb
      constructor
      · rw [Place.behind_concat, hplace]
        exact hafter
      · exact fun acc hacc => ⟨c, hlast, hword acc hacc⟩
  | word hc =>
      constructor
      · rw [Place.behind_concat, hplace]
        exact Place.after_outside_of_word hc
      · exact fun acc _ => ⟨c, hlast, hc⟩
  | quotedEnd =>
      refine ⟨?_, fun acc hacc => by cases hacc⟩
      rw [Place.behind_concat, hplace]
      simp [Place.after, Place.outside, Pending.place]
  | quoted hc =>
      refine ⟨?_, fun acc hacc => by cases hacc⟩
      rw [Place.behind_concat, hplace]
      simp [Place.after, Pending.place, hc]
  | angleQuoted =>
      refine ⟨?_, fun acc hacc => by cases hacc⟩
      rw [Place.behind_concat, hplace]
      rfl
  | angleEnd =>
      refine ⟨?_, fun acc hacc => by cases hacc⟩
      rw [Place.behind_concat, hplace]
      rfl
  | angle hc =>
      refine ⟨?_, fun acc hacc => by cases hacc⟩
      rw [Place.behind_concat, hplace]
      cases hquote : isQuote c <;> simp [Place.after, Pending.place, hquote, hc]

theorem Scan.behind_of_run {cs : List Char} {s : Scan}
    (h : cs.foldlM Scan.step Scan.start = .ok s) : s.Behind cs :=
  foldlM_induction (P := Scan.Behind) (fun hs h => hs.step h) Scan.start_behind h

/-! ## One blank -/

/-- The lexemes of a text whose end is still to be read. -/
def Scan.rest (s : Scan) (cs : List Char) : Except Error (List Token) := do
  (← cs.foldlM Scan.step s).finish

theorem tokenChars_append (u v : List Char) :
    tokenChars (u ++ v) = u.foldlM Scan.step Scan.start >>= fun s => s.rest v := by
  simp [tokenChars, Scan.rest, List.foldlM_append]

namespace Scan

variable {s s' : Scan} {cs : List Char}

theorem rest_cons {c : Char} (h : s.step c = .ok s') (cs : List Char) :
    s.rest (c :: cs) = s'.rest cs := by
  unfold rest
  rw [List.foldlM_cons, h]
  rfl

theorem finish_unplaced (s : Scan) :
    kept Error.unplaced (List.map Token.unplaced) s.unplaced.finish
      = kept Error.unplaced (List.map Token.unplaced) s.finish := by
  obtain ⟨pos, done, pending⟩ := s
  have hdone := map_unplaced_unplaced done
  cases pending with
  | nothing => simp [finish, unplaced, Pending.unplaced, hdone]
  | word acc => simp [finish, unplaced, Pending.unplaced, Token.unplaced, hdone]
  | quoted q start acc => rfl
  | placeholder quote start acc => rfl

/-- **States that differ in positions give lexemes that differ in positions.** -/
theorem rest_congr (h : s.unplaced = s'.unplaced) (cs : List Char) :
    kept Error.unplaced (List.map Token.unplaced) (s.rest cs)
      = kept Error.unplaced (List.map Token.unplaced) (s'.rest cs) := by
  have hfold : kept Error.unplaced unplaced (cs.foldlM step s)
      = kept Error.unplaced unplaced (cs.foldlM step s') :=
    foldlM_kept (k := id) step_unplaced rfl h
  refine kept_bind hfold fun last last' hlast => ?_
  rw [← finish_unplaced last, ← finish_unplaced last', hlast]

/-- A bare word may as well end in front of what does not go on with it. -/
theorem rest_settled (h : ∀ c ∈ cs.head?, endsWord c = true) : s.settled.rest cs = s.rest cs := by
  cases cs with
  | nil => exact finish_settled s
  | cons c cs =>
      unfold rest
      rw [List.foldlM_cons, List.foldlM_cons, step_settled s (h c rfl)]

theorem settled_of_not_word (h : ∀ acc, s.pending ≠ .word acc) : s.settled = s := by
  obtain ⟨pos, done, pending⟩ := s
  cases pending with
  | word acc => exact absurd rfl (h acc)
  | nothing => rfl
  | quoted q start acc => rfl
  | placeholder quote start acc => rfl

/-- A quote that is never closed is what is wrong at the end. -/
theorem rest_of_quote {q : Char} (h : s.pending.place.quote = some q) (hcs : q ∉ cs) :
    s.rest cs = s.finish := by
  induction cs generalizing s with
  | nil => rfl
  | cons c cs ih =>
      rw [List.mem_cons, not_or] at hcs
      obtain ⟨pos, done, pending⟩ := s
      cases pending with
      | nothing => cases h
      | word acc => cases h
      | quoted q' start acc =>
          cases h
          rw [rest_cons (step_quoted (Ne.symm hcs.1))]
          exact ih rfl hcs.2
      | placeholder quote start acc =>
          cases h
          rw [rest_cons step_placeholder_quoted, if_neg (Ne.symm hcs.1)]
          exact ih rfl hcs.2

theorem step_nothing_blank {pos : Nat} {done : List Token} {b : Char}
    (hb : Text.isBlank b = true) :
    step ⟨pos, done, .nothing⟩ b = .ok ⟨pos + b.utf8Size, done, .nothing⟩ := by
  rw [step_nothing, begin, if_pos hb]
  rfl

/-- **Outside quotes a blank ends the bare word in front of it, and does nothing else.** -/
theorem step_blank {b : Char} (hb : Text.isBlank b = true) (h : s.pending.place.quote = none) :
    ∃ s', s.step b = .ok s' ∧ s'.unplaced = s.settled.unplaced := by
  obtain ⟨pos, done, pending⟩ := s
  cases pending with
  | nothing => exact ⟨_, step_nothing_blank hb, rfl⟩
  | word acc =>
      rw [step_word_end (endsWord_of_isBlank hb)]
      exact ⟨_, step_nothing_blank hb, rfl⟩
  | quoted q start acc => cases h
  | placeholder quote start acc =>
      cases h
      exact ⟨_, step_placeholder_blank hb, rfl⟩

/-- A blank between texts that are loose changes positions only. -/
theorem rest_blank {before : List Char} (hs : s.Behind before) {b : Char}
    (hb : Text.isBlank b = true) (hloose : Loose before cs) :
    kept Error.unplaced (List.map Token.unplaced) (s.rest (b :: cs))
      = kept Error.unplaced (List.map Token.unplaced) (s.rest cs) := by
  cases hquote : s.pending.place.quote with
  | some q =>
      have hopen : (Place.behind before).quote = some q := by rw [hs.place, hquote]
      have hcs : q ∉ cs := hloose.unquoted q hopen
      have hbcs : q ∉ b :: cs := by
        rw [List.mem_cons, not_or]
        refine ⟨?_, hcs⟩
        rintro rfl
        rw [isBlank_of_isQuote (Place.isQuote_behind hopen)] at hb
        cases hb
      rw [rest_of_quote hquote hcs, rest_of_quote hquote hbcs]
  | none =>
      obtain ⟨s', hstep, hs'⟩ := step_blank hb hquote
      rw [rest_cons hstep, rest_congr hs']
      -- Where a bare word is being read, it does not go on.
      by_cases hword : ∃ acc, s.pending = .word acc
      · obtain ⟨acc, hacc⟩ := hword
        obtain ⟨c, hc, hplain⟩ := hs.word acc hacc
        have hout : Place.behind before = .outside := by rw [hs.place, hacc]; rfl
        have hhead : ∀ c ∈ cs.head?, endsWord c = true := by
          refine (hloose.apart hout).resolve_left fun hlast => ?_
          rw [hlast c hc] at hplain
          cases hplain
        rw [rest_settled hhead]
      · rw [settled_of_not_word fun acc hacc => hword ⟨acc, hacc⟩]

end Scan

theorem tokenChars_blank {before cs : List Char} {b : Char} (hb : Text.isBlank b = true)
    (hloose : Loose before cs) :
    kept Error.unplaced (List.map Token.unplaced) (tokenChars (before ++ b :: cs))
      = kept Error.unplaced (List.map Token.unplaced) (tokenChars (before ++ cs)) := by
  rw [tokenChars_append, tokenChars_append]
  cases hs : before.foldlM Scan.step Scan.start with
  | error e => rfl
  | ok s => exact Scan.rest_blank (Scan.behind_of_run hs) hb hloose

/-- **Blanks that are put in change positions only.** -/
theorem Spread.tokenChars {before cs cs' : List Char} (h : Spread before cs cs') :
    kept Error.unplaced (List.map Token.unplaced) (tokenChars (before ++ cs'))
      = kept Error.unplaced (List.map Token.unplaced) (tokenChars (before ++ cs)) := by
  induction h with
  | nil => rfl
  | char c h ih => simpa using ih
  | blank hb hloose h ih => rw [tokenChars_blank hb (h.loose hloose), ih]

/-! ## Lexemes without positions -/

@[simp] theorem unplacedGroups_cons (opened : Opened) (around : Scheme Unit)
    (outer : List (Opened × Scheme Unit)) :
    unplacedGroups ((opened, around) :: outer) = (opened.unplaced, around) :: unplacedGroups outer :=
  rfl

@[simp] theorem unplacedGroups_unplacedGroups (outer : List (Opened × Scheme Unit)) :
    unplacedGroups (unplacedGroups outer) = unplacedGroups outer := by
  unfold unplacedGroups
  rw [List.map_map]
  refine List.map_congr_left fun group _ => ?_
  obtain ⟨opened, around⟩ := group
  cases opened <;> rfl

namespace Reading

/-- A segment is added wherever the open groups were opened. -/
theorem add_unplaced (r : Reading) (x : Segment Unit) :
    (r.unplaced.add x).unplaced = (r.add x).unplaced := by
  simp [add, unplaced]

/-- **A lexeme does the same wherever it stands**, and wherever the open groups were opened. -/
theorem step_unplaced (r : Reading) (t : Token) :
    kept Scheme.Error.unplaced unplaced (r.unplaced.step t.unplaced)
      = kept Scheme.Error.unplaced unplaced (r.step t) := by
  have hkeyword : ∀ w : List Char, kept Scheme.Error.unplaced unplaced (r.unplaced.step (.word w))
      = kept Scheme.Error.unplaced unplaced (r.step (.word w)) := by
    intro w
    simp only [step]
    cases Keyword.named () (String.ofList w) with
    | none => rfl
    | some k => exact congrArg Except.ok (r.add_unplaced (.keyword k))
  cases t with
  | word w => exact hkeyword w
  | quoted w => exact hkeyword w
  | placeholder content pos =>
      simp only [Token.unplaced, step]
      cases readVariable content with
      | error e => rfl
      | ok v => exact congrArg Except.ok (r.add_unplaced (.var v))
  | openSquare pos => simp [step, unplaced, Token.unplaced, Opened.unplaced]
  | openParen pos => simp [step, unplaced, Token.unplaced, Opened.unplaced]
  | closeSquare pos =>
      obtain ⟨items, _ | ⟨⟨start | ⟨start, branches⟩, around⟩, outer⟩⟩ := r
      · rfl
      · cases items with
        | nil => rfl
        | cons x items => simp [step, unplaced, Token.unplaced, Opened.unplaced]
      · cases items <;> rfl
  | closeParen pos | bar pos =>
      obtain ⟨items, _ | ⟨⟨start | ⟨start, branches⟩, around⟩, outer⟩⟩ := r
      · rfl
      · rfl
      · cases items <;> simp [step, unplaced, Token.unplaced, Opened.unplaced]

theorem finish_unplaced (r : Reading) :
    kept Scheme.Error.unplaced id r.unplaced.finish
      = kept Scheme.Error.unplaced id r.finish := by
  match r with
  | ⟨items, []⟩ => rfl
  | ⟨items, (.optional start, around) :: outer⟩ => rfl
  | ⟨[], (.union start branches, around) :: outer⟩ => rfl
  | ⟨x :: items, (.union start branches, around) :: outer⟩ => rfl

end Reading

/-- **Lexemes that differ in positions are read as the same scheme**, or refused for the same
reason. -/
theorem ofTokens_congr {ts ts' : List Token}
    (h : ts.map Token.unplaced = ts'.map Token.unplaced) :
    kept Scheme.Error.unplaced id (ofTokens ts) = kept Scheme.Error.unplaced id (ofTokens ts') := by
  have hfold : kept Scheme.Error.unplaced Reading.unplaced (ts.foldlM Reading.step .start)
      = kept Scheme.Error.unplaced Reading.unplaced (ts'.foldlM Reading.step .start) :=
    foldlM_kept Reading.step_unplaced h rfl
  refine kept_bind hfold fun last last' hlast => ?_
  rw [← last.finish_unplaced, ← last'.finish_unplaced, hlast]

/-! ## Texts with blanks put in -/

/-- **Layout does not matter.** If blanks are put into a text where they stand in no quoted text and
in no bare word, it is read as the same scheme, or else refused for the same reason, which differs
in its position only. -/
theorem parse_spread {source source' : String} (h : Spread [] source.toList source'.toList) :
    (∃ scheme, parse source = .ok scheme ∧ parse source' = .ok scheme) ∨
      ∃ e e', parse source = .error e ∧ parse source' = .error e' ∧ e.unplaced = e'.unplaced := by
  have hlexemes : kept Error.unplaced (List.map Token.unplaced) (tokens source')
      = kept Error.unplaced (List.map Token.unplaced) (tokens source) := h.tokenChars
  rcases kept_cases hlexemes with ⟨ts', ts, hts', hts, hsame⟩ | ⟨e', e, hts', hts, hsame⟩
  · have hparse : ∀ {source : String} {ts : List Token}, tokens source = .ok ts →
        parse source = ofTokens ts := by
      intro source ts h
      rw [parse, h]
    rw [hparse hts, hparse hts']
    rcases kept_cases (ofTokens_congr hsame) with
      ⟨scheme', scheme, hs', hs, heq⟩ | ⟨e', e, hs', hs, heq⟩
    · exact .inl ⟨scheme, hs, hs'.trans (congrArg Except.ok heq)⟩
    · exact .inr ⟨e, e', hs, hs', heq.symm⟩
  · refine .inr ⟨.malformed e, .malformed e', by rw [parse, hts], by rw [parse, hts'], ?_⟩
    show Scheme.Error.malformed e.unplaced = .malformed e'.unplaced
    rw [hsame]

/-- Blanks in a declaration, even in its dots, and none between its quotes: both texts declare a
rest variable `ab` with one choice. -/
theorem parse_spread_rest :
    let scheme : Scheme Unit :=
      [.var ⟨(), "ab", none, ["c d"], none, true, none, none⟩, .keyword ⟨(), "e", none⟩]
    Spread [] "<ab:'c d'...>e".toList " <a b :'c d'.. .>\ne".toList ∧
      parse "<ab:'c d'...>e" = .ok scheme ∧ parse " <a b :'c d'.. .>\ne" = .ok scheme := by
  intro scheme
  have hspread : Spread [] "<ab:'c d'...>e".toList " <a b :'c d'.. .>\ne".toList := by
    have hsource : "<ab:'c d'...>e".toList
        = ['<', 'a', 'b', ':', '\'', 'c', ' ', 'd', '\'', '.', '.', '.', '>', 'e'] := by cbv
    have htarget : " <a b :'c d'.. .>\ne".toList = [' ', '<', 'a', ' ', 'b', ' ', ':', '\'', 'c',
        ' ', 'd', '\'', '.', '.', ' ', '.', '>', '\n', 'e'] := by cbv
    rw [hsource, htarget]
    have hspace : Text.isBlank ' ' = true := by decide
    have hbreak : Text.isBlank '\n' = true := by decide
    -- One blank in front, two in the name, one in the dots, and one behind the bracket.
    apply Spread.blank hspace (loose_outside rfl (by simp) _)
    apply Spread.char '<'
    apply Spread.char 'a'
    apply Spread.blank hspace (loose_inside rfl _)
    apply Spread.char 'b'
    apply Spread.blank hspace (loose_inside rfl _)
    apply Spread.char ':'
    apply Spread.char '\''
    apply Spread.char 'c'
    apply Spread.char ' '
    apply Spread.char 'd'
    apply Spread.char '\''
    apply Spread.char '.'
    apply Spread.char '.'
    apply Spread.blank hspace (loose_inside rfl _)
    apply Spread.char '.'
    apply Spread.char '>'
    apply Spread.blank hbreak (loose_outside rfl (by simp; decide) _)
    apply Spread.char 'e'
    exact Spread.nil
  have hparse : parse "<ab:'c d'...>e" = .ok scheme := rfl
  rcases parse_spread hspread with ⟨scheme', hs, hs'⟩ | ⟨e, e', he, -, -⟩
  · rw [Except.ok.inj (hs.symm.trans hparse)] at hs'
    exact ⟨hspread, hparse, hs'⟩
  · exact absurd (he.symm.trans hparse) (by simp)

end Notation
end CommandGrammar
