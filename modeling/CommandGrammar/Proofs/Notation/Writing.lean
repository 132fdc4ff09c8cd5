import CommandGrammar.Proofs.Notation.Reading

/-!
# `Proofs.Notation.Writing` — texts that write schemes

A text *writes* a scheme if its lexemes have a derivation of the scheme, wherever the text stands
(`Writes`). Such texts are built up piece by piece: there is one lemma for each kind of phrase.

A piece may leave a bare word open, which is finished by whatever follows; so pieces are compared
with the lexer settled (`Scan.Lexes`), and a piece may follow another one if it begins with a
character that ends a word (`Bounded`). Inside angle brackets blanks are dropped and quoted text is
kept (`Gathers`).

## Contents
- `Scan.Lexes.append`, `Scan.Lexes.mark`: pieces one after the other.
- `Gathers`: what is kept of a text in angle brackets; `Gathers.restriction`.
- `Writes`: `Writes.append`, `Writes.word`, `Writes.placeholder`, `Writes.optional`, `Writes.union`.
- `Writes.parse`: a text that writes a scheme is read as that scheme.
-/

namespace CommandGrammar
namespace Notation

/-! ## Pieces of text -/

/-- The state as if the bare word being read ended here. -/
def Scan.settled (s : Scan) : Scan :=
  match s.pending with
  | .word acc => ⟨s.pos, .word acc.reverse :: s.done, .nothing⟩
  | _ => s

/-- Reading the characters leads from a state to another one, if the word being read then ends. -/
def Scan.Lexes (s : Scan) (cs : List Char) (s' : Scan) : Prop :=
  ∃ last, cs.foldlM Scan.step s = .ok last ∧ last.settled = s'

/-- The characters do not go on with a word in front of them. -/
def Bounded (cs : List Char) : Prop := ∀ c ∈ cs.head?, endsWord c = true

theorem Scan.step_settled (s : Scan) {c : Char} (h : endsWord c = true) :
    s.settled.step c = s.step c := by
  obtain ⟨pos, done, pending⟩ := s
  cases pending with
  | word acc => exact (step_word_end h).symm
  | nothing => rfl
  | quoted q start acc => rfl
  | placeholder quote start acc => rfl

theorem Scan.settled_settled (s : Scan) : s.settled.settled = s.settled := by
  obtain ⟨pos, done, pending⟩ := s
  cases pending <;> rfl

/-- **Pieces of text are read one after the other.** -/
theorem Scan.Lexes.append {s s' s'' : Scan} {u v : List Char} (hu : s.Lexes u s')
    (hv : s'.Lexes v s'') (hbounded : Bounded v) : s.Lexes (u ++ v) s'' := by
  obtain ⟨mid, hmid, rfl⟩ := hu
  obtain ⟨last, hlast, rfl⟩ := hv
  have happend : (u ++ v).foldlM Scan.step s = v.foldlM Scan.step mid := by
    rw [List.foldlM_append, hmid]
    rfl
  cases v with
  | nil =>
      injection hlast with hlast
      exact ⟨mid, happend, by rw [← hlast, settled_settled]⟩
  | cons c v =>
      -- The second piece ends a word that the first one leaves open.
      refine ⟨last, ?_, rfl⟩
      rw [happend, ← hlast, List.foldlM_cons, List.foldlM_cons,
        mid.step_settled (hbounded c (by simp))]

/-- A mark or a blank between lexemes is read, and then what follows it. -/
theorem Scan.Lexes.mark {pos : Nat} {c : Char} {done done' : List Token} {cs : List Char}
    {s : Scan} (h : begin pos c done = .ok (done', .nothing))
    (hcs : Scan.Lexes ⟨pos + c.utf8Size, done', .nothing⟩ cs s) :
    Scan.Lexes ⟨pos, done, .nothing⟩ (c :: cs) s := by
  obtain ⟨last, hlast, hs⟩ := hcs
  refine ⟨last, ?_, hs⟩
  rw [List.foldlM_cons, step_nothing, h]
  exact hlast

theorem Scan.lexes_nil (pos : Nat) (done : List Token) :
    Scan.Lexes ⟨pos, done, .nothing⟩ [] ⟨pos, done, .nothing⟩ := ⟨_, rfl, rfl⟩

theorem begin_word {c : Char} (h : endsWord c = false) (pos : Nat) (done : List Token) :
    begin pos c done = .ok (done, .word [c]) := by
  simp only [endsWord, Bool.or_eq_false_iff, beq_eq_false_iff_ne] at h
  simp [begin, h]

theorem foldlM_word {cs : List Char} (h : ∀ c ∈ cs, endsWord c = false) (pos : Nat)
    (done : List Token) (acc : List Char) : ∃ stop,
      cs.foldlM Scan.step ⟨pos, done, .word acc⟩ = .ok ⟨stop, done, .word (cs.reverse ++ acc)⟩ := by
  induction cs generalizing pos acc with
  | nil => exact ⟨pos, rfl⟩
  | cons c cs ih =>
      obtain ⟨stop, hstop⟩ := ih (fun d hd => h d (by simp [hd])) (pos + c.utf8Size) (c :: acc)
      refine ⟨stop, ?_⟩
      rw [List.foldlM_cons, Scan.step_word (h c (by simp)), List.reverse_cons, List.append_assoc]
      exact hstop

/-- A bare word is read up to whatever ends it. -/
theorem lexes_word {w : List Char} (hne : w ≠ []) (h : ∀ c ∈ w, endsWord c = false) (pos : Nat)
    (done : List Token) :
    ∃ stop, Scan.Lexes ⟨pos, done, .nothing⟩ w ⟨stop, .word w :: done, .nothing⟩ := by
  cases w with
  | nil => exact absurd rfl hne
  | cons c cs =>
      have hcs : ∀ d ∈ cs, endsWord d = false := fun d hd => h d (by simp [hd])
      obtain ⟨stop, hstop⟩ := foldlM_word hcs (pos + c.utf8Size) done [c]
      refine ⟨stop, ⟨stop, done, .word (cs.reverse ++ [c])⟩, ?_, ?_⟩
      · rw [List.foldlM_cons, Scan.step_nothing, begin_word (h c (by simp))]
        exact hstop
      · simp [Scan.settled]

/-! ### Inside angle brackets -/

/-- Inside angle brackets, and outside quotes, the characters are read and these are kept. -/
def Gathers (cs kept : List Char) : Prop :=
  ∀ (pos : Nat) (done : List Token) (start : Nat) (acc : List Char), ∃ stop,
    cs.foldlM Scan.step ⟨pos, done, .placeholder none start acc⟩
      = .ok ⟨stop, done, .placeholder none start (kept.reverse ++ acc)⟩

theorem Gathers.nil : Gathers [] [] := fun pos _ _ _ => ⟨pos, rfl⟩

theorem Gathers.append {u v a b : List Char} (hu : Gathers u a) (hv : Gathers v b) :
    Gathers (u ++ v) (a ++ b) := by
  intro pos done start acc
  obtain ⟨mid, hmid⟩ := hu pos done start acc
  obtain ⟨stop, hstop⟩ := hv mid done start (a.reverse ++ acc)
  refine ⟨stop, ?_⟩
  rw [List.foldlM_append, hmid, List.reverse_append, List.append_assoc]
  exact hstop

/-- A space is dropped. -/
theorem Gathers.space : Gathers [' '] [] := by
  intro pos done start acc
  refine ⟨pos + ' '.utf8Size, ?_⟩
  rw [List.foldlM_cons, Scan.step_placeholder_blank (by decide)]
  rfl

/-- Inside angle brackets the character stands for itself: it is no blank, no quote and no closing
bracket. -/
def isBracketChar (c : Char) : Bool := !Text.isBlank c && !isQuote c && c != '>'

/-- What stands for itself is kept. -/
theorem Gathers.plain {cs : List Char} (h : cs.all isBracketChar = true) : Gathers cs cs := by
  induction cs with
  | nil => exact Gathers.nil
  | cons c cs ih =>
      rw [List.all_cons, Bool.and_eq_true] at h
      have hc : Gathers [c] [c] := by
        have hplain := h.1
        simp only [isBracketChar, Bool.and_eq_true, Bool.not_eq_true', bne_iff_ne] at hplain
        intro pos done start acc
        refine ⟨pos + c.utf8Size, ?_⟩
        rw [List.foldlM_cons, Scan.step_placeholder hplain.2 hplain.1.2 hplain.1.1]
        rfl
      exact hc.append (ih h.2)

theorem foldlM_placeholder_quoted {q : Char} {cs : List Char} (h : q ∉ cs) (pos : Nat)
    (done : List Token) (start : Nat) (acc : List Char) : ∃ stop,
      cs.foldlM Scan.step ⟨pos, done, .placeholder (some q) start acc⟩
        = .ok ⟨stop, done, .placeholder (some q) start (cs.reverse ++ acc)⟩ := by
  induction cs generalizing pos acc with
  | nil => exact ⟨pos, rfl⟩
  | cons c cs ih =>
      rw [List.mem_cons, not_or] at h
      obtain ⟨stop, hstop⟩ := ih h.2 (pos + c.utf8Size) (c :: acc)
      refine ⟨stop, ?_⟩
      rw [List.foldlM_cons, Scan.step_placeholder_quoted, if_neg (Ne.symm h.1), List.reverse_cons,
        List.append_assoc]
      exact hstop

/-- A choice is kept as it is, whatever stands between its quotes. -/
theorem Gathers.choice (c : Choice) : Gathers c.chars c.chars := by
  intro pos done start acc
  obtain ⟨mid, hmid⟩ := foldlM_placeholder_quoted c.quote_notMem (pos + c.quote.utf8Size) done start
    (c.quote :: acc)
  refine ⟨mid + c.quote.utf8Size, ?_⟩
  rw [Choice.chars, List.cons_append, List.foldlM_cons,
    Scan.step_placeholder_quote c.isQuote_quote]
  show (c.text ++ [c.quote]).foldlM Scan.step
    ⟨pos + c.quote.utf8Size, done, .placeholder (some c.quote) start (c.quote :: acc)⟩ = _
  rw [List.foldlM_append, hmid]
  show [c.quote].foldlM Scan.step
    ⟨mid, done, .placeholder (some c.quote) start (c.text.reverse ++ c.quote :: acc)⟩ = _
  rw [List.foldlM_cons, Scan.step_placeholder_quoted, if_pos rfl]
  simp [pure, Except.pure, bind, Except.bind]

theorem Gathers.choicesBehind (cs : List Choice) :
    Gathers (Choice.charsBehind cs) (Choice.charsBehind cs) := by
  induction cs with
  | nil => exact Gathers.nil
  | cons c cs ih =>
      have hbar : Gathers ['|'] ['|'] := Gathers.plain (by decide)
      exact hbar.append ((Gathers.choice c).append ih)

theorem Gathers.restriction (a : Restriction) : Gathers a.chars a.chars := by
  cases a with
  | type t => cases t <;> exact Gathers.plain (by decide)
  | choices first rest => exact (Gathers.choice first).append (Gathers.choicesBehind rest)

/-! ## Texts that write schemes -/

/-- The lexemes of the text have a derivation of the scheme, wherever the text stands. -/
def Writes (cs : List Char) (scheme : Scheme Unit) : Prop :=
  ∀ (pos : Nat) (done : List Token), ∃ ps stop,
    Scan.Lexes ⟨pos, done, .nothing⟩ cs ⟨stop, (Phrases.tokens ps).reverse ++ done, .nothing⟩ ∧
    Phrases.scheme ps = scheme

theorem Phrases.tokens_append (ps qs : List Phrase) :
    tokens (ps ++ qs) = tokens ps ++ tokens qs := by
  induction ps with
  | nil => rfl
  | cons p ps ih => simp [ih]

theorem Phrases.scheme_append (ps qs : List Phrase) :
    scheme (ps ++ qs) = scheme ps ++ scheme qs := by
  induction ps with
  | nil => rfl
  | cons p ps ih => simp [ih]

theorem Writes.nil : Writes [] [] := fun pos done => ⟨[], pos, Scan.lexes_nil pos done, rfl⟩

theorem Writes.append {u v : List Char} {a b : Scheme Unit} (hu : Writes u a) (hv : Writes v b)
    (hbounded : Bounded v) : Writes (u ++ v) (a ++ b) := by
  intro pos done
  obtain ⟨ps, mid, hmid, rfl⟩ := hu pos done
  obtain ⟨qs, stop, hstop, rfl⟩ := hv mid ((Phrases.tokens ps).reverse ++ done)
  refine ⟨ps ++ qs, stop, ?_, Phrases.scheme_append ps qs⟩
  rw [Phrases.tokens_append, List.reverse_append, List.append_assoc]
  exact hmid.append hstop hbounded

theorem Writes.space {cs : List Char} {scheme : Scheme Unit} (h : Writes cs scheme) :
    Writes (' ' :: cs) scheme := by
  intro pos done
  obtain ⟨ps, stop, hstop, hscheme⟩ := h (pos + ' '.utf8Size) done
  exact ⟨ps, stop, hstop.mark rfl, hscheme⟩

theorem Writes.word {w : List Char} (hne : w ≠ []) (h : ∀ c ∈ w, endsWord c = false) :
    Writes w [.keyword ⟨(), String.ofList w, none⟩] := by
  intro pos done
  obtain ⟨stop, hstop⟩ := lexes_word hne h pos done
  exact ⟨[.word w], stop, hstop, rfl⟩

theorem Writes.placeholder {cs : List Char} {d : Declaration} (h : Gathers cs d.chars) :
    Writes ('<' :: cs ++ ['>']) [.var d.declared] := by
  intro pos done
  obtain ⟨stop, hstop⟩ := h (pos + '<'.utf8Size) done pos []
  refine ⟨[.placeholder d pos], stop + '>'.utf8Size,
    ⟨⟨stop + '>'.utf8Size, .placeholder d.chars pos :: done, .nothing⟩, ?_, rfl⟩, rfl⟩
  have hopen : Scan.step ⟨pos, done, .nothing⟩ '<'
      = .ok ⟨pos + '<'.utf8Size, done, .placeholder none pos []⟩ := rfl
  rw [List.cons_append, List.foldlM_cons, hopen]
  show (cs ++ ['>']).foldlM Scan.step
    ⟨pos + '<'.utf8Size, done, .placeholder none pos []⟩ = _
  rw [List.foldlM_append, hstop]
  show ['>'].foldlM Scan.step ⟨stop, done, .placeholder none pos (d.chars.reverse ++ [])⟩ = _
  rw [List.foldlM_cons, Scan.step_placeholder_end]
  simp [pure, Except.pure, bind, Except.bind]

/-- Phrases that stand for something are a row behind any mark. -/
theorem Row.exists_of_phrases {ps : List Phrase} (h : Phrases.scheme ps ≠ []) (pos : Nat) :
    ∃ r : Row, r.pos = pos ∧ r.phrases = ps := by
  cases ps with
  | nil => exact absurd rfl h
  | cons first rest => exact ⟨.mk pos first rest, rfl, rfl⟩

theorem Writes.optional {cs : List Char} {inner : Scheme Unit} (hne : inner ≠ [])
    (h : Writes cs inner) : Writes ('[' :: cs ++ [']']) [.optional inner] := by
  intro pos done
  obtain ⟨ps, stop, hstop, rfl⟩ := h (pos + '['.utf8Size) (.openSquare pos :: done)
  obtain ⟨row, rfl, rfl⟩ := Row.exists_of_phrases hne pos
  have hclose : Scan.Lexes
      ⟨stop, (Phrases.tokens row.phrases).reverse ++ .openSquare row.pos :: done, .nothing⟩ [']']
      ⟨stop + ']'.utf8Size, .closeSquare stop ::
        ((Phrases.tokens row.phrases).reverse ++ .openSquare row.pos :: done), .nothing⟩ :=
    (Scan.lexes_nil _ _).mark rfl
  have hall : Scan.Lexes ⟨row.pos, done, .nothing⟩ ('[' :: (cs ++ [']'])) _ :=
    (hstop.append hclose (by simp [Bounded, endsWord])).mark rfl
  refine ⟨[.optional row stop], stop + ']'.utf8Size, ?_, by simp [Phrase.segment]⟩
  simpa [Phrase.tokens] using hall

/-- The lexemes of the text are rows behind bars that stand for the schemes. -/
def WritesRows (cs : List Char) (branches : List (Scheme Unit)) : Prop :=
  ∀ (pos : Nat) (done : List Token), ∃ rows stop,
    Scan.Lexes ⟨pos, done, .nothing⟩ cs ⟨stop, (Rows.tokens rows).reverse ++ done, .nothing⟩ ∧
    Rows.schemes rows = branches

theorem WritesRows.nil : WritesRows [] [] := fun pos done => ⟨[], pos, Scan.lexes_nil pos done, rfl⟩

theorem WritesRows.cons {u v : List Char} {b : Scheme Unit} {branches : List (Scheme Unit)}
    (hne : b ≠ []) (hb : Writes u b) (hv : WritesRows v branches) (hbounded : Bounded v) :
    WritesRows (' ' :: '|' :: ' ' :: u ++ v) (b :: branches) := by
  intro pos done
  obtain ⟨ps, mid, hmid, rfl⟩ := hb.space (pos + ' '.utf8Size + '|'.utf8Size)
    (.bar (pos + ' '.utf8Size) :: done)
  obtain ⟨row, hpos, rfl⟩ := Row.exists_of_phrases hne (pos + ' '.utf8Size)
  obtain ⟨rows, stop, hstop, rfl⟩ := hv mid
    ((Phrases.tokens row.phrases).reverse ++ .bar (pos + ' '.utf8Size) :: done)
  have hall : Scan.Lexes ⟨pos, done, .nothing⟩ (' ' :: '|' :: (' ' :: u ++ v)) _ :=
    ((hmid.append hstop hbounded).mark rfl).mark rfl
  refine ⟨row :: rows, stop, ?_, by simp⟩
  simpa [hpos] using hall

theorem Writes.union {u v : List Char} {first : Scheme Unit} {later : List (Scheme Unit)}
    (hne : first ≠ []) (hu : Writes u first) (hv : WritesRows v later) (hbounded : Bounded v) :
    Writes ('(' :: u ++ v ++ [')']) [.union (first :: later)] := by
  intro pos done
  obtain ⟨ps, mid, hmid, rfl⟩ := hu (pos + '('.utf8Size) (.openParen pos :: done)
  obtain ⟨row, rfl, rfl⟩ := Row.exists_of_phrases hne pos
  obtain ⟨rows, stop, hstop, rfl⟩ := hv mid
    ((Phrases.tokens row.phrases).reverse ++ .openParen row.pos :: done)
  have hclose : Scan.Lexes ⟨stop, (Rows.tokens rows).reverse ++
        ((Phrases.tokens row.phrases).reverse ++ .openParen row.pos :: done), .nothing⟩ [')']
      ⟨stop + ')'.utf8Size, .closeParen stop :: ((Rows.tokens rows).reverse ++
        ((Phrases.tokens row.phrases).reverse ++ .openParen row.pos :: done)), .nothing⟩ :=
    (Scan.lexes_nil _ _).mark rfl
  have hall : Scan.Lexes ⟨row.pos, done, .nothing⟩ ('(' :: (u ++ v ++ [')'])) _ :=
    ((hmid.append hstop hbounded).append hclose (by simp [Bounded, endsWord])).mark rfl
  refine ⟨[.union row rows stop], stop + ')'.utf8Size, ?_, by simp [Phrase.segment]⟩
  simpa [Phrase.tokens] using hall

/-! ## The end of a text -/

/-- At the end of a text a bare word ends. -/
theorem Scan.finish_settled (s : Scan) : s.settled.finish = s.finish := by
  obtain ⟨pos, done, pending⟩ := s
  cases pending <;> rfl

theorem Writes.parse {text : String} {scheme : Scheme Unit} (h : Writes text.toList scheme) :
    parse text = .ok scheme := by
  obtain ⟨ps, stop, ⟨last, hlast, hsettled⟩, hscheme⟩ := h 0 []
  refine parse_eq_ok_iff.mpr ⟨ps, ?_, hscheme⟩
  rw [tokens, tokenChars, Scan.start, hlast]
  show last.finish = _
  rw [← Scan.finish_settled, hsettled]
  simp [Scan.finish]

end Notation
end CommandGrammar
