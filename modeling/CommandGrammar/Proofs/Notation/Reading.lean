import CommandGrammar.Proofs.Notation.Placeholder

/-!
# `Proofs.Notation.Reading` — the reader accepts the grammar, and nothing else

The reader goes through the lexemes once, with the open groups on a stack. Reading the lexemes of
phrases adds the segments that they stand for, whatever is open around them (`Phrases.run_tokens`).
In the other direction, what the open groups still demand of the lexemes left is written down
(`Completes`); if the rest of a text meets it after a lexeme, the lexeme and the rest meet it before
(`Reading.Moves.completes`), and so every text that is read has a derivation.

No two derivations have the same lexemes: a phrase is known by its first lexeme, and a row of
phrases ends where a closing mark or a bar stands (`Phrases.tokens_injective`).

## Contents
- `Reading.run`, `Phrases.run_tokens`: derivations are read.
- `Reading.Moves`: all that a lexeme can do.
- `Completes`, `Reading.completes_of_run`: what is read is a derivation.
- `Phrases.tokens_injective`: derivations are unique.
- Reading a text and the grammar, put together.
-/

namespace CommandGrammar
namespace Notation

/-- Read lexemes, one after the other. -/
def Reading.run (r : Reading) (ts : List Token) : Except Scheme.Error Reading :=
  ts.foldlM Reading.step r

/-- Add finished segments to the sequence being read. -/
def Reading.addAll (r : Reading) (segments : Scheme Unit) : Reading :=
  { r with items := segments.reverse ++ r.items }

@[simp] theorem Reading.run_nil (r : Reading) : r.run [] = .ok r := rfl

theorem Reading.run_cons {r r' : Reading} {t : Token} (h : r.step t = .ok r') (ts : List Token) :
    r.run (t :: ts) = r'.run ts := by
  unfold run
  rw [List.foldlM_cons, h]
  rfl

@[simp] theorem Reading.addAll_nil (r : Reading) : r.addAll [] = r := rfl

theorem Reading.addAll_cons (r : Reading) (x : Segment Unit) (rest : Scheme Unit) :
    r.addAll (x :: rest) = (r.add x).addAll rest := by
  simp [addAll, add]

/-! ## Derivations are read -/

/-- The phrases are read wherever they stand: their segments are added to the sequence. -/
def Phrases.AreRead (ps : List Phrase) : Prop :=
  ∀ (r : Reading) (ts : List Token),
    r.run (Phrases.tokens ps ++ ts) = (r.addAll (Phrases.scheme ps)).run ts

theorem Reading.step_word {w : List Char} (h : w ≠ []) (r : Reading) :
    r.step (.word w) = .ok (r.add (.keyword ⟨(), String.ofList w, none⟩)) := by
  have hname : (String.ofList w).isEmpty = false := by simpa using h
  simp [step, Keyword.named, hname]

theorem Reading.step_quoted {w : List Char} (h : w ≠ []) (r : Reading) :
    r.step (.quoted w) = .ok (r.add (.keyword ⟨(), String.ofList w, none⟩)) :=
  r.step_word h

theorem Reading.step_placeholder (d : Declaration) (pos : Nat) (r : Reading) :
    r.step (.placeholder d.chars pos) = .ok (r.add (.var d.declared)) := by
  simp only [step, readVariable_chars]
  rfl

/-- A segment that is begun and not empty ends at its bracket. -/
theorem Reading.step_closeSquare {inner items : Scheme Unit} (h : inner ≠ []) (start stop : Nat)
    (outer : List (Opened × Scheme Unit)) :
    Reading.step ⟨inner, (.optional start, items) :: outer⟩ (.closeSquare stop)
      = .ok ⟨.optional inner.reverse :: items, outer⟩ := by
  simp [step, h]

theorem Reading.step_closeParen {inner items : Scheme Unit} (h : inner ≠ []) (start stop : Nat)
    (branches : List (Scheme Unit)) (outer : List (Opened × Scheme Unit)) :
    Reading.step ⟨inner, (.union start branches, items) :: outer⟩ (.closeParen stop)
      = .ok ⟨.union (branches.reverse ++ [inner.reverse]) :: items, outer⟩ := by
  simp [step, h]

theorem Reading.step_bar {inner items : Scheme Unit} (h : inner ≠ []) (start pos : Nat)
    (branches : List (Scheme Unit)) (outer : List (Opened × Scheme Unit)) :
    Reading.step ⟨inner, (.union start branches, items) :: outer⟩ (.bar pos)
      = .ok ⟨[], (.union start (inner.reverse :: branches), items) :: outer⟩ := by
  simp [step, h]

/-- The rows behind bars and the closing parenthesis end a union. -/
theorem Rows.run_tokens {later : List Row} (h : ∀ r ∈ later, Phrases.AreRead r.phrases)
    {inner items : Scheme Unit} (hinner : inner ≠ []) (start stop : Nat)
    (branches : List (Scheme Unit)) (outer : List (Opened × Scheme Unit)) (ts : List Token) :
    Reading.run ⟨inner, (.union start branches, items) :: outer⟩
        (Rows.tokens later ++ .closeParen stop :: ts)
      = Reading.run ⟨.union (branches.reverse ++ inner.reverse :: Rows.schemes later) :: items,
          outer⟩ ts := by
  -- On the rows; the branch being read is finished by the bar in front of the next row.
  induction later generalizing inner branches with
  | nil => exact Reading.run_cons (Reading.step_closeParen hinner start stop branches outer) ts
  | cons row later ih =>
      have hrow := h row (by simp)
      have hlater : ∀ r ∈ later, Phrases.AreRead r.phrases := fun r hr => h r (by simp [hr])
      have hne : row.scheme.reverse ≠ [] := by simpa using row.scheme_ne_nil
      rw [Rows.tokens_cons, List.cons_append, List.cons_append,
        Reading.run_cons (Reading.step_bar hinner start row.pos branches outer), List.append_assoc,
        ← Row.tokens_phrases, hrow, Row.scheme_phrases]
      show Reading.run ⟨row.scheme.reverse ++ [], _⟩ _ = _
      rw [List.append_nil, ih hlater hne]
      simp

/-- **The lexemes of phrases are read as the segments that the phrases stand for**, whatever groups
are open around them. -/
theorem Phrases.run_tokens (ps : List Phrase) (h : Token.word [] ∉ Phrases.tokens ps) :
    Phrases.AreRead ps := by
  induction ps using Phrases.induct with
  | nil => exact fun r ts => rfl
  | word w rest ih =>
      simp only [tokens_cons, Phrase.tokens, List.singleton_append, List.mem_cons, not_or] at h
      have hw : w ≠ [] := fun he => h.1 (by rw [he])
      intro r ts
      show r.run (.word w :: (tokens rest ++ ts)) = _
      rw [Reading.run_cons (r.step_word hw), ih h.2, scheme_cons, Reading.addAll_cons]
      rfl
  | quoted w hw rest ih =>
      simp only [tokens_cons, Phrase.tokens, List.singleton_append, List.mem_cons, not_or] at h
      intro r ts
      show r.run (.quoted w :: (tokens rest ++ ts)) = _
      rw [Reading.run_cons (r.step_quoted hw), ih h.2, scheme_cons, Reading.addAll_cons]
      rfl
  | placeholder d pos rest ih =>
      simp only [tokens_cons, Phrase.tokens, List.singleton_append, List.mem_cons, not_or] at h
      intro r ts
      show r.run (.placeholder d.chars pos :: (tokens rest ++ ts)) = _
      rw [Reading.run_cons (r.step_placeholder d pos), ih h.2, scheme_cons, Reading.addAll_cons]
      rfl
  | optional inner stop rest ihinner ih =>
      simp only [tokens_cons, Phrase.tokens, List.mem_append, List.mem_cons, not_or] at h
      have hinner : AreRead inner.phrases := ihinner (by simpa using h.1.1.2)
      have hne : inner.scheme.reverse ≠ [] := by simpa using inner.scheme_ne_nil
      intro r ts
      have hopen : r.step (.openSquare inner.pos)
          = .ok ⟨[], (.optional inner.pos, r.items) :: r.outer⟩ := rfl
      have hsplit : tokens (.optional inner stop :: rest) ++ ts = .openSquare inner.pos ::
          (tokens inner.phrases ++ .closeSquare stop :: (tokens rest ++ ts)) := by
        simp [Phrase.tokens]
      rw [hsplit, Reading.run_cons hopen, hinner, Row.scheme_phrases]
      show Reading.run ⟨inner.scheme.reverse ++ [], _⟩ _ = _
      rw [List.append_nil,
        Reading.run_cons (Reading.step_closeSquare hne inner.pos stop r.outer),
        List.reverse_reverse, ih h.2, scheme_cons, Reading.addAll_cons]
      rfl
  | union first later stop rest ihfirst ihlater ih =>
      simp only [tokens_cons, Phrase.tokens, List.mem_append, List.mem_cons, not_or] at h
      have hfirst : AreRead first.phrases := ihfirst (by simpa using h.1.1.1.2)
      have hlater : ∀ row ∈ later, AreRead row.phrases := by
        intro row hrow
        refine ihlater row hrow fun hmem => h.1.1.2 ?_
        exact Rows.mem_tokens_of_mem hrow (by simpa using hmem)
      have hne : first.scheme.reverse ≠ [] := by simpa using first.scheme_ne_nil
      intro r ts
      have hopen : r.step (.openParen first.pos)
          = .ok ⟨[], (.union first.pos [], r.items) :: r.outer⟩ := rfl
      have hsplit : tokens (.union first later stop :: rest) ++ ts
          = .openParen first.pos :: (tokens first.phrases ++
            (Rows.tokens later ++ .closeParen stop :: (tokens rest ++ ts))) := by
        simp [Phrase.tokens]
      rw [hsplit, Reading.run_cons hopen, hfirst, Row.scheme_phrases]
      show Reading.run ⟨first.scheme.reverse ++ [], _⟩ _ = _
      rw [List.append_nil, Rows.run_tokens hlater hne first.pos stop [] r.outer,
        List.reverse_reverse, ih h.2, scheme_cons, Reading.addAll_cons]
      rfl

theorem ofTokens_tokens {ps : List Phrase} (h : Token.word [] ∉ Phrases.tokens ps) :
    ofTokens (Phrases.tokens ps) = .ok (Phrases.scheme ps) := by
  have hrun := Phrases.run_tokens ps h Reading.start []
  rw [List.append_nil] at hrun
  show (Reading.start.run (Phrases.tokens ps) >>= Reading.finish) = _
  rw [hrun, Reading.run_nil]
  show Except.ok ((Phrases.scheme ps).reverse ++ []).reverse = _
  rw [List.append_nil, List.reverse_reverse]

/-! ## All that a lexeme can do -/

/-- What a lexeme does to a reading that does not refuse it, one case for each kind of lexeme. -/
inductive Reading.Moves (r : Reading) : Token → Reading → Prop
  | word {w : List Char} (h : w ≠ []) :
      Moves r (.word w) (r.add (.keyword ⟨(), String.ofList w, none⟩))
  | quoted {w : List Char} (h : w ≠ []) :
      Moves r (.quoted w) (r.add (.keyword ⟨(), String.ofList w, none⟩))
  | placeholder (d : Declaration) (pos : Nat) :
      Moves r (.placeholder d.chars pos) (r.add (.var d.declared))
  | openSquare (pos : Nat) : Moves r (.openSquare pos) ⟨[], (.optional pos, r.items) :: r.outer⟩
  | openParen (pos : Nat) : Moves r (.openParen pos) ⟨[], (.union pos [], r.items) :: r.outer⟩
  | closeSquare {start stop : Nat} {around : Scheme Unit} {outer : List (Opened × Scheme Unit)}
      (hne : r.items ≠ []) (ho : r.outer = (.optional start, around) :: outer) :
      Moves r (.closeSquare stop) ⟨.optional r.items.reverse :: around, outer⟩
  | closeParen {start stop : Nat} {branches : List (Scheme Unit)} {around : Scheme Unit}
      {outer : List (Opened × Scheme Unit)} (hne : r.items ≠ [])
      (ho : r.outer = (.union start branches, around) :: outer) :
      Moves r (.closeParen stop) ⟨.union (branches.reverse ++ [r.items.reverse]) :: around, outer⟩
  | bar {start pos : Nat} {branches : List (Scheme Unit)} {around : Scheme Unit}
      {outer : List (Opened × Scheme Unit)} (hne : r.items ≠ [])
      (ho : r.outer = (.union start branches, around) :: outer) :
      Moves r (.bar pos) ⟨[], (.union start (r.items.reverse :: branches), around) :: outer⟩

/-- **A lexeme that is not refused does one of these.** -/
theorem Reading.moves_of_step {r r' : Reading} {t : Token} (h : r.step t = .ok r') :
    r.Moves t r' := by
  obtain ⟨items, outer⟩ := r
  cases t with
  | word w =>
      have hw : w ≠ [] := by
        rintro rfl
        simp [step, Keyword.named] at h
      rw [step_word hw] at h
      injection h with h
      exact h ▸ .word hw
  | quoted w =>
      have hw : w ≠ [] := by
        rintro rfl
        simp [step, Keyword.named] at h
      rw [step_quoted hw] at h
      injection h with h
      exact h ▸ .quoted hw
  | placeholder content pos =>
      cases hread : readVariable content with
      | error e => simp [step, hread, Except.map] at h
      | ok v =>
          obtain ⟨d, rfl⟩ := Declaration.of_readVariable hread
          rw [step_placeholder] at h
          injection h with h
          exact h ▸ .placeholder d pos
  | openSquare pos =>
      injection h with h
      exact h ▸ .openSquare pos
  | openParen pos =>
      injection h with h
      exact h ▸ .openParen pos
  | closeSquare pos =>
      -- An empty group and a mark that closes nothing are refused.
      match items, outer with
      | [], [] => simp [step] at h
      | [], (.optional _, _) :: _ => simp [step] at h
      | [], (.union _ _, _) :: _ => simp [step] at h
      | _ :: _, (.union _ _, _) :: _ => simp [step] at h
      | x :: items, [] => simp [step] at h
      | x :: items, (.optional start, around) :: outer =>
          rw [step_closeSquare (List.cons_ne_nil x items)] at h
          injection h with h
          exact h ▸ .closeSquare (List.cons_ne_nil x items) rfl
  | closeParen pos =>
      match items, outer with
      | _, [] => simp [step] at h
      | _, (.optional _, _) :: _ => simp [step] at h
      | [], (.union _ _, _) :: _ => simp [step] at h
      | x :: items, (.union start branches, around) :: outer =>
          rw [step_closeParen (List.cons_ne_nil x items)] at h
          injection h with h
          exact h ▸ .closeParen (List.cons_ne_nil x items) rfl
  | bar pos =>
      match items, outer with
      | _, [] => simp [step] at h
      | _, (.optional _, _) :: _ => simp [step] at h
      | [], (.union _ _, _) :: _ => simp [step] at h
      | x :: items, (.union start branches, around) :: outer =>
          rw [step_bar (List.cons_ne_nil x items)] at h
          injection h with h
          exact h ▸ .bar (List.cons_ne_nil x items) rfl

/-! ## What is read is a derivation -/

/-- The lexemes left end the groups that are open: phrases, and in a union more rows, up to the mark
that closes the innermost group, and so on outwards. A group that is not begun needs a phrase. -/
def Completes : List (Opened × Scheme Unit) → Bool → List Token → Prop
  | [], _, ts => ∃ ps, ts = Phrases.tokens ps
  | (.optional _, _) :: outer, begun, ts => ∃ ps stop after, (begun = true ∨ ps ≠ []) ∧
      ts = Phrases.tokens ps ++ .closeSquare stop :: after ∧ Completes outer true after
  | (.union _ _, _) :: outer, begun, ts => ∃ ps later stop after, (begun = true ∨ ps ≠ []) ∧
      ts = Phrases.tokens ps ++ (Rows.tokens later ++ .closeParen stop :: after) ∧
      Completes outer true after

/-- The lexemes left end everything that a reading has open. -/
def Reading.Completes (r : Reading) (ts : List Token) : Prop :=
  Notation.Completes r.outer (!r.items.isEmpty) ts

/-- A phrase in front begins the innermost group. -/
theorem Completes.phrase {outer : List (Opened × Scheme Unit)} {ts : List Token}
    (h : Completes outer true ts) (p : Phrase) (begun : Bool) :
    Completes outer begun (p.tokens ++ ts) := by
  cases outer with
  | nil =>
      obtain ⟨ps, rfl⟩ := h
      exact ⟨p :: ps, rfl⟩
  | cons group outer =>
      obtain ⟨opened, items⟩ := group
      cases opened with
      | optional start =>
          obtain ⟨ps, stop, after, -, rfl, hafter⟩ := h
          exact ⟨p :: ps, stop, after, Or.inr (by simp), by simp, hafter⟩
      | union start branches =>
          obtain ⟨ps, later, stop, after, -, rfl, hafter⟩ := h
          exact ⟨p :: ps, later, stop, after, Or.inr (by simp), by simp, hafter⟩

/-- **One lexeme**: what completes the reading after it completes, behind it, the reading before
it. -/
theorem Reading.Moves.completes {r r' : Reading} {t : Token} {ts : List Token} (h : r.Moves t r')
    (hts : r'.Completes ts) : r.Completes (t :: ts) := by
  have hbegun : ∀ {items : Scheme Unit}, items ≠ [] → (!items.isEmpty) = true := by simp
  cases h with
  | word hw => exact Notation.Completes.phrase hts (.word _) _
  | quoted hw => exact Notation.Completes.phrase hts (.quoted _ hw) _
  | placeholder d pos => exact Notation.Completes.phrase hts (.placeholder d pos) _
  | openSquare pos =>
      -- The group that this bracket opens is a phrase of the sequence around it.
      obtain ⟨ps, stop, after, hps, rfl, hafter⟩ := hts
      obtain ⟨first, rest, rfl⟩ := List.exists_cons_of_ne_nil (hps.resolve_left (by simp))
      have hphrase := hafter.phrase (.optional (.mk pos first rest) stop) (!r.items.isEmpty)
      simpa [Reading.Completes, Phrase.tokens, Row.tokens, Row.pos] using hphrase
  | openParen pos =>
      obtain ⟨ps, later, stop, after, hps, rfl, hafter⟩ := hts
      obtain ⟨first, rest, rfl⟩ := List.exists_cons_of_ne_nil (hps.resolve_left (by simp))
      have hphrase := hafter.phrase (.union (.mk pos first rest) later stop) (!r.items.isEmpty)
      simpa [Reading.Completes, Phrase.tokens, Row.tokens, Row.pos] using hphrase
  | @closeSquare start stop around outer hne ho =>
      unfold Reading.Completes
      rw [ho]
      exact ⟨[], stop, ts, Or.inl (hbegun hne), rfl, hts⟩
  | @closeParen start stop branches around outer hne ho =>
      unfold Reading.Completes
      rw [ho]
      exact ⟨[], [], stop, ts, Or.inl (hbegun hne), rfl, hts⟩
  | @bar start pos branches around outer hne ho =>
      -- What was read for the new branch is the row behind this bar.
      obtain ⟨ps, later, stop, after, hps, rfl, hafter⟩ := hts
      obtain ⟨first, rest, rfl⟩ := List.exists_cons_of_ne_nil (hps.resolve_left (by simp))
      unfold Reading.Completes
      rw [ho]
      refine ⟨[], .mk pos first rest :: later, stop, after, Or.inl (hbegun hne), ?_, hafter⟩
      simp [Row.tokens, Row.pos]

/-- **A whole run**: lexemes that are read until nothing is open complete the reading that they
begin with. -/
theorem Reading.completes_of_run {r r' : Reading} {ts : List Token} (h : r.run ts = .ok r')
    (hr' : r'.outer = []) : r.Completes ts := by
  induction ts generalizing r with
  | nil =>
      injection h with h
      subst h
      unfold Reading.Completes
      rw [hr']
      exact ⟨[], rfl⟩
  | cons t ts ih =>
      obtain ⟨next, hstep, h⟩ := foldlM_cons_eq_ok.mp h
      exact (moves_of_step hstep).completes (ih h)

theorem exists_tokens_of_ofTokens {ts : List Token} {scheme : Scheme Unit}
    (h : ofTokens ts = .ok scheme) : ∃ ps, Phrases.tokens ps = ts := by
  replace h : (Reading.start.run ts >>= Reading.finish) = .ok scheme := h
  cases hrun : Reading.start.run ts with
  | error e => simp [hrun, bind, Except.bind] at h
  | ok r =>
      rw [hrun] at h
      replace h : r.finish = .ok scheme := h
      -- At the end nothing may be open.
      have houter : r.outer = [] := by
        obtain ⟨items, outer⟩ := r
        cases outer with
        | nil => rfl
        | cons group outer =>
            obtain ⟨opened, around⟩ := group
            cases opened with
            | optional start => exact absurd h (by simp [Reading.finish])
            | union start branches => cases items <;> simp [Reading.finish] at h
      obtain ⟨ps, hps⟩ := Reading.completes_of_run hrun houter
      exact ⟨ps, hps.symm⟩

/-! ## One derivation at most -/

/-- The mark ends a row of phrases. -/
def Token.endsRow : Token → Bool
  | .closeSquare _ => true
  | .closeParen _ => true
  | .bar _ => true
  | _ => false

/-- No phrase begins with a mark that ends a row. -/
theorem Phrase.exists_tokens_eq (p : Phrase) :
    ∃ t rest, p.tokens = t :: rest ∧ t.endsRow = false := by
  cases p with
  | word w => exact ⟨_, _, rfl, rfl⟩
  | quoted w h => exact ⟨_, _, rfl, rfl⟩
  | placeholder d pos => exact ⟨_, _, rfl, rfl⟩
  | optional inner stop => exact ⟨_, _, rfl, rfl⟩
  | union first later stop => exact ⟨_, _, rfl, rfl⟩

/-- Nothing follows, or what follows ends a row of phrases. -/
def EndsRow (ts : List Token) : Prop := ∀ t ∈ ts.head?, t.endsRow = true

/-- Phrases that end where a row ends are decided by the lexemes. -/
def Phrases.AreUnique (ps : List Phrase) : Prop :=
  ∀ (qs : List Phrase) (u v : List Token), EndsRow u → EndsRow v →
    Phrases.tokens ps ++ u = Phrases.tokens qs ++ v → ps = qs ∧ u = v

theorem endsRow_closeSquare (stop : Nat) (ts : List Token) : EndsRow (.closeSquare stop :: ts) := by
  simp [EndsRow, Token.endsRow]

theorem endsRow_rows (later : List Row) (stop : Nat) (ts : List Token) :
    EndsRow (Rows.tokens later ++ .closeParen stop :: ts) := by
  cases later <;> simp [EndsRow, Token.endsRow]

/-- A phrase does not begin where a row ends. -/
theorem Phrase.not_endsRow (p : Phrase) (ts : List Token) : ¬ EndsRow (p.tokens ++ ts) := by
  obtain ⟨t, rest, htokens, ht⟩ := p.exists_tokens_eq
  intro h
  have hend : t.endsRow = true := h t (by simp [htokens])
  exact absurd hend (by simp [ht])

theorem Row.eq_of_phrases {r s : Row} (hpos : r.pos = s.pos) (h : r.phrases = s.phrases) :
    r = s := by
  cases r with
  | mk pos first rest =>
      cases s with
      | mk pos' first' rest' =>
          injection h with hfirst hrest
          subst hfirst hrest
          rw [show pos = pos' from hpos]

theorem Rows.tokens_unique {later : List Row} (h : ∀ r ∈ later, Phrases.AreUnique r.phrases)
    {later' : List Row} {stop stop' : Nat} {u v : List Token}
    (heq : Rows.tokens later ++ .closeParen stop :: u
      = Rows.tokens later' ++ .closeParen stop' :: v) :
    later = later' ∧ stop = stop' ∧ u = v := by
  induction later generalizing later' with
  | nil =>
      cases later' with
      | nil =>
          injection heq with hstop hrest
          injection hstop with hstop
          exact ⟨rfl, hstop, hrest⟩
      | cons r' later' => exact absurd heq (by simp)
  | cons r later ih =>
      cases later' with
      | nil => exact absurd heq (by simp)
      | cons r' later' =>
          simp only [Rows.tokens_cons, List.cons_append, List.append_assoc, List.cons.injEq,
            Token.bar.injEq] at heq
          obtain ⟨hpos, heq⟩ := heq
          rw [← Row.tokens_phrases, ← Row.tokens_phrases] at heq
          obtain ⟨hphrases, heq⟩ :=
            h r (by simp) r'.phrases _ _ (endsRow_rows _ _ _) (endsRow_rows _ _ _) heq
          obtain ⟨hlater, hstop, hrest⟩ := ih (fun s hs => h s (by simp [hs])) heq
          exact ⟨by rw [Row.eq_of_phrases hpos hphrases, hlater], hstop, hrest⟩

/-- Where a phrase begins on one side, one begins on the other. -/
theorem Phrases.exists_cons {p : Phrase} {rest qs : List Phrase} {u v : List Token}
    (hv : EndsRow v) (h : tokens (p :: rest) ++ u = tokens qs ++ v) :
    ∃ q later, qs = q :: later ∧
      p.tokens ++ (tokens rest ++ u) = q.tokens ++ (tokens later ++ v) := by
  rw [tokens_cons, List.append_assoc] at h
  cases qs with
  | nil =>
      rw [tokens_nil, List.nil_append] at h
      rw [← h] at hv
      exact absurd hv (p.not_endsRow _)
  | cons q later =>
      rw [tokens_cons, List.append_assoc] at h
      exact ⟨q, later, rfl, h⟩

/-- **Phrases are decided by their lexemes.** -/
theorem Phrases.areUnique (ps : List Phrase) : Phrases.AreUnique ps := by
  -- The first lexeme says which kind of phrase comes first, also on the other side.
  induction ps using Phrases.induct with
  | nil =>
      intro qs u v hu hv h
      cases qs with
      | nil => exact ⟨rfl, h⟩
      | cons q qs =>
          rw [tokens_nil, List.nil_append, tokens_cons, List.append_assoc] at h
          rw [h] at hu
          exact absurd hu (q.not_endsRow _)
  | word w rest ih =>
      intro qs u v hu hv h
      obtain ⟨q, later, rfl, hcons⟩ := exists_cons hv h
      cases q <;> simp only [Phrase.tokens, List.cons_append, List.append_assoc, List.nil_append,
        List.cons.injEq, Token.word.injEq, reduceCtorEq, false_and] at hcons
      obtain ⟨hw, hrest⟩ := hcons
      obtain ⟨hlater, huv⟩ := ih later u v hu hv hrest
      rw [hw, hlater]
      exact ⟨rfl, huv⟩
  | quoted w hw rest ih =>
      intro qs u v hu hv h
      obtain ⟨q, later, rfl, hcons⟩ := exists_cons hv h
      cases q <;> simp only [Phrase.tokens, List.cons_append, List.append_assoc, List.nil_append,
        List.cons.injEq, Token.quoted.injEq, reduceCtorEq, false_and] at hcons
      obtain ⟨rfl, hrest⟩ := hcons
      obtain ⟨hlater, huv⟩ := ih later u v hu hv hrest
      rw [hlater]
      exact ⟨rfl, huv⟩
  | placeholder d pos rest ih =>
      intro qs u v hu hv h
      obtain ⟨q, later, rfl, hcons⟩ := exists_cons hv h
      cases q <;> simp only [Phrase.tokens, List.cons_append, List.append_assoc, List.nil_append,
        List.cons.injEq, Token.placeholder.injEq, reduceCtorEq, false_and] at hcons
      obtain ⟨⟨hchars, hpos⟩, hrest⟩ := hcons
      obtain ⟨hlater, huv⟩ := ih later u v hu hv hrest
      rw [Declaration.chars_injective hchars, hpos, hlater]
      exact ⟨rfl, huv⟩
  | optional inner stop rest ihinner ih =>
      intro qs u v hu hv h
      obtain ⟨q, later, rfl, hcons⟩ := exists_cons hv h
      cases q <;> simp only [Phrase.tokens, List.cons_append, List.append_assoc, List.nil_append,
        List.cons.injEq, Token.openSquare.injEq, reduceCtorEq, false_and] at hcons
      obtain ⟨hpos, hinner⟩ := hcons
      rw [← Row.tokens_phrases, ← Row.tokens_phrases] at hinner
      obtain ⟨hphrases, hclose⟩ :=
        ihinner _ _ _ (endsRow_closeSquare _ _) (endsRow_closeSquare _ _) hinner
      injection hclose with hstop hrest
      injection hstop with hstop
      obtain ⟨hlater, huv⟩ := ih later u v hu hv hrest
      rw [Row.eq_of_phrases hpos hphrases, hstop, hlater]
      exact ⟨rfl, huv⟩
  | union first rows stop rest ihfirst ihrows ih =>
      intro qs u v hu hv h
      obtain ⟨q, later, rfl, hcons⟩ := exists_cons hv h
      cases q <;> simp only [Phrase.tokens, List.cons_append, List.append_assoc, List.nil_append,
        List.cons.injEq, Token.openParen.injEq, reduceCtorEq, false_and] at hcons
      obtain ⟨hpos, hfirst⟩ := hcons
      rw [← Row.tokens_phrases, ← Row.tokens_phrases] at hfirst
      obtain ⟨hphrases, hrows⟩ := ihfirst _ _ _ (endsRow_rows _ _ _) (endsRow_rows _ _ _) hfirst
      obtain ⟨hrows, hstop, hrest⟩ := Rows.tokens_unique ihrows hrows
      obtain ⟨hlater, huv⟩ := ih later u v hu hv hrest
      rw [Row.eq_of_phrases hpos hphrases, hrows, hstop, hlater]
      exact ⟨rfl, huv⟩

theorem Phrases.tokens_injective {ps qs : List Phrase}
    (h : Phrases.tokens ps = Phrases.tokens qs) : ps = qs := by
  have hends : EndsRow [] := by simp [EndsRow]
  exact (Phrases.areUnique ps qs [] [] hends hends (by rw [h])).1

/-! ## Reading a text -/

theorem parse_eq_ok_iff {source : String} {scheme : Scheme Unit} :
    parse source = .ok scheme ↔
      ∃ ps, tokens source = .ok (Phrases.tokens ps) ∧ Phrases.scheme ps = scheme := by
  unfold parse
  cases hlex : tokens source with
  | error e => simp
  | ok ts =>
      have hwords := word_ne_nil_of_tokens hlex
      constructor
      · intro h
        obtain ⟨ps, rfl⟩ := exists_tokens_of_ofTokens h
        have hscheme : Except.ok (Phrases.scheme ps) = Except.ok scheme :=
          (ofTokens_tokens hwords).symm.trans h
        injection hscheme with hscheme
        exact ⟨ps, rfl, hscheme⟩
      · rintro ⟨ps, hps, rfl⟩
        injection hps with hps
        subst hps
        exact ofTokens_tokens hwords

/-- **The reader accepts exactly the grammar.** A text is read as a scheme if and only if its
lexemes have a derivation that stands for the scheme, and lexemes have one derivation at most;
a variable in it takes the rest of a line if and only if dots end its declaration. Every other text
is refused, with an error, so that no scheme that is read holds an empty group, a union without
branches or an empty branch. -/
theorem parse_iff_derivation (source : String) :
    (∀ scheme, parse source = .ok scheme ↔
      ∃ ts, tokens source = .ok ts ∧ ∃ ps, Phrases.tokens ps = ts ∧ Phrases.scheme ps = scheme) ∧
    Function.Injective Phrases.tokens ∧
    (∀ d : Declaration, d.declared.isRest = true ↔ dots <:+ d.chars) ∧
    ((∃ e, parse source = .error e) ↔
      ¬ ∃ ts, tokens source = .ok ts ∧ ∃ ps, Phrases.tokens ps = ts) ∧
    ∀ scheme, parse source = .ok scheme → ∀ x ∈ Scheme.parts scheme, x.Filled := by
  refine ⟨?_, fun ps qs => Phrases.tokens_injective, Declaration.isRest_iff_dots, ?_, ?_⟩
  · intro scheme
    rw [parse_eq_ok_iff]
    constructor
    · rintro ⟨ps, hlex, hscheme⟩
      exact ⟨_, hlex, ps, rfl, hscheme⟩
    · rintro ⟨_, hlex, ps, rfl, hscheme⟩
      exact ⟨ps, hlex, hscheme⟩
  · constructor
    · rintro ⟨e, he⟩ ⟨_, hlex, ps, rfl⟩
      rw [parse_eq_ok_iff.mpr ⟨ps, hlex, rfl⟩] at he
      exact absurd he (by simp)
    · intro hnone
      cases hparse : parse source with
      | error e => exact ⟨e, rfl⟩
      | ok scheme =>
          obtain ⟨ps, hlex, -⟩ := parse_eq_ok_iff.mp hparse
          exact absurd ⟨_, hlex, ps, rfl⟩ hnone
  · intro scheme h
    obtain ⟨ps, -, rfl⟩ := parse_eq_ok_iff.mp h
    exact Phrases.filled_scheme ps

end Notation
end CommandGrammar
