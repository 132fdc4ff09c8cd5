import Mathlib.Data.List.Induction
import CommandGrammar.Proofs.Notation.Reading

/-!
# `Proofs.Notation.Positions` — errors point at what is wrong

Most errors of the notation name a position, which counts bytes. Whatever the text is, the character
that the error is about stands there: the bracket or the quote that is not closed, the mark that
cannot stand where it does, the bracket of the group that is empty.

Positions come from the lexer, which keeps the number of bytes that it has read; so every lexeme
with a position, and the one being read, has its mark there (`Scan.Placed`). The reader only passes
positions on. The groups that it has open are those whose marks are open among the lexemes
(`openMarks`), so an error at the end is about the innermost of them.

## Contents
- `Stands`: a character at a position.
- `Scan.Placed`, `placed_of_tokens`: the marks of lexemes.
- `openMarks`, `Reading.Tracks`: the marks of open groups.
- `Reading.Refuses`, `Reading.refuses_of_step`: all that can be wrong with a lexeme.
- `Scheme.Error.Points`: what stands where an error points.
- `not_leftOver`: what no error says.
- `error_positions`.
-/

namespace CommandGrammar
namespace Notation

/-! ## Characters at positions -/

/-- The character stands in the text, behind as many bytes as the position says. -/
def Stands (cs : List Char) (pos : Nat) (c : Char) : Prop :=
  ∃ before after, cs = before ++ c :: after ∧ (String.ofList before).utf8ByteSize = pos

theorem Stands.append {cs : List Char} {pos : Nat} {c : Char} (h : Stands cs pos c)
    (more : List Char) : Stands (cs ++ more) pos c := by
  obtain ⟨before, after, rfl, hpos⟩ := h
  exact ⟨before, after ++ more, by simp, hpos⟩

theorem stands_concat (before : List Char) (c : Char) :
    Stands (before ++ [c]) (String.ofList before).utf8ByteSize c := ⟨before, [], rfl, rfl⟩

/-! ## Marks of lexemes -/

/-- The mark of the lexeme stands at its position. -/
def Token.Placed (cs : List Char) (t : Token) : Prop :=
  ∀ c pos, t.mark? = some (c, pos) → Stands cs pos c

/-- The quote or bracket at which the lexeme being read begins stands at its position. -/
def Pending.Placed (cs : List Char) : Pending → Prop
  | .nothing => True
  | .word _ => True
  | .quoted q start _ => isQuote q = true ∧ Stands cs start q
  | .placeholder _ start _ => Stands cs start '<'

/-- The state has read the characters, and its lexemes have their marks in them. -/
structure Scan.Placed (cs : List Char) (s : Scan) : Prop where
  pos : (String.ofList cs).utf8ByteSize = s.pos
  done : ∀ t ∈ s.done, t.Placed cs
  pending : s.pending.Placed cs

theorem Token.Placed.append {cs : List Char} {t : Token} (h : t.Placed cs) (more : List Char) :
    t.Placed (cs ++ more) := fun c pos ht => (h c pos ht).append more

theorem Token.placed_word (w cs : List Char) : (Token.word w).Placed cs := by
  intro c pos h
  cases h

theorem Token.placed_quoted (w cs : List Char) : (Token.quoted w).Placed cs := by
  intro c pos h
  cases h

theorem Token.placed_placeholder {cs content : List Char} {pos : Nat} (h : Stands cs pos '<') :
    (Token.placeholder content pos).Placed cs := by
  intro c pos' hmark
  cases hmark
  exact h

namespace Scan

variable {cs : List Char} {s s' : Scan} {c : Char}

theorem start_placed : Scan.start.Placed [] := ⟨rfl, List.forall_mem_nil _, trivial⟩

/-- What begins at a character has its mark there. -/
theorem begin_placed {pos : Nat} {done : List Token} {next : List Token × Pending}
    (hpos : (String.ofList cs).utf8ByteSize = pos) (hdone : ∀ t ∈ done, t.Placed (cs ++ [c]))
    (h : begin pos c done = .ok next) :
    (∀ t ∈ next.1, t.Placed (cs ++ [c])) ∧ next.2.Placed (cs ++ [c]) := by
  have hbegins := begins pos c done
  have hstands : Stands (cs ++ [c]) pos c := hpos ▸ stands_concat cs c
  rw [h] at hbegins
  cases hbegins with
  | blank hblank => exact ⟨hdone, trivial⟩
  | quote hquote => exact ⟨hdone, hquote, hstands⟩
  | angle hc => exact ⟨hdone, hc ▸ hstands⟩
  | @mark t ht hc =>
      refine ⟨List.forall_mem_cons.mpr ⟨?_, hdone⟩, trivial⟩
      intro c' pos hmark
      cases ht.symm.trans hmark
      exact hstands
  | word hword => exact ⟨hdone, trivial⟩

/-- **A character keeps the marks where they stand.** -/
theorem Placed.step (hs : s.Placed cs) (h : s.step c = .ok s') : s'.Placed (cs ++ [c]) := by
  have hpos : ∀ {pos : Nat}, (String.ofList cs).utf8ByteSize = pos →
      (String.ofList (cs ++ [c])).utf8ByteSize = pos + c.utf8Size := by
    rintro pos rfl
    rw [String.ofList_append, String.utf8ByteSize_append, ← String.singleton_eq_ofList,
      String.utf8ByteSize_singleton]
  have hdone : ∀ t ∈ s.done, t.Placed (cs ++ [c]) := fun t ht => (hs.done t ht).append [c]
  cases moves_of_step h with
  | begins hb =>
      obtain ⟨hnext, hpending⟩ := begin_placed hs.pos hdone hb
      exact ⟨hpos hs.pos, hnext, hpending⟩
  | @wordEnd pos c done acc next hend hb =>
      have hword : ∀ t ∈ Token.word acc.reverse :: done, t.Placed (cs ++ [c]) :=
        List.forall_mem_cons.mpr ⟨Token.placed_word _ _, hdone⟩
      obtain ⟨hnext, hpending⟩ := begin_placed hs.pos hword hb
      exact ⟨hpos hs.pos, hnext, hpending⟩
  | word hc => exact ⟨hpos hs.pos, hdone, trivial⟩
  | quotedEnd =>
      exact ⟨hpos hs.pos, List.forall_mem_cons.mpr ⟨Token.placed_quoted _ _, hdone⟩, trivial⟩
  | quoted hc => exact ⟨hpos hs.pos, hdone, hs.pending.1, hs.pending.2.append [c]⟩
  | angleQuoted => exact ⟨hpos hs.pos, hdone, hs.pending.append [c]⟩
  | angleEnd =>
      refine ⟨hpos hs.pos, List.forall_mem_cons.mpr ⟨?_, hdone⟩, trivial⟩
      exact Token.placed_placeholder (hs.pending.append ['>'])
  | angle hc => exact ⟨hpos hs.pos, hdone, hs.pending.append [c]⟩

theorem placed_of_run (h : cs.foldlM Scan.step Scan.start = .ok s) : s.Placed cs :=
  foldlM_induction (P := Scan.Placed) (fun hs h => hs.step h) start_placed h

end Scan

/-- The characters are read to their end, or one of them is refused. -/
theorem tokens_cases (source : String) :
    (∃ s, source.toList.foldlM Scan.step Scan.start = .ok s ∧ tokens source = s.finish) ∨
      ∃ e, source.toList.foldlM Scan.step Scan.start = .error e ∧ tokens source = .error e := by
  unfold tokens tokenChars
  cases h : source.toList.foldlM Scan.step Scan.start with
  | ok s => exact .inl ⟨s, rfl, rfl⟩
  | error e => exact .inr ⟨e, rfl, rfl⟩

/-- **The mark of every lexeme stands in the text.** -/
theorem placed_of_tokens {source : String} {ts : List Token} (h : tokens source = .ok ts) :
    ∀ t ∈ ts, t.Placed source.toList := by
  rcases tokens_cases source with ⟨s, hrun, hfinish⟩ | ⟨e, -, herror⟩
  · have hs := Scan.placed_of_run hrun
    rw [h] at hfinish
    obtain ⟨pos, done, pending⟩ := s
    cases pending with
    | nothing =>
        cases hfinish
        exact fun t ht => hs.done t (List.mem_reverse.mp ht)
    | word acc =>
        cases hfinish
        have hdone : ∀ t ∈ Token.word acc.reverse :: done, t.Placed source.toList :=
          List.forall_mem_cons.mpr ⟨Token.placed_word _ _, hs.done⟩
        exact fun t ht => hdone t (List.mem_reverse.mp ht)
    | quoted q start acc => cases hfinish
    | placeholder quote start acc => cases hfinish
  · cases h.symm.trans herror

/-! ## Marks of open groups -/

/-- The marks that are open after a lexeme, innermost first: a closing mark closes the innermost. -/
def marksAfter (marks : List (Char × Nat)) : Token → List (Char × Nat)
  | .openSquare pos => ('[', pos) :: marks
  | .openParen pos => ('(', pos) :: marks
  | .closeSquare _ => marks.tail
  | .closeParen _ => marks.tail
  | .word _ => marks
  | .quoted _ => marks
  | .placeholder _ _ => marks
  | .bar _ => marks

/-- The opening marks that nothing has closed at the end of the lexemes, innermost first. -/
def openMarks (ts : List Token) : List (Char × Nat) := ts.foldl marksAfter []

theorem openMarks_concat (ts : List Token) (t : Token) :
    openMarks (ts ++ [t]) = marksAfter (openMarks ts) t := by
  rw [openMarks, List.foldl_append]
  rfl

/-- An open mark is the mark of a lexeme. -/
theorem exists_mark_of_openMarks {ts : List Token} {m : Char × Nat} (h : m ∈ openMarks ts) :
    ∃ t ∈ ts, t.mark? = some m := by
  -- On the lexemes from the last: only an opening mark adds one.
  induction ts using List.reverseRecOn with
  | nil => cases h
  | append_singleton ts t ih =>
      have hold : m ∈ openMarks ts → ∃ t' ∈ ts ++ [t], t'.mark? = some m := by
        intro hm
        obtain ⟨t', ht', hmark⟩ := ih hm
        exact ⟨t', List.mem_append_left _ ht', hmark⟩
      have hnew : t.mark? = some m → ∃ t' ∈ ts ++ [t], t'.mark? = some m :=
        fun hmark => ⟨t, List.mem_concat_self, hmark⟩
      rw [openMarks_concat] at h
      cases t with
      | openSquare pos => exact (List.mem_cons.mp h).elim (fun hm => hnew (hm ▸ rfl)) hold
      | openParen pos => exact (List.mem_cons.mp h).elim (fun hm => hnew (hm ▸ rfl)) hold
      | closeSquare pos => exact hold (List.mem_of_mem_tail h)
      | closeParen pos => exact hold (List.mem_of_mem_tail h)
      | word w => exact hold h
      | quoted w => exact hold h
      | placeholder content pos => exact hold h
      | bar pos => exact hold h

/-- The mark at which a group was opened, and its position. -/
def Opened.mark : Opened → Char × Nat
  | .optional pos => ('[', pos)
  | .union pos _ => ('(', pos)

/-- The groups that are open are those whose marks are. -/
def Reading.Tracks (before : List Token) (r : Reading) : Prop :=
  r.outer.map (·.1.mark) = openMarks before

/-- **A lexeme opens and closes a group where it opens and closes a mark.** -/
theorem Reading.Tracks.step {before : List Token} {r r' : Reading} {t : Token}
    (hr : r.Tracks before) (h : r.step t = .ok r') : r'.Tracks (before ++ [t]) := by
  unfold Tracks at hr ⊢
  rw [openMarks_concat, ← hr]
  cases moves_of_step h with
  | word hw => rfl
  | quoted hw => rfl
  | placeholder d pos => rfl
  | openSquare pos => rfl
  | openParen pos => rfl
  | closeSquare hne ho => rw [ho]; rfl
  | closeParen hne ho => rw [ho]; rfl
  | bar hne ho => rw [ho]; rfl

theorem Reading.tracks_of_run {ts : List Token} {r : Reading} (h : Reading.start.run ts = .ok r) :
    r.Tracks ts := by
  have hstart : Reading.start.Tracks [] := rfl
  exact foldlM_induction (P := Reading.Tracks) (fun hr h => hr.step h) hstart h

/-! ## What can be wrong with a lexeme -/

/-- The position that an error names. -/
def Error.position? : Error → Option Nat
  | .unclosedAngle pos => some pos
  | .unclosedSquare pos => some pos
  | .unclosedParen pos => some pos
  | .emptyAlternative => none
  | .invalid (.unclosedQuote pos) => some pos
  | .invalid (.unexpected _ pos) => some pos
  | .invalid (.emptyOptional pos) => some pos
  | .invalid (.missingType _) => none
  | .invalid (.unquotedChoice _) => none
  | .invalid (.unclosedChoice _) => none
  | .invalid (.unexpectedInChoices _ _) => none

end Notation

/-- The position that an error names. -/
def Scheme.Error.position? : Scheme.Error → Option Nat
  | .missingKeywordName => none
  | .missingVariableName => none
  | .unsupportedType _ => none
  | .malformed cause => cause.position?

namespace Notation

theorem position?_choiceStep {all : String} {state : ChoiceState × List String} {c : Char}
    {e : Error} (h : choiceStep all state c = .error e) : e.position? = none := by
  obtain ⟨state, done⟩ := state
  cases state with
  | before =>
      simp only [choiceStep] at h
      split at h <;> cases h
      rfl
  | inside q acc =>
      simp only [choiceStep] at h
      split at h
      · split at h <;> cases h
        rfl
      · cases h
  | after =>
      simp only [choiceStep] at h
      split at h <;> cases h
      rfl

theorem position?_readChoices {cs : List Char} {e : Error} (h : readChoices cs = .error e) :
    e.position? = none := by
  cases hrun : cs.foldlM (choiceStep (String.ofList cs)) (.before, []) with
  | error e' =>
      simp only [readChoices, hrun] at h
      cases h
      obtain ⟨_, _, _, _, -, -, hstep⟩ := exists_step_of_foldlM hrun
      exact position?_choiceStep hstep
  | ok last =>
      obtain ⟨state, done⟩ := last
      simp only [readChoices, hrun] at h
      cases state <;> cases h <;> rfl

theorem position?_annotate {v : Variable Unit} {declared : List Char} {e : Scheme.Error}
    (h : annotate v declared = .error e) : e.position? = none := by
  unfold annotate at h
  split at h
  · cases h
    rfl
  · split at h
    · split at h <;> cases h
      exact position?_readChoices ‹_›
    · split at h <;> cases h
      rfl

/-- What is wrong inside angle brackets has no position. -/
theorem position?_readVariable {content : List Char} {e : Scheme.Error}
    (h : readVariable content = .error e) : e.position? = none := by
  unfold readVariable at h
  cases hname : Variable.named () (String.ofList (splitName (splitRest content).1).1) with
  | none =>
      simp only [hname] at h
      cases h
      rfl
  | some v =>
      simp only [hname] at h
      cases hdeclared : (splitName (splitRest content).1).2 with
      | none =>
          rw [hdeclared] at h
          cases h
      | some declared =>
          rw [hdeclared] at h
          cases hannotate : annotate v declared with
          | ok v' => simp [hannotate, bind, Except.bind, pure, Except.pure] at h
          | error e' =>
              simp only [hannotate, bind, Except.bind] at h
              cases h
              exact position?_annotate hannotate

/-- Why a lexeme is refused, one case for each cause. -/
inductive Reading.Refuses (r : Reading) : Token → Scheme.Error → Prop
  /-- The lexeme is no segment, wherever it stands. -/
  | own {t : Token} {e : Scheme.Error} (ht : t.endsRow = false)
      (he : ∀ r' : Reading, r'.step t = .error e) (hpos : e.position? = none) : Refuses r t e
  | emptyOptional {start stop : Nat} {around : Scheme Unit} {outer : List (Opened × Scheme Unit)}
      (ho : r.outer = (.optional start, around) :: outer) :
      Refuses r (.closeSquare stop) (.malformed (.invalid (.emptyOptional start)))
  | emptyAlternative {t : Token} (ho : r.outer ≠ []) : Refuses r t (.malformed .emptyAlternative)
  /-- The mark closes nothing here, or separates nothing. -/
  | stray {t : Token} {c : Char} {pos : Nat} (ht : t.endsRow = true)
      (hmark : t.mark? = some (c, pos)) : Refuses r t (unexpected c pos)

/-- **A lexeme is refused for one of these causes.** -/
theorem Reading.refuses_of_step {r : Reading} {t : Token} {e : Scheme.Error}
    (h : r.step t = .error e) : r.Refuses t e := by
  obtain ⟨items, outer⟩ := r
  cases t with
  | word w =>
      by_cases hw : w = []
      · subst hw
        cases h
        exact .own rfl (fun r' => rfl) rfl
      · cases (Reading.step_word hw _).symm.trans h
  | quoted w =>
      by_cases hw : w = []
      · subst hw
        cases h
        exact .own rfl (fun r' => rfl) rfl
      · cases (Reading.step_quoted hw _).symm.trans h
  | placeholder content pos =>
      cases hread : readVariable content with
      | ok v => simp [step, hread, Except.map] at h
      | error e' =>
          have hstep : ∀ r' : Reading, r'.step (.placeholder content pos) = .error e' := by
            intro r'
            simp only [step, hread]
            rfl
          cases (hstep _).symm.trans h
          exact .own rfl hstep (position?_readVariable hread)
  | openSquare pos => cases h
  | openParen pos => cases h
  | closeSquare pos =>
      rcases outer with _ | ⟨⟨start | ⟨start, branches⟩, around⟩, outer⟩
      · cases h
        exact .stray rfl rfl
      · rcases items with _ | ⟨x, items⟩
        · cases h
          exact .emptyOptional rfl
        · cases h
      · rcases items with _ | ⟨x, items⟩
        · cases h
          exact .emptyAlternative (List.cons_ne_nil _ _)
        · cases h
          exact .stray rfl rfl
  | closeParen pos | bar pos =>
      rcases outer with _ | ⟨⟨start | ⟨start, branches⟩, around⟩, outer⟩
      · cases h
        exact .stray rfl rfl
      · cases h
        exact .stray rfl rfl
      · rcases items with _ | ⟨x, items⟩
        · cases h
          exact .emptyAlternative (List.cons_ne_nil _ _)
        · cases h

/-! ## Errors of a text -/

end Notation

/-- What stands where the error points, for a text that is refused with it. The bracket that is not
closed is that of the innermost group. -/
def Scheme.Error.Points (source : String) : Scheme.Error → Prop
  | .malformed (.unclosedAngle pos) => Notation.Stands source.toList pos '<'
  | .malformed (.unclosedSquare pos) => Notation.Stands source.toList pos '[' ∧
      ∃ ts, Notation.tokens source = .ok ts ∧ (Notation.openMarks ts).head? = some ('[', pos)
  | .malformed (.unclosedParen pos) => Notation.Stands source.toList pos '(' ∧
      ∃ ts, Notation.tokens source = .ok ts ∧ (Notation.openMarks ts).head? = some ('(', pos)
  | .malformed (.invalid (.unclosedQuote pos)) =>
      ∃ q, Notation.isQuote q = true ∧ Notation.Stands source.toList pos q
  | .malformed (.invalid (.unexpected c pos)) => Notation.Stands source.toList pos c
  | .malformed (.invalid (.emptyOptional pos)) => Notation.Stands source.toList pos '['
  | e => e.position? = none

/-- An error without a position points at nothing. -/
theorem Scheme.Error.points_of_position? {source : String} {e : Scheme.Error}
    (h : e.position? = none) : e.Points source := by
  unfold Points
  split <;> first | exact h | cases h

/-- Where an error points, a character of the text stands. -/
theorem Scheme.Error.Points.exists_stands {source : String} {e : Scheme.Error} {pos : Nat}
    (h : e.Points source) (hpos : e.position? = some pos) :
    ∃ c, Notation.Stands source.toList pos c := by
  unfold Points at h
  split at h
  · cases hpos; exact ⟨_, h⟩
  · cases hpos; exact ⟨_, h.1⟩
  · cases hpos; exact ⟨_, h.1⟩
  · cases hpos
    obtain ⟨q, -, hq⟩ := h
    exact ⟨q, hq⟩
  · cases hpos; exact ⟨_, h⟩
  · cases hpos; exact ⟨_, h⟩
  · cases h.symm.trans hpos

namespace Notation

/-- What the lexer refuses stands where it says. -/
theorem points_of_tokens {source : String} {e : Error} (h : tokens source = .error e) :
    (Scheme.Error.malformed e).Points source := by
  rcases tokens_cases source with ⟨s, hrun, hfinish⟩ | ⟨e', hrun, herror⟩
  · -- A quote or an angle bracket is open at the end.
    have hs := (Scan.placed_of_run hrun).pending
    rw [h] at hfinish
    obtain ⟨pos, done, pending⟩ := s
    cases pending with
    | nothing => cases hfinish
    | word acc => cases hfinish
    | quoted q start acc =>
        cases hfinish
        exact ⟨q, hs⟩
    | placeholder quote start acc =>
        cases hfinish
        exact hs
  · -- An angle bracket closes nothing; it stands behind the characters read before it.
    cases h.symm.trans herror
    obtain ⟨before, c, after, s, hsource, hbefore, hstep⟩ := exists_step_of_foldlM hrun
    obtain ⟨rfl, rfl⟩ := Scan.eq_of_step_error hstep
    exact ⟨before, after, hsource, (Scan.placed_of_run hbefore).pos⟩

/-- The lexemes are read to their end, or one of them is refused. -/
theorem ofTokens_cases (ts : List Token) :
    (∃ r, Reading.start.run ts = .ok r ∧ ofTokens ts = r.finish) ∨
      ∃ e, Reading.start.run ts = .error e ∧ ofTokens ts = .error e := by
  unfold ofTokens Reading.run
  cases h : ts.foldlM Reading.step Reading.start with
  | ok r => exact .inl ⟨r, rfl, rfl⟩
  | error e => exact .inr ⟨e, rfl, rfl⟩

section Reader

variable {source : String} {ts : List Token}

/-- An open mark among the lexemes stands in the text. -/
theorem stands_of_openMarks (hlex : tokens source = .ok ts) {before : List Token}
    (hbefore : before ⊆ ts) {c : Char} {pos : Nat} (h : (c, pos) ∈ openMarks before) :
    Stands source.toList pos c := by
  obtain ⟨t, ht, hmark⟩ := exists_mark_of_openMarks h
  exact placed_of_tokens hlex t (hbefore ht) c pos hmark

/-- What is refused with a lexeme stands where the refusal says. -/
theorem points_of_refuses (hlex : tokens source = .ok ts) {before : List Token} {r : Reading}
    (hbefore : before ⊆ ts) (hr : r.Tracks before) {t : Token} (ht : t ∈ ts) {e : Scheme.Error}
    (h : r.Refuses t e) : e.Points source := by
  cases h with
  | own hrow he hpos => exact Scheme.Error.points_of_position? hpos
  | @emptyOptional start stop around outer ho =>
      have hopen : ('[', start) ∈ openMarks before := by
        rw [← hr, ho]
        exact List.mem_cons_self
      exact stands_of_openMarks hlex hbefore hopen
  | emptyAlternative ho => exact rfl
  | @stray t c pos hrow hmark => exact placed_of_tokens hlex t ht c pos hmark

/-- What is refused at the end of the lexemes is the innermost open group. -/
theorem points_of_finish (hlex : tokens source = .ok ts) {r : Reading} (hr : r.Tracks ts)
    {e : Scheme.Error} (h : r.finish = .error e) : e.Points source := by
  obtain ⟨items, outer⟩ := r
  have hhead : ∀ (m : Char × Nat) (rest : List (Char × Nat)), openMarks ts = m :: rest →
      Stands source.toList m.2 m.1 ∧
        ∃ ts, tokens source = .ok ts ∧ (openMarks ts).head? = some m := by
    intro m rest hm
    have hmem : m ∈ openMarks ts := hm ▸ List.mem_cons_self
    exact ⟨stands_of_openMarks hlex (List.Subset.refl ts) hmem, ts, hlex, by rw [hm]; rfl⟩
  match items, outer with
  | _, [] => cases h
  | _, (.optional start, around) :: outer =>
      cases h
      exact hhead _ _ hr.symm
  | [], (.union start branches, around) :: outer =>
      cases h
      exact rfl
  | _ :: _, (.union start branches, around) :: outer =>
      cases h
      exact hhead _ _ hr.symm

end Reader

/-! ## How errors are shown -/

/-- The text of a fault up to its first part that is not fixed. -/
def Fault.opening : Fault → String
  | .unclosedQuote _ => "unclosed quote starting at position "
  | .unexpected _ _ => "unexpected '"
  | .emptyOptional _ => "empty optional group at position "
  | .missingType _ => "missing type after '"
  | .unquotedChoice _ => "enum choices must be quoted: "
  | .unclosedChoice _ => "unclosed quote in choices: "
  | .unexpectedInChoices _ _ => "unexpected '"

theorem Fault.exists_message (fault : Fault) :
    ∃ more, fault.message = fault.opening ++ more := by
  have hassoc : ∀ a b c d : String, ∃ more, a ++ b ++ c ++ d = a ++ more :=
    fun a b c d => ⟨b ++ (c ++ d), by rw [String.append_assoc, String.append_assoc]⟩
  cases fault with
  | unclosedQuote pos => exact ⟨_, rfl⟩
  | unexpected c pos => exact hassoc _ _ _ _
  | emptyOptional pos => exact ⟨_, rfl⟩
  | missingType name => exact ⟨name ++ ":'", String.append_assoc⟩
  | unquotedChoice choices => exact ⟨_, rfl⟩
  | unclosedChoice choices => exact ⟨_, rfl⟩
  | unexpectedInChoices c choices => exact hassoc _ _ _ _

/-- How the refusal of a lexeme would begin that is left over behind a scheme and is no mark. -/
def leftOver : List Char :=
  "grammar notation error: ".toList ++ ("invalid syntax: ".toList ++ "unexpected token ".toList)

/-- Two texts that part are still parted with more behind one of them. -/
theorem not_prefix_append {a b : List Char} (more : List Char) (hab : ¬ a <+: b)
    (hba : ¬ b <+: a) : ¬ a <+: b ++ more := by
  intro h
  exact (List.prefix_or_prefix_of_prefix h (List.prefix_append b more)).elim hab hba

/-- No fault is shown as a lexeme that is left over. -/
theorem Fault.not_leftOver (fault : Fault) :
    ¬ "unexpected token ".toList <+: fault.message.toList := by
  obtain ⟨more, hmore⟩ := fault.exists_message
  have hopening : ¬ "unexpected token ".toList <+: fault.opening.toList ∧
      ¬ fault.opening.toList <+: "unexpected token ".toList := by
    cases fault <;> simp only [opening] <;> exact ⟨by decide, by decide⟩
  rw [hmore, String.toList_append]
  exact not_prefix_append _ hopening.1 hopening.2

theorem Error.not_leftOver (cause : Error) :
    ¬ ("invalid syntax: ".toList ++ "unexpected token ".toList) <+: cause.message.toList := by
  have hword : ∀ {b : List Char} (more : List Char), ¬ "invalid syntax: ".toList <+: b →
      ¬ b <+: "invalid syntax: ".toList →
      ¬ ("invalid syntax: ".toList ++ "unexpected token ".toList) <+: b ++ more := by
    intro b more hab hba h
    exact not_prefix_append more hab hba ((List.prefix_append _ _).trans h)
  cases cause with
  | unclosedAngle pos =>
      show ¬ _ <+: ("unclosed angle bracket at position " ++ toString pos).toList
      rw [String.toList_append]
      exact hword _ (by decide) (by decide)
  | unclosedSquare pos =>
      show ¬ _ <+: ("unclosed square bracket at position " ++ toString pos).toList
      rw [String.toList_append]
      exact hword _ (by decide) (by decide)
  | unclosedParen pos =>
      show ¬ _ <+: ("unclosed parenthesis at position " ++ toString pos).toList
      rw [String.toList_append]
      exact hword _ (by decide) (by decide)
  | emptyAlternative => decide
  | invalid fault =>
      show ¬ _ <+: ("invalid syntax: " ++ fault.message).toList
      rw [String.toList_append, List.prefix_append_right_inj]
      exact fault.not_leftOver

/-- **No error is shown as a lexeme that is left over.** -/
theorem not_leftOver (e : Scheme.Error) : ¬ leftOver <+: e.message.toList := by
  intro h
  have hgrammar := (List.prefix_append _ _).trans h
  cases e with
  | missingKeywordName => exact absurd hgrammar (by decide)
  | missingVariableName => exact absurd hgrammar (by decide)
  | unsupportedType name =>
      replace hgrammar : _ <+: ("unsupported variable type: " ++ name).toList := hgrammar
      rw [String.toList_append] at hgrammar
      exact not_prefix_append _ (by decide) (by decide) hgrammar
  | malformed cause =>
      replace h : _ <+: ("grammar notation error: " ++ cause.message).toList := h
      rw [String.toList_append] at h
      exact cause.not_leftOver ((List.prefix_append_right_inj _).mp h)

/-! ## The errors of a text -/

/-- **Errors point at what is wrong.** If a text is refused with an error that names a position, the
character that the error is about stands there: the quote, the angle bracket or the innermost
bracket that nothing closes, the mark that cannot stand where it does, the bracket of the group that
is empty. Outside all groups nothing is left over: each lexeme is read, or is no segment wherever it
stands, or is a closing mark or a bar and refused as such; so no error says that a lexeme is left
over. -/
theorem error_positions {source : String} {e : Scheme.Error} (h : parse source = .error e) :
    e.Points source ∧ (∀ pos, e.position? = some pos → ∃ c, Stands source.toList pos c) ∧
      (∀ (before : List Token) (t : Token) (after : List Token) (r : Reading),
        tokens source = .ok (before ++ t :: after) → Reading.start.run before = .ok r →
        r.outer = [] →
          (∃ r', r.step t = .ok r') ∨ (t.endsRow = false ∧ ∀ r' : Reading, r'.step t = .error e) ∨
            t.endsRow = true ∧ ∃ c pos, t.mark? = some (c, pos) ∧ e = unexpected c pos) ∧
      ¬ leftOver <+: e.message.toList := by
  have hpoints : e.Points source := by
    unfold parse at h
    cases hlex : tokens source with
    | error cause =>
        rw [hlex] at h
        cases h
        exact points_of_tokens hlex
    | ok ts =>
        rw [hlex] at h
        replace h : ofTokens ts = .error e := h
        rcases ofTokens_cases ts with ⟨r, hrun, hfinish⟩ | ⟨e', hrun, herror⟩
        · exact points_of_finish hlex (Reading.tracks_of_run hrun) (hfinish.symm.trans h)
        · cases h.symm.trans herror
          obtain ⟨before, t, after, r, rfl, hbefore, hstep⟩ := exists_step_of_foldlM hrun
          apply points_of_refuses hlex (List.subset_append_left _ _)
            (Reading.tracks_of_run hbefore) _ (Reading.refuses_of_step hstep)
          exact List.mem_append_right _ List.mem_cons_self
  refine ⟨hpoints, fun pos hpos => hpoints.exists_stands hpos, ?_, not_leftOver e⟩
  intro before t after r hlex hbefore houter
  cases hstep : r.step t with
  | ok r' => exact .inl ⟨r', rfl⟩
  | error e' =>
      -- The text is refused where its first lexeme is.
      have hrefused : parse source = .error e' := by
        have hrun : Reading.start.run (before ++ t :: after) = .error e' := by
          unfold Reading.run at hbefore ⊢
          rw [List.foldlM_append, hbefore]
          show List.foldlM Reading.step r (t :: after) = _
          rw [List.foldlM_cons, hstep]
          rfl
        rw [parse, hlex]
        show (Reading.start.run (before ++ t :: after) >>= Reading.finish) = _
        rw [hrun]
        rfl
      cases h.symm.trans hrefused
      cases Reading.refuses_of_step hstep with
      | own hrow he hpos => exact .inr (.inl ⟨hrow, he⟩)
      | emptyOptional ho => cases houter.symm.trans ho
      | emptyAlternative ho => exact absurd houter ho
      | @stray t c pos hrow hmark => exact .inr (.inr ⟨hrow, c, pos, hmark, rfl⟩)

/-- The letter in front takes two bytes, and the inner of two open groups is the culprit. -/
theorem error_positions_nested :
    parse "é [a (b" = .error (.malformed (.unclosedParen 6)) ∧
      Stands "é [a (b".toList 6 '(' ∧
        ∃ ts, tokens "é [a (b" = .ok ts ∧ (openMarks ts).head? = some ('(', 6) := by
  have hparse : parse "é [a (b" = .error (.malformed (.unclosedParen 6)) := by rfl
  exact ⟨hparse, (error_positions hparse).1⟩

end Notation
end CommandGrammar
