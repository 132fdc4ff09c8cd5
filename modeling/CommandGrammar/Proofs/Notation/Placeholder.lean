import CommandGrammar.Proofs.Notation.Derivation
import CommandGrammar.Proofs.Notation.Lexing
import Mathlib.Data.List.TakeWhile

/-!
# `Proofs.Notation.Placeholder` — declarations are read as they are written

The inside of angle brackets is read exactly if it is a declaration of the grammar, and the text of
a declaration decides which one it is. Dots at the end are taken off first, then the text is cut at
the first colon, so neither dots nor colons inside a choice do any harm.

Choices are read character by character. What the characters left must be is said for each state of
that reader (`ChoiceState.Completes`); one character at a time this is carried to the whole text.

## Contents
- `readChoices_chars`, `Restriction.of_readChoices`: choices.
- `splitRest_chars`, `splitName_body`: the two cuts.
- `readVariable_chars`, `Declaration.of_readVariable`: what the inside of angle brackets declares.
- `Declaration.chars_injective`: each text is written in one way.
-/

namespace CommandGrammar

theorem VariableType.eq_name_of_ofName? {s : String} {t : VariableType}
    (h : VariableType.ofName? s = some t) : t.name = s := by
  simpa using List.find?_some h

namespace Notation

/-! ## Choices -/

section Choices

variable {all : String} {done : List String}

/-- Inside a choice every character but its quote is kept. -/
theorem foldlM_choiceStep_inside {q : Char} {cs acc : List Char} (h : q ∉ cs) (rest : List Char) :
    (cs ++ rest).foldlM (choiceStep all) (.inside q acc, done)
      = rest.foldlM (choiceStep all) (.inside q (cs.reverse ++ acc), done) := by
  induction cs generalizing acc with
  | nil => rfl
  | cons c cs ih =>
      rw [List.mem_cons, not_or] at h
      have hstep : choiceStep all (.inside q acc, done) c = .ok (.inside q (c :: acc), done) :=
        if_neg (Ne.symm h.1)
      rw [List.cons_append, List.foldlM_cons, hstep]
      show (cs ++ rest).foldlM (choiceStep all) (.inside q (c :: acc), done) = _
      rw [ih h.2, List.reverse_cons, List.append_assoc, List.singleton_append]

/-- A choice is read from its quote to its quote. -/
theorem foldlM_choiceStep_choice (c : Choice) (rest : List Char) :
    (c.chars ++ rest).foldlM (choiceStep all) (.before, done)
      = rest.foldlM (choiceStep all) (.after, String.ofList c.text :: done) := by
  have hopen : choiceStep all (.before, done) c.quote = .ok (.inside c.quote [], done) :=
    if_pos c.isQuote_quote
  have hclose : choiceStep all (.inside c.quote c.text.reverse, done) c.quote
      = .ok (.after, String.ofList c.text :: done) := by
    have hne : c.text.reverse.isEmpty = false := by
      rw [List.isEmpty_reverse]
      exact List.isEmpty_eq_false_iff.mpr c.text_ne_nil
    simp [choiceStep, hne]
  have hchars : c.chars ++ rest = c.quote :: (c.text ++ (c.quote :: rest)) := by
    simp [Choice.chars]
  rw [hchars, List.foldlM_cons, hopen]
  show (c.text ++ (c.quote :: rest)).foldlM (choiceStep all) (.inside c.quote [], done) = _
  rw [foldlM_choiceStep_inside c.quote_notMem, List.append_nil, List.foldlM_cons, hclose]
  rfl

theorem foldlM_choiceStep_behind (cs : List Choice) :
    (Choice.charsBehind cs).foldlM (choiceStep all) (.after, done)
      = .ok (.after, (Choice.texts cs).reverse ++ done) := by
  induction cs generalizing done with
  | nil => rfl
  | cons c cs ih =>
      have hbar : choiceStep all (.after, done) '|' = .ok (.before, done) := rfl
      have hchars : Choice.charsBehind (c :: cs) = '|' :: (c.chars ++ Choice.charsBehind cs) := rfl
      rw [hchars, List.foldlM_cons, hbar]
      show (c.chars ++ Choice.charsBehind cs).foldlM (choiceStep all) (.before, done) = _
      rw [foldlM_choiceStep_choice, ih]
      simp [Choice.texts]

end Choices

/-- Reading choices succeeds if it ends behind a choice. -/
theorem readChoices_eq_ok {cs : List Char} {texts : List String} :
    readChoices cs = .ok texts ↔ ∃ done,
      cs.foldlM (choiceStep (String.ofList cs)) (.before, []) = .ok (.after, done) ∧
      done.reverse = texts := by
  unfold readChoices
  dsimp only
  cases cs.foldlM (choiceStep (String.ofList cs)) (.before, []) with
  | error e => simp [bind, Except.bind]
  | ok last =>
      obtain ⟨st, done⟩ := last
      cases st <;> simp [bind, Except.bind, pure, Except.pure, throw, throwThe, MonadExceptOf.throw]

/-- Choices are read as they are written. -/
theorem readChoices_chars (first : Choice) (rest : List Choice) :
    readChoices (Restriction.choices first rest).chars = .ok (Choice.texts (first :: rest)) := by
  refine readChoices_eq_ok.mpr ⟨(Choice.texts (first :: rest)).reverse, ?_, List.reverse_reverse _⟩
  generalize String.ofList (Restriction.choices first rest).chars = all
  rw [Restriction.chars, foldlM_choiceStep_choice, foldlM_choiceStep_behind]
  simp [Choice.texts]

/-- The characters left end the choices, if a state of the reader stands in front of them. -/
def ChoiceState.Completes : ChoiceState → List Char → Prop
  | .before, cs => ∃ first rest, cs = (Restriction.choices first rest).chars
  | .inside q acc, cs => ∃ tail rest, q ∉ tail ∧ acc.reverse ++ tail ≠ [] ∧
      cs = tail ++ q :: Choice.charsBehind rest
  | .after, cs => ∃ rest, cs = Choice.charsBehind rest

/-- One character: if the rest completes the state after it, the character and the rest complete the
state before it. -/
theorem ChoiceState.completes_step {all : String} {st st' : ChoiceState} {done done' : List String}
    {c : Char} {cs : List Char} (h : choiceStep all (st, done) c = .ok (st', done'))
    (hcs : st'.Completes cs) : st.Completes (c :: cs) := by
  cases st with
  | before =>
      by_cases hq : isQuote c = true
      · simp only [choiceStep, if_pos hq, Except.ok.injEq, Prod.mk.injEq] at h
        obtain ⟨rfl, -⟩ := h
        obtain ⟨tail, rest, htail, hne, rfl⟩ := hcs
        exact ⟨⟨c, tail, hq, hne, htail⟩, rest, by simp [Restriction.chars, Choice.chars]⟩
      · simp [choiceStep, hq] at h
  | inside q acc =>
      by_cases hc : c = q
      · by_cases hacc : acc.isEmpty = true
        · simp [choiceStep, hc, hacc] at h
        · simp only [choiceStep, if_pos hc, if_neg hacc, Except.ok.injEq, Prod.mk.injEq] at h
          obtain ⟨rfl, -⟩ := h
          obtain ⟨rest, rfl⟩ := hcs
          rw [hc]
          exact ⟨[], rest, by simp, by simpa using hacc, rfl⟩
      · simp only [choiceStep, if_neg hc, Except.ok.injEq, Prod.mk.injEq] at h
        obtain ⟨rfl, -⟩ := h
        obtain ⟨tail, rest, htail, hne, rfl⟩ := hcs
        refine ⟨c :: tail, rest, ?_, by simp, rfl⟩
        rw [List.mem_cons, not_or]
        exact ⟨Ne.symm hc, htail⟩
  | after =>
      by_cases hc : c = '|'
      · simp only [choiceStep, if_pos hc, Except.ok.injEq, Prod.mk.injEq] at h
        obtain ⟨rfl, -⟩ := h
        obtain ⟨first, rest, rfl⟩ := hcs
        rw [hc]
        exact ⟨first :: rest, rfl⟩
      · simp [choiceStep, hc] at h

/-- What is read up to the end of a choice completes the state from which it is read. -/
theorem ChoiceState.completes_of_foldlM {all : String} {st : ChoiceState}
    {done done' : List String} {cs : List Char}
    (h : cs.foldlM (choiceStep all) (st, done) = .ok (.after, done')) : st.Completes cs := by
  induction cs generalizing st done with
  | nil =>
      injection h with h
      injection h with hst
      subst hst
      exact ⟨[], rfl⟩
  | cons c cs ih =>
      obtain ⟨⟨next, left⟩, hstep, h⟩ := foldlM_cons_eq_ok.mp h
      exact completes_step hstep (ih h)

/-- What is read as choices is written as choices. -/
theorem Restriction.of_readChoices {cs : List Char} {texts : List String}
    (h : readChoices cs = .ok texts) :
    ∃ first rest, (Restriction.choices first rest).chars = cs := by
  obtain ⟨done, hfold, -⟩ := readChoices_eq_ok.mp h
  obtain ⟨first, rest, hcs⟩ := ChoiceState.completes_of_foldlM hfold
  exact ⟨first, rest, hcs.symm⟩

/-! ## The two cuts -/

theorem splitRest_dots (body : List Char) : splitRest (body ++ dots) = (body, true) := by
  simp [splitRest, dots]

theorem splitRest_of_not_dots {cs : List Char} (h : ¬ dots <:+ cs) :
    splitRest cs = (cs, false) := by
  unfold splitRest
  split
  · rename_i body hcs
    refine absurd ⟨body.reverse, ?_⟩ h
    rw [← List.reverse_reverse cs, hcs]
    simp [dots]
  · rfl

theorem splitName_of_notMem {cs : List Char} (h : ':' ∉ cs) : splitName cs = (cs, none) := by
  have hdrop : cs.dropWhile (· != ':') = [] :=
    List.dropWhile_eq_nil_iff.mpr fun c hc => bne_iff_ne.mpr fun he => h (he ▸ hc)
  simp only [splitName, hdrop]

theorem splitName_colon {name : List Char} (h : ':' ∉ name) (after : List Char) :
    splitName (name ++ ':' :: after) = (name, some after) := by
  have hname : ∀ c ∈ name, (c != ':') = true := fun c hc => bne_iff_ne.mpr fun he => h (he ▸ hc)
  unfold splitName
  rw [List.dropWhile_append_of_pos hname, List.takeWhile_append_of_pos hname]
  simp

namespace Declaration

variable (d : Declaration)

/-- Dots at the end of a declaration are taken off if they are not part of it. -/
theorem splitRest_chars : splitRest d.chars = (d.body, d.isRest) := by
  unfold chars
  cases h : d.isRest with
  | true => exact splitRest_dots d.body
  | false =>
      rw [if_neg (by simp), List.append_nil]
      refine splitRest_of_not_dots fun hdots => ?_
      rw [d.isRest_of_dots hdots] at h
      exact absurd h (by simp)

/-- A declaration is cut behind its name. -/
theorem splitName_body : splitName d.body = (d.name, d.restriction.map Restriction.chars) := by
  unfold body
  cases d.restriction with
  | none =>
      rw [Restriction.charsAfterName, List.append_nil]
      exact splitName_of_notMem d.colon_notMem
  | some a => exact splitName_colon d.colon_notMem a.chars

end Declaration

/-! ## Declarations -/

/-- The name of a type does not begin with a quote. -/
theorem annotate_type (v : Variable Unit) (t : VariableType) :
    annotate v (Restriction.type t).chars = .ok { v with type := some t } := by
  cases t <;> rfl

theorem annotate_choices (v : Variable Unit) (first : Choice) (rest : List Choice) :
    annotate v (Restriction.choices first rest).chars
      = .ok (v.withChoices (Choice.texts (first :: rest))) := by
  have hchars : (Restriction.choices first rest).chars = first.quote ::
      (first.text ++ [first.quote] ++ Choice.charsBehind rest) := rfl
  have hread := readChoices_chars first rest
  rw [hchars] at hread ⊢
  simp only [annotate, if_pos first.isQuote_quote, hread]

/-- **A declaration is read as it is written.** -/
theorem readVariable_chars (d : Declaration) : readVariable d.chars = .ok d.declared := by
  have hname : (String.ofList d.name).isEmpty = false := by
    simpa using d.name_ne_nil
  unfold readVariable Variable.named
  rw [d.splitRest_chars]
  dsimp only
  rw [d.splitName_body]
  simp only [hname]
  unfold Declaration.declared Declaration.type? Declaration.choices
  cases d.restriction with
  | none => rfl
  | some a =>
      cases a with
      | type t => simp only [Option.map_some, annotate_type]; rfl
      | choices first rest => simp only [Option.map_some, annotate_choices]; rfl

/-- Whatever is read as a restriction is written as one. -/
theorem Restriction.of_annotate {v v' : Variable Unit} {cs : List Char}
    (h : annotate v cs = .ok v') : ∃ a : Restriction, a.chars = cs := by
  cases cs with
  | nil => exact absurd h (by simp [annotate])
  | cons c cs =>
      by_cases hq : isQuote c = true
      · simp only [annotate, if_pos hq] at h
        cases hread : readChoices (c :: cs) with
        | error e => simp [hread] at h
        | ok texts =>
            obtain ⟨first, rest, hchars⟩ := Restriction.of_readChoices hread
            exact ⟨.choices first rest, hchars⟩
      · simp only [annotate, if_neg hq] at h
        cases htype : VariableType.ofName? (String.ofList (c :: cs)) with
        | none =>
            rw [htype] at h
            exact absurd h (by simp)
        | some t =>
            refine ⟨.type t, ?_⟩
            rw [Restriction.chars, VariableType.eq_name_of_ofName? htype, String.toList_ofList]

/-- A text is what is left of it without dots at its end, and those. -/
theorem exists_splitRest (cs : List Char) : ∃ body isRest, splitRest cs = (body, isRest) ∧
    cs = body ++ (if isRest then dots else []) ∧ (dots <:+ body → isRest = true) := by
  by_cases h : dots <:+ cs
  · obtain ⟨body, rfl⟩ := h
    exact ⟨body, true, splitRest_dots body, by simp, fun _ => rfl⟩
  · exact ⟨cs, false, splitRest_of_not_dots h, by simp, fun hdots => absurd hdots h⟩

/-- Without a name, or with something behind the colon that is no restriction, nothing is read. -/
theorem Declaration.of_readVariable {cs : List Char} {v : Variable Unit}
    (h : readVariable cs = .ok v) : ∃ d : Declaration, d.chars = cs := by
  obtain ⟨body, isRest, hsplit, rfl, hdots⟩ := exists_splitRest cs
  simp only [readVariable, hsplit] at h
  have hname : ∀ {name : List Char} {o : Option (List Char)}, splitName body = (name, o) →
      name ≠ [] := by
    rintro name o hcut rfl
    simp [hcut, Variable.named] at h
  by_cases hcolon : ':' ∈ body
  · obtain ⟨name, after, rfl, hnotMem⟩ := List.eq_append_cons_of_mem hcolon
    have hne := hname (splitName_colon hnotMem after)
    have hnamed : (String.ofList name).isEmpty = false := by simpa using hne
    simp only [splitName_colon hnotMem after, Variable.named, hnamed] at h
    cases hann : annotate ⟨(), String.ofList name, none, [], none, false, none, none⟩ after with
    | error e => simp [hann, bind, Except.bind] at h
    | ok v' =>
        obtain ⟨a, rfl⟩ := Restriction.of_annotate hann
        exact ⟨⟨name, some a, isRest, hne, hnotMem, hdots⟩, rfl⟩
  · have hne := hname (splitName_of_notMem hcolon)
    refine ⟨⟨body, none, isRest, hne, hcolon, fun h => hdots ?_⟩, ?_⟩
    · simpa [Restriction.charsAfterName] using h
    · simp [Declaration.chars, Declaration.body, Restriction.charsAfterName]

/-! ## One way to write a text -/

theorem Choice.append_inj {c c' : Choice} {u v : List Char} (h : c.chars ++ u = c'.chars ++ v) :
    c = c' ∧ u = v := by
  obtain ⟨q, text, hq, hne, hnot⟩ := c
  obtain ⟨q', text', hq', hne', hnot'⟩ := c'
  simp only [Choice.chars, List.cons_append, List.append_assoc, List.nil_append] at h
  injection h with hquote htext
  subst hquote
  have htake : ∀ {text u : List Char}, q ∉ text →
      (text ++ q :: u).takeWhile (· != q) = text := by
    intro text u hnot
    have hne : ∀ c ∈ text, (c != q) = true := fun c hc => bne_iff_ne.mpr fun he => hnot (he ▸ hc)
    rw [List.takeWhile_append_of_pos hne]
    simp
  have htexts : text = text' := by
    rw [← htake (u := u) hnot, ← htake (u := v) hnot', htext]
  subst htexts
  have hrest := List.append_cancel_left htext
  injection hrest with _ hrest
  exact ⟨rfl, hrest⟩

theorem Choice.charsBehind_injective {cs cs' : List Choice}
    (h : Choice.charsBehind cs = Choice.charsBehind cs') : cs = cs' := by
  induction cs generalizing cs' with
  | nil =>
      cases cs' with
      | nil => rfl
      | cons c' cs' => exact absurd h (by simp [Choice.charsBehind])
  | cons c cs ih =>
      cases cs' with
      | nil => exact absurd h (by simp [Choice.charsBehind])
      | cons c' cs' =>
          injection h with _ h
          obtain ⟨rfl, hrest⟩ := Choice.append_inj h
          rw [ih hrest]

/-- A type is no choice: the one reads as a type, the other begins with a quote. -/
theorem Restriction.chars_injective {a a' : Restriction} (h : a.chars = a'.chars) : a = a' := by
  have hne : ∀ t first rest,
      (Restriction.type t).chars ≠ (Restriction.choices first rest).chars := by
    intro t first rest h
    have hq : isQuote first.quote = true := first.isQuote_quote
    have hhead : t.name.toList.head? = some first.quote := congrArg List.head? h
    cases t <;> (injection hhead with hhead; rw [← hhead] at hq; exact absurd hq (by decide))
  cases a with
  | type t =>
      cases a' with
      | type t' =>
          have hname : t.name = t'.name := String.toList_injective h
          have ht := VariableType.ofName?_name t
          rw [hname, VariableType.ofName?_name] at ht
          injection ht with ht
          rw [ht]
      | choices first rest => exact absurd h (hne t first rest)
  | choices first rest =>
      cases a' with
      | type t => exact absurd h.symm (hne t first rest)
      | choices first' rest' =>
          obtain ⟨rfl, hrest⟩ := Choice.append_inj h
          rw [Choice.charsBehind_injective hrest]

/-- **Each text is a declaration in one way at most**: the two cuts give back its parts. -/
theorem Declaration.chars_injective {d d' : Declaration} (h : d.chars = d'.chars) : d = d' := by
  have hsplit := d.splitRest_chars
  rw [h, d'.splitRest_chars] at hsplit
  injection hsplit with hbody hrest
  have hcut := d.splitName_body
  rw [← hbody, d'.splitName_body] at hcut
  injection hcut with hname hann
  have hrestriction : d'.restriction = d.restriction :=
    Option.map_injective (fun _ _ => Restriction.chars_injective) hann
  cases d
  cases d'
  subst hname hrest hrestriction
  rfl

end Notation
end CommandGrammar
