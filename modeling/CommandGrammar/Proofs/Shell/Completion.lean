import CommandGrammar.Proofs.Line.Appending
import CommandGrammar.Shell.Basic

/-!
# `Proofs.Shell.Completion` — what a completed line means

Completing edits the text of a line: the last word is taken off its end, a candidate is put there,
in single quotes if it has a blank, and a blank behind it. It should replace the last word by the
candidate and begin a new one. The theorem says when it does.

For a candidate without special characters it always does, however the last word was typed. But a
quote or a backslash of a candidate is written as it is, and read as a quote or a backslash.

## Contents
- `Shell.Offers`, `Shell.Completes`: the single candidate that extends the last word.
- `withoutEnd?_eq_some`, `exists_of_autocomplete`: what completing makes of a line.
- `words_completion_iff_takes`, `words_completion_iff_quoted`: the words of that line.
- `autocompletion_reads`; `autocompletion_unread`: a quote that is not escaped.
-/

namespace CommandGrammar

namespace Line

/-- The words of a line, character by character. -/
theorem words_eq_ok_iff_chars {mode : Mode} {line : String} {ws : List String} :
    words mode line = .ok ws ↔ wordChars mode line.toList = .ok (ws.map String.toList) := by
  unfold words
  cases wordChars mode line.toList with
  | error e => simp [Except.map]
  | ok vs =>
      simp only [Except.map, Except.ok.injEq]
      constructor
      · rintro rfl
        simp [Function.comp_def]
      · rintro rfl
        simp [Function.comp_def]

end Line

namespace Shell

/-! ## The candidate -/

/-- The candidate is offered for the last of the words, by a partial match that ended on it. -/
def Offers (s : Shell) (tokens : List String) (c : String) : Prop :=
  ∃ m ∈ (s.registry.matchAll tokens s.calls).1, m.result.isPartial = true ∧
    m.result.path.length = tokens.length ∧ ∃ v, m.result.last? = some v ∧ c ∈ v.candidates

/-- The candidate is the single one that is offered for the last of the words and strictly extends
it. -/
def Completes (s : Shell) (tokens : List String) (last c : String) : Prop :=
  ∀ c', (s.Offers tokens c' ∧ ∃ more, more ≠ "" ∧ c' = last ++ more) ↔ c' = c

theorem mem_offered {count : Nat} {m : CommandMatch} {c : String} :
    c ∈ offered count m ↔ m.result.isPartial = true ∧ m.result.path.length = count ∧
      ∃ v, m.result.last? = some v ∧ c ∈ v.candidates := by
  unfold offered
  cases hlast : m.result.last? with
  | none => simp
  | some v => simp [and_assoc]

/-- The text of a candidate that strictly extends a word begins with it and goes on. -/
theorem strictly_extends_iff {c last : String} :
    (startsWith c last && c != last) = true ↔ ∃ more, more ≠ "" ∧ c = last ++ more := by
  rw [Bool.and_eq_true, bne_iff_ne, startsWith, List.isPrefixOf_iff_prefix]
  constructor
  · rintro ⟨⟨more, hmore⟩, hne⟩
    have hc : c = last ++ String.ofList more := by
      apply String.toList_inj.mp
      simp [← hmore]
    refine ⟨String.ofList more, ?_, hc⟩
    rintro hnil
    exact hne (by simpa [hnil] using hc)
  · rintro ⟨more, hmore, rfl⟩
    refine ⟨⟨more.toList, by simp⟩, ?_⟩
    intro hsame
    have hlength := congrArg String.length hsame
    rw [String.length_append] at hlength
    exact hmore (String.length_eq_zero_iff.mp (by omega))

theorem withoutEnd?_eq_some {text ending stem : List Char}
    (h : withoutEnd? text ending = some stem) : text = stem ++ ending := by
  unfold withoutEnd? at h
  split_ifs at h with hend
  obtain ⟨front, rfl⟩ := List.reverse_prefix.mp (List.isPrefixOf_iff_prefix.mp hend)
  injection h with hstem
  rw [← hstem]
  simp

/-- What is offered is offered for a word. -/
theorem Offers.ne_nil {s : Shell} {tokens : List String} {c : String} (h : s.Offers tokens c) :
    tokens ≠ [] := by
  obtain ⟨m, -, -, hlength, v, hlast, -⟩ := h
  rintro rfl
  rw [List.length_nil, List.length_eq_zero_iff] at hlength
  simp [Match.last?, hlength] at hlast

/-- **A completed line** is the line with the single candidate in place of its last word, and a
blank behind it. -/
theorem exists_of_autocomplete {s : Shell} {buffer out : String} {tokens : List String}
    (hwords : Line.words .tolerant buffer = .ok tokens)
    (hout : (s.autocomplete buffer).1 = some out) :
    ∃ before last stem c, tokens = before ++ [last] ∧ s.Completes tokens last c ∧
      buffer = stem ++ last ∧ out = stem ++ completion c ++ " " := by
  simp only [autocomplete, hwords, matchAll] at hout
  split at hout
  · next only hsingle =>
    have hcompletes : s.Completes tokens (tokens.getLast?.getD "") only := by
      intro c
      have hmem : c ∈ [only] ↔ c = only := List.mem_singleton
      rw [← strictly_extends_iff, ← hmem, ← hsingle, List.mem_eraseDups, List.mem_filter,
        List.mem_flatMap]
      simp only [mem_offered, Offers]
    have hne : tokens ≠ [] := ((hcompletes only).mpr rfl).1.ne_nil
    have hlast : tokens.getLast?.getD "" = tokens.getLast hne := by
      rw [List.getLast?_eq_some_getLast hne, Option.getD_some]
    rw [hlast] at hout hcompletes
    obtain ⟨stem, hstem, hline⟩ := Option.map_eq_some_iff.mp hout
    refine ⟨tokens.dropLast, tokens.getLast hne, String.ofList stem, only,
      (List.dropLast_append_getLast hne).symm, hcompletes, ?_, hline.symm⟩
    apply String.toList_inj.mp
    simp [withoutEnd?_eq_some hstem]
  · cases hout

/-! ## What the completed line means -/

section

variable {before : List String} {last stem more c : String}

/-- A candidate without blanks is written behind the line: it begins with the last word. -/
theorem words_completion_iff_takes
    (hwords : Line.words .tolerant (stem ++ last) = .ok (before ++ [last])) (hmore : more ≠ "")
    (hblank : (last ++ more).toList.any Text.isBlank = false) :
    Line.words .tolerant (stem ++ completion (last ++ more) ++ " ")
        = .ok (before ++ [last ++ more, ""]) ↔
      (Line.after (stem ++ last).toList).Takes more.toList := by
  rw [Line.words_eq_ok_iff_chars] at hwords ⊢
  have hchars : more.toList ≠ [] := fun h => hmore (String.toList_inj.mp (by simpa using h))
  have hline : (stem ++ completion (last ++ more) ++ " ").toList
      = (stem ++ last).toList ++ more.toList ++ [' '] := by
    have hbare : completion (last ++ more) = last ++ more := if_neg (Bool.eq_false_iff.mp hblank)
    simp [hbare]
  rw [hline, ← Line.wordChars_more_iff (by simpa using hwords) hchars]
  simp

/-- A candidate with a blank is written in single quotes, in place of the last word. -/
theorem words_completion_iff_quoted
    (hwords : Line.words .tolerant (stem ++ last) = .ok (before ++ [last]))
    (hblank : c.toList.any Text.isBlank = true) (hempty : (Line.after stem.toList).Empty) :
    ((Line.after stem.toList).quoting = .bare →
      (Line.words .tolerant (stem ++ completion c ++ " ") = .ok (before ++ [c, ""]) ↔
        '\'' ∉ c.toList)) ∧
    ((Line.after stem.toList).quoting = .escaped →
      (Line.words .tolerant (stem ++ completion c ++ " ") = .ok (before ++ [c, ""]) ↔
        ∃ rest, c.toList = '\'' :: rest ∧ '\'' ∉ rest)) := by
  have hchars := Line.words_eq_ok_iff_chars.mp hwords
  simp only [String.toList_append, List.map_append, List.map_cons, List.map_nil] at hchars
  have hline : Line.words .tolerant (stem ++ completion c ++ " ") = .ok (before ++ [c, ""]) ↔
      Line.wordChars .tolerant (stem.toList ++ ('\'' :: c.toList ++ ['\'']) ++ [' '])
        = .ok (before.map String.toList ++ [c.toList, []]) := by
    have hquoted : completion c = "'" ++ c ++ "'" := if_pos hblank
    rw [Line.words_eq_ok_iff_chars]
    simp [hquoted]
  refine ⟨fun hbare => ?_, fun hwaits => ?_⟩
  · rw [hline, Line.wordChars_quoted_iff hchars hbare hempty]
  · rw [hline, Line.wordChars_quoted_waiting_iff hchars hwaits hempty]

end

/-- **A completed line means what was offered, unless the candidate is special.** A completed line
has the single candidate `c` in place of its last word, and then an empty word:

* if `c` has no blanks, quotes and backslashes: always, however the last word was typed;
* if `c` has no blank: if and only if what it adds to the last word is taken as it is;
* if `c` has a blank, and behind the stem no quote is open and the word has no character yet: if and
  only if no single quote is in `c`; if a backslash waits there, if and only if `c` begins with its
  only single quote. -/
theorem autocompletion_reads {s : Shell} {buffer out : String} {tokens : List String}
    (hwords : Line.words .tolerant buffer = .ok tokens)
    (hout : (s.autocomplete buffer).1 = some out) :
    ∃ before last stem c, tokens = before ++ [last] ∧ s.Completes tokens last c ∧
      buffer = stem ++ last ∧ out = stem ++ completion c ++ " " ∧
      (Line.isPlain c.toList = true → Line.words .tolerant out = .ok (before ++ [c, ""])) ∧
      (c.toList.any Text.isBlank = false → ∀ more, c = last ++ more →
        (Line.words .tolerant out = .ok (before ++ [c, ""]) ↔
          (Line.after buffer.toList).Takes more.toList)) ∧
      (c.toList.any Text.isBlank = true → (Line.after stem.toList).Empty →
        ((Line.after stem.toList).quoting = .bare →
          (Line.words .tolerant out = .ok (before ++ [c, ""]) ↔ '\'' ∉ c.toList)) ∧
        ((Line.after stem.toList).quoting = .escaped →
          (Line.words .tolerant out = .ok (before ++ [c, ""]) ↔
            ∃ rest, c.toList = '\'' :: rest ∧ '\'' ∉ rest))) := by
  obtain ⟨before, last, stem, c, rfl, hcompletes, rfl, rfl⟩ := exists_of_autocomplete hwords hout
  obtain ⟨more, hmore, rfl⟩ := ((hcompletes c).mpr rfl).2
  refine ⟨before, last, stem, last ++ more, rfl, hcompletes, rfl, rfl, ?_, ?_, ?_⟩
  · intro hplain
    have hliteral := (Line.isPlain_iff.mp hplain).2
    have hblank : (last ++ more).toList.any Text.isBlank = false := by
      rw [List.any_eq_false]
      exact fun c hc => Bool.eq_false_iff.mp (hliteral c hc).1
    rw [words_completion_iff_takes hwords hmore hblank]
    refine Line.Scan.takes_of_literal _ fun c hc => hliteral c ?_
    simp [hc]
  · intro hblank more' hsame
    obtain rfl : more = more' := by simpa using hsame
    exact words_completion_iff_takes hwords hmore hblank
  · exact words_completion_iff_quoted hwords

/-- A shell with two commands, `go on` and `it's`. -/
def quoteShell : Shell :=
  let command (name : String) : Command :=
    let scheme : Scheme SegmentId := [.keyword ⟨0, name, none⟩]
    ⟨name, none, scheme, (Graph.compile 0 scheme).1, fun _ => .ok .silent, none⟩
  ⟨⟨[command "go on", command "it's"]⟩, .none, []⟩

/-- A name with a blank is written in quotes and read as the name. -/
theorem autocompletion_reads_go_on : Line.words .tolerant "go" = .ok ["go"] ∧
    (quoteShell.autocomplete "go").1 = some "'go on' " ∧
    quoteShell.Completes ["go"] "go" "go on" ∧
    Line.words .tolerant "'go on' " = .ok ["go on", ""] := by
  have hwords : Line.words .tolerant "go" = .ok ["go"] := by cbv
  have hout : (quoteShell.autocomplete "go").1 = some "'go on' " := by
    simp only [quoteShell, autocomplete, hwords, matchAll, Registry.matchAll, Registry.matchFrom,
      Session.matches, Match.distinct_eq_eraseDupsBy]
    decide +kernel
  obtain ⟨before, last, stem, c, htokens, hcompletes, hbuffer, hline, -, -, hquoted⟩ :=
    autocompletion_reads hwords hout
  obtain ⟨rfl, rfl⟩ : before = [] ∧ last = "go" := by
    cases before with
    | nil => exact ⟨rfl, by simpa using htokens.symm⟩
    | cons first rest => simp at htokens
  obtain rfl : stem = "" := by
    have hlength := congrArg String.length hbuffer
    rw [String.length_append] at hlength
    exact String.length_eq_zero_iff.mp (by omega)
  have hwritten : completion c = "'go on'" := by
    have hchars := congrArg String.toList hline
    simp only [String.toList_append] at hchars
    exact String.toList_inj.mp (List.append_inj_left' hchars.symm rfl)
  obtain rfl : c = "go on" := by
    unfold completion at hwritten
    split_ifs at hwritten with hblank
    · have hchars := congrArg String.toList hwritten
      simp only [String.toList_append] at hchars
      exact String.toList_inj.mp (List.append_inj_left' (List.cons.inj hchars).2 rfl)
    · rw [hwritten] at hblank
      exact absurd (by decide) hblank
  have hread := (hquoted (by decide) rfl).1 rfl
  exact ⟨hwords, hout, hcompletes, hread.mpr (by decide)⟩

/-- A name with a quote is completed to a line that cannot be read. -/
theorem autocompletion_unread : Line.words .tolerant "it" = .ok ["it"] ∧
    (quoteShell.autocomplete "it").1 = some "it's " ∧
    Line.words .tolerant "it's " = .error .unclosedQuote := by
  have hwords : Line.words .tolerant "it" = .ok ["it"] := by cbv
  refine ⟨hwords, ?_, by cbv⟩
  simp only [quoteShell, autocomplete, hwords, matchAll, Registry.matchAll, Registry.matchFrom,
    Session.matches, Match.distinct_eq_eraseDupsBy]
  decide +kernel

end Shell
end CommandGrammar
