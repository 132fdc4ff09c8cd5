import CommandGrammar.Proofs.Matching.Providers
import CommandGrammar.Proofs.Matching.Walks
import CommandGrammar.Proofs.Resolution.Verdict
import CommandGrammar.Shell.Basic

/-!
# `Proofs.Shell.Agreement` — hints and dispatch agree

While a line is edited the shell reports hints, and when it is entered the line is dispatched. The
two read the line in different ways and use its matches in different ways, and yet the hints tell
what will become of the line: whether it can be read, whether a command is known, whether the line
is complete.

Hints are made of the last segments of matches, so a match that passes no segment would show
nothing. There is none if the line has a word: every match ends on a solid segment, because the word
was taken by one or the match stopped at one. This holds of every graph and is carried through the
worklist by `Walk.Visited`.

## Contents
- `Walk.Visited`, `Session.solid_last`: every match of a word ends on a solid segment.
- `Hint.exists_ofMatch?`, `Hint.collect_eq_nil`, `Hint.any_collect`: no match is lost in a report.
- `Line.words_eq_error_iff`: both ways of reading refuse the same lines.
- `Shell.answer`, `Shell.dispatch_ok`, `Shell.dispatch_eq_unreadable`: what dispatch answers.
- `Shell.hints_agree`.
-/

namespace CommandGrammar

/-! ## Matches end on solid segments -/

section

variable {g : Graph} {argv : List String}

/-- The visit is of a solid segment. -/
def Visit.IsSolid (g : Graph) (v : Visit) : Prop := ∃ t, g.solid? v.node = some t

/-- No token has been taken, or the last visit is of a solid segment. -/
def Frame.Visited (g : Graph) (argv : List String) (f : Frame) : Prop :=
  f.rest = argv ∨ ∃ v, f.trail.head? = some v ∧ v.IsSolid g

/-- The match ends on a solid segment. -/
def Match.EndsSolid (g : Graph) (m : Match) : Prop := ∃ v, m.last? = some v ∧ v.IsSolid g

/-- What is on the stack has been visited, and what was found ends on a solid segment. -/
structure Walk.Visited (g : Graph) (argv : List String) (w : Walk) : Prop where
  stack : ∀ f ∈ w.stack, f.Visited g argv
  found : ∀ m ∈ w.found, m.EndsSolid g

variable {c : Variable SegmentId → List String}

theorem Frame.Visited.next {f f' : Frame} (h : f.Visited g argv) (hnext : f.Next g c f') :
    f'.Visited g argv := by
  cases hnext with
  | through hk he hj => exact h
  | accepted ht hr ha hj => exact Or.inr ⟨_, rfl, _, by simpa using ht⟩

theorem Frame.Visited.last {f : Frame} {m : Match} (hargv : argv ≠ []) (h : f.Visited g argv)
    (hlast : f.Last g c m) : m.EndsSolid g := by
  cases hlast with
  | whole hk he hr =>
      rcases h with h | ⟨v, hv, hsolid⟩
      · exact absurd (h.symm.trans hr) hargv
      · exact ⟨v, by simpa [Match.last?] using hv, hsolid⟩
  | @pending t ht hr =>
      exact ⟨t.pendingVisit c f.node, by simp [Match.last?], t, by simpa using ht⟩
  | @stopped t token rest ht hr hs =>
      exact ⟨t.stoppedVisit c f.node token, by simp [Match.last?], t, by simpa using ht⟩

/-- **A step keeps the worklist visited.** -/
theorem Walk.Visited.step (hargv : argv ≠ []) {w : Walk} (h : w.Visited g argv) :
    (w.step g).Visited g argv := by
  cases hw : w.stack with
  | nil =>
      have hstep : w.step g = w := by simp [Walk.step, hw]
      rw [hstep]
      exact h
  | cons f stack =>
      obtain ⟨hstack, hfound⟩ := Walk.step_outcome (g := g) hw
      have hf : f.Visited g argv := h.stack f (by simp [hw])
      constructor
      · intro f' hf'
        rw [hstack] at hf'
        rcases List.mem_append.mp hf' with hf' | hf'
        · exact hf.next (Frame.next_of_mem hf')
        · exact h.stack f' (by simp [hw, hf'])
      · intro m hm
        rw [hfound] at hm
        rcases List.mem_append.mp hm with hm | hm
        · exact hf.last hargv (Frame.last_of_mem hm)
        · exact h.found m hm

theorem Walk.Visited.run (hargv : argv ≠ []) {w : Walk} (h : w.Visited g argv) (fuel : Nat) :
    (w.run g fuel).Visited g argv := by
  induction fuel generalizing w with
  | zero => exact h
  | succ fuel ih =>
      unfold Walk.run
      split
      · exact h
      · exact ih (h.step hargv)

/-- **Every match of a line with a word ends on a solid segment**, in whatever graph. -/
theorem Session.solid_last (hargv : argv ≠ []) (s : Session) {m : Match}
    (hm : m ∈ (s.matches g argv).1) : m.EndsSolid g := by
  have hstart : (Walk.start s g argv).Visited g argv := by
    refine ⟨fun f hf => ?_, fun m hm => absurd hm (by simp [Walk.start])⟩
    rw [List.mem_singleton.mp hf]
    exact Or.inl rfl
  have hmem := (Match.distinct_spec _).2.1 m hm
  exact (hstart.run hargv _).found m (by simpa using hmem)

end

theorem Registry.solid_last {argv : List String} (hargv : argv ≠ []) {cs : List Command}
    {index : Nat} {s : Session} {m : CommandMatch} (hm : m ∈ (matchFrom argv index cs s).1) :
    m.result.EndsSolid m.command.graph := by
  induction cs generalizing index s with
  | nil => exact absurd hm (by simp [matchFrom])
  | cons c rest ih =>
      rw [matchFrom_cons] at hm
      rcases List.mem_append.mp hm with hm | hm
      · obtain ⟨x, hx, rfl⟩ := List.mem_map.mp hm
        exact s.solid_last hargv hx
      · exact ih hm

/-! ## Reports lose no match -/

namespace Hint

/-- A match that ends on a solid segment has a hint. -/
theorem exists_ofMatch? {m : CommandMatch} (h : m.result.EndsSolid m.command.graph) :
    ∃ hint, ofMatch? m = some hint ∧ hint.isInvokable = m.result.isInvokable := by
  obtain ⟨v, hlast, t, ht⟩ := h
  have hk := Graph.solid?_eq_some.mp ht
  have hmap : (ofMatch? m).map isInvokable = some m.result.isInvokable := by
    cases t with
    | keyword k => simp [ofMatch?, hlast, hk, Solid.kind]
    | var x => simp [ofMatch?, hlast, hk, Solid.kind]
  exact Option.map_eq_some_iff.mp hmap

variable {ms : List CommandMatch}

theorem mem_collect {hint : Hint} : hint ∈ collect ms ↔ ∃ m ∈ ms, ofMatch? m = some hint := by
  rw [collect, List.mem_eraseDups, List.mem_filterMap]

/-- **A report is empty only if nothing matches.** -/
theorem collect_eq_nil (h : ∀ m ∈ ms, m.result.EndsSolid m.command.graph) :
    collect ms = [] ↔ ms = [] := by
  constructor
  · intro hnil
    by_contra hne
    obtain ⟨m, hm⟩ := List.exists_mem_of_ne_nil _ hne
    obtain ⟨hint, hhint, -⟩ := exists_ofMatch? (h m hm)
    have hmem : hint ∈ collect ms := mem_collect.mpr ⟨m, hm, hhint⟩
    rw [hnil] at hmem
    exact absurd hmem (by simp)
  · rintro rfl
    rfl

/-- **A report says of a line that it can be submitted if some match is invokable.** -/
theorem any_collect (h : ∀ m ∈ ms, m.result.EndsSolid m.command.graph) :
    (collect ms).any Hint.isInvokable = true ↔ ∃ m ∈ ms, m.result.isInvokable = true := by
  rw [List.any_eq_true]
  constructor
  · rintro ⟨hint, hmem, hinvokable⟩
    obtain ⟨m, hm, hhint⟩ := mem_collect.mp hmem
    obtain ⟨hint', hhint', heq⟩ := exists_ofMatch? (h m hm)
    rw [hhint] at hhint'
    injection hhint' with hsame
    exact ⟨m, hm, by rw [← heq, ← hsame, hinvokable]⟩
  · rintro ⟨m, hm, hinvokable⟩
    obtain ⟨hint, hhint, heq⟩ := exists_ofMatch? (h m hm)
    exact ⟨hint, mem_collect.mpr ⟨m, hm, hhint⟩, heq.trans hinvokable⟩

end Hint

/-! ## Both ways of reading -/

namespace Line

/-- A line is refused exactly if a quote is open at its end. -/
theorem Scan.finish_eq_error {mode : Mode} {s : Scan} :
    s.finish mode = .error .unclosedQuote ↔ s.quoting ≠ .bare ∧ s.quoting ≠ .escaped := by
  obtain ⟨quoting, done, word⟩ := s
  have hread : Scan.finish mode ⟨.bare, done, word⟩ ≠ .error .unclosedQuote := by
    cases word with
    | some w => simp [finish]
    | none =>
        simp only [finish]
        split_ifs <;> simp
  cases quoting with
  | single => simp [finish]
  | double => simp [finish]
  | doubleEscaped => simp [finish]
  | bare => simpa using hread
  | escaped =>
      have hescaped : Scan.finish mode ⟨.escaped, done, word⟩ ≠ .error .unclosedQuote := hread
      simpa using hescaped

/-- **A quote that is open is open in both ways of reading.** -/
theorem words_eq_error_iff (mode mode' : Mode) (line : String) :
    words mode line = .error .unclosedQuote ↔ words mode' line = .error .unclosedQuote := by
  have hwords : ∀ mode, words mode line = .error .unclosedQuote ↔
      (line.toList.foldl Scan.step Scan.start).finish mode = .error .unclosedQuote := by
    intro mode
    unfold words wordChars
    cases (line.toList.foldl Scan.step Scan.start).finish mode <;> simp [Except.map]
  rw [hwords, hwords, Scan.finish_eq_error, Scan.finish_eq_error]

end Line

/-! ## Hints and dispatch -/

namespace Shell

/-- The answer to a line with words: the refusal to resolve it, or what its command does. -/
def answer (line : String) (argv : List String) :
    Except Resolution.Error Resolution → Except Error Outcome
  | .error e => .error (.unresolved e)
  | .ok r => (r.command.action (r.invocation line argv)).mapError .failed

/-- Of its own a command can only fail. -/
theorem answer_ok_ne {line : String} {argv : List String} {r : Resolution} {e : Error}
    (he : ∀ f, e ≠ .failed f) : answer line argv (.ok r) ≠ .error e := by
  show (r.command.action (r.invocation line argv)).mapError .failed ≠ .error e
  cases r.command.action (r.invocation line argv) with
  | error f => simpa [Except.mapError] using (he f).symm
  | ok outcome => simp [Except.mapError]

/-- A line is unresolved only because resolution refuses it. -/
theorem answer_eq_unresolved {line : String} {argv : List String}
    {resolved : Except Resolution.Error Resolution} {e : Resolution.Error} :
    answer line argv resolved = .error (.unresolved e) ↔ resolved = .error e := by
  cases resolved with
  | error e' => simp [answer]
  | ok r => simp [answer_ok_ne]

theorem dispatch_ok {s : Shell} {line : String} {argv : List String}
    (h : Line.words .strict line = .ok argv) (hne : argv ≠ []) :
    (s.dispatch line).1 = answer line argv (s.resolve line argv).1 := by
  obtain ⟨word, words, rfl⟩ := List.exists_cons_of_ne_nil hne
  simp only [dispatch, h]
  cases (s.resolve line (word :: words)).1 with
  | error e => rfl
  | ok r =>
      unfold answer
      dsimp only
      cases r.command.action (r.invocation line (word :: words)) <;> rfl

/-- **Dispatch refuses to read a line if it cannot be read.** -/
theorem dispatch_eq_unreadable {s : Shell} {line : String} :
    (s.dispatch line).1 = .error (.unreadable .unclosedQuote) ↔
      Line.words .strict line = .error .unclosedQuote := by
  cases hwords : Line.words .strict line with
  | error e => simp [dispatch, hwords]
  | ok argv =>
      cases argv with
      | nil => simp [dispatch, hwords]
      | cons word words =>
          rw [dispatch_ok hwords (by simp)]
          cases (s.resolve line (word :: words)).1 with
          | error e => simp [answer]
          | ok r => simp [answer_ok_ne]

/-- A report has an error if the line cannot be read. -/
theorem parseError_isSome {s : Shell} {line : String} :
    (s.hints line).1.parseError.isSome = true ↔
      Line.words .tolerant line = .error .unclosedQuote := by
  unfold hints
  cases Line.words .tolerant line with
  | error e =>
      cases e
      simp
  | ok argv => simp

theorem hints_ok {s : Shell} {line : String} {argv : List String}
    (h : Line.words .tolerant line = .ok argv) :
    (s.hints line).1 = ⟨argv, Hint.collect (s.registry.matchAll argv s.calls).1, none⟩ := by
  simp [hints, h, matchAll]

/-- If no provider changes its answer, shells with the same commands find the same matches, whatever
was asked before. -/
theorem matchAll_eq {s s' : Shell} (hfixed : Fixed s.registry.commands)
    (hsame : s'.registry = s.registry) (argv : List String) :
    (s'.registry.matchAll argv s'.calls).1 = (s.registry.matchAll argv s.calls).1 := by
  have hfresh : (Session.fresh s'.calls).provided = (Session.fresh s.calls).provided := rfl
  rw [hsame]
  exact (Registry.matchFrom_alike (fun c hc => hfixed.alike hc) argv 0 hfresh).1

/-- **Hints and dispatch agree.** A report has an error if and only if the line fails for an open
quote when it is dispatched. For a line with words that both ways of reading agree on, there are no
hints if and only if no command is known for it; there are hints, but none of an invokable match, if
and only if it is incomplete; and there is a hint of an invokable match if and only if it is
ambiguous, or a command is chosen and the line comes to what that command's action makes of it.
What was asked and previewed between the report and the dispatch does not matter. -/
theorem hints_agree {s s' : Shell} (hfixed : Fixed s.registry.commands)
    (hsame : s'.registry = s.registry) (buffer : String) :
    let report := (s.hints buffer).1
    let result := (s'.dispatch buffer).1
    (report.parseError.isSome = true ↔ result = .error (.unreadable .unclosedQuote)) ∧
    ∀ argv, Line.words .strict buffer = .ok argv → Line.words .tolerant buffer = .ok argv →
      argv ≠ [] →
      (report.hints = [] ↔ result = .error (.unresolved (.unknownCommand buffer))) ∧
      (report.hints ≠ [] ∧ report.hasInvokable = false ↔
        result = .error (.unresolved (.incompleteCommand buffer))) ∧
      (report.hasInvokable = true ↔
        (∃ names, result = .error (.unresolved (.ambiguousCommand names))) ∨
        ∃ r, (s'.resolve buffer argv).1 = .ok r ∧
          result = (r.command.action (r.invocation buffer argv)).mapError .failed) := by
  intro report result
  refine ⟨?_, ?_⟩
  · rw [parseError_isSome, dispatch_eq_unreadable]
    exact Line.words_eq_error_iff _ _ _
  · intro argv hstrict htolerant hargv
    have hreport : report = ⟨argv, Hint.collect (s.registry.matchAll argv s.calls).1, none⟩ :=
      hints_ok htolerant
    have hresolve : (s'.resolve buffer argv).1
        = CommandGrammar.resolve buffer (s.registry.matchAll argv s.calls).1 := by
      rw [← matchAll_eq hfixed hsame argv]
      rfl
    have hresult : result = answer buffer argv (s'.resolve buffer argv).1 :=
      dispatch_ok hstrict hargv
    have hsolid : ∀ m ∈ (s.registry.matchAll argv s.calls).1,
        m.result.EndsSolid m.command.graph := fun m hm => Registry.solid_last hargv hm
    have hnil : report.hints = [] ↔ (s.registry.matchAll argv s.calls).1 = [] := by
      rw [hreport]
      exact Hint.collect_eq_nil hsolid
    have hinvokable : report.hasInvokable = true ↔
        ∃ m ∈ (s.registry.matchAll argv s.calls).1, m.result.isInvokable = true := by
      rw [hreport]
      exact Hint.any_collect hsolid
    have hready : report.hasInvokable = false ↔
        ¬ ∃ m ∈ (s.registry.matchAll argv s.calls).1, m.result.isInvokable = true := by
      rw [← hinvokable, Bool.not_eq_true]
    -- Both sides speak of the same matches now; the cases are those of resolution.
    rw [hresult, hnil, hready, hinvokable, Ne, hnil]
    simp only [answer_eq_unresolved, hresolve]
    rcases resolve_cases buffer (s.registry.matchAll argv s.calls).1 with
      ⟨hms, h⟩ | ⟨hms, hnone, h⟩ | ⟨hms, hsome, ⟨names, h⟩ | ⟨r, h⟩⟩
    · simp only [h]
      simp [hms]
    · simp [h, hms, hnone]
    · simp [h, hms, hsome]
    · simp [h, hms, hsome, answer]

/-- Hints leave the commands as they are. -/
theorem registry_hints (s : Shell) (buffer : String) :
    (s.hints buffer).2.registry = s.registry := by
  unfold hints
  cases Line.words .tolerant buffer <;> rfl

/-- A shell with one command, `set <mode: <provider>>`; the provider always knows two modes. -/
def modeShell : Shell :=
  let scheme : Scheme SegmentId := [.keyword ⟨0, "set", none⟩,
    .var ⟨1, "mode", none, [], some fun _ => ["fast", "slow"], false, none, none⟩]
  ⟨⟨[⟨"set", none, scheme, (Graph.compile 0 scheme).1, fun _ => .ok .silent, none⟩]⟩, .none, []⟩

/-- For `set fa` there is a hint, but not of an invokable match, so the line is incomplete when it
is dispatched after that. -/
theorem hints_agree_set : Fixed modeShell.registry.commands ∧
    (modeShell.hints "set fa").2.registry = modeShell.registry ∧
    Line.words .strict "set fa" = .ok ["set", "fa"] ∧
    Line.words .tolerant "set fa" = .ok ["set", "fa"] ∧
    (modeShell.hints "set fa").1.hints ≠ [] ∧
    (modeShell.hints "set fa").1.hasInvokable = false ∧
    ((modeShell.hints "set fa").2.dispatch "set fa").1
      = .error (.unresolved (.incompleteCommand "set fa")) := by
  have hfixed : Fixed modeShell.registry.commands := by
    have hproviders : modeShell.registry.commands.flatMap Command.providers
        = [(1, fun _ => ["fast", "slow"])] := by cbv
    rw [Fixed, hproviders]
    simp
  have hsame := registry_hints modeShell "set fa"
  have hstrict : Line.words .strict "set fa" = .ok ["set", "fa"] := by cbv
  have htolerant : Line.words .tolerant "set fa" = .ok ["set", "fa"] := by cbv
  have hreport : (modeShell.hints "set fa").1.hints ≠ [] ∧
      (modeShell.hints "set fa").1.hasInvokable = false := by
    rw [hints_ok htolerant]
    simp only [modeShell, Registry.matchAll, Registry.matchFrom, Session.matches,
      Match.distinct_eq_eraseDupsBy]
    decide +kernel
  have hagree := (hints_agree hfixed hsame "set fa").2 _ hstrict htolerant (by simp)
  exact ⟨hfixed, hsame, hstrict, htolerant, hreport.1, hreport.2, hagree.2.1.mp hreport⟩

end Shell
end CommandGrammar
