import CommandGrammar.Proofs.Shell.Agreement
import CommandGrammar.Proofs.Shell.Previews
import CommandGrammar.Shell.Repl

/-!
# `Proofs.Shell.Scripts` — a session is what comes of its lines

A shell that reads lines has a state that a line may change: who was asked so far, how many previews
were requested, and what of them has not been looked at. None of it shows. If providers do not
change their answers and previews arrive in time, what is written after a line depends on the
commands and the line only, so the output of a script is that of its lines one after the other, each
of them read by a fresh shell.

What carries this from line to line is that the shell keeps its commands and that no preview has a
later number than the latest request (`Shell.Over`): then a preview that is requested is told from
all earlier ones, and it is the one that is waited for.

## Contents
- `Previews.Bounded`, `Previews.Bounded.wait_request`: a preview that arrives in time.
- `Shell.Over`, `Shell.over_of_run`: the state between two lines.
- `Shell.Reached`, `Shell.renewed`, `Shell.renewed_of_run`: a used shell and a fresh copy of it.
- `Shell.Over.describe`, `Shell.Over.submit`, `Shell.Over.reply`: what a line leaves behind.
- `Shell.reply_alike`: what comes of a line.
- `Shell.transcript`, `Shell.runLines_stays`, `Shell.runLines_leaves`: lines one after the other.
- `Terminated`, `scriptLines_append`: the lines of a script.
- `Shell.withActions`, `Shell.reply_withActions`: a described line invokes nothing.
- `session_concatenates`.
-/

namespace CommandGrammar

/-! ## Previews between two lines -/

namespace Previews

variable {p : Previews}

/-- No preview has a later number than the latest request. -/
def Bounded (p : Previews) : Prop := ∀ m ∈ p.pending, m.generation ≤ p.generation

theorem bounded_none : none.Bounded := fun _ hm => absurd hm List.not_mem_nil

theorem Bounded.cancel (h : p.Bounded) : p.cancel.Bounded :=
  fun m hm => Nat.le_succ_of_le (h m hm)

/-- Previews with other numbers are dropped in front of the current one. -/
theorem firstCurrent_concat {generation : Nat} {stale : List Preview}
    (h : ∀ m ∈ stale, m.generation ≠ generation) (text : Option String) :
    firstCurrent generation (stale ++ [⟨generation, text⟩]) = (text, []) := by
  induction stale with
  | nil => simp [firstCurrent]
  | cons m stale ih =>
      obtain ⟨hm, hstale⟩ := List.forall_mem_cons.mp h
      rw [List.cons_append, firstCurrent, if_neg hm]
      exact ih hstale

/-- **A preview that arrives in time is the answer**, whatever else has arrived, and nothing is left
behind. -/
theorem Bounded.wait_request (h : p.Bounded) (text : Option String) :
    (p.request text).deliverAll.wait = (text, ⟨p.generation + 1, [], []⟩) := by
  have hstale : ∀ m ∈ p.inbox ++ p.running, m.generation ≠ p.generation + 1 := by
    intro m hm
    have hpending : m ∈ p.pending := List.mem_append.mpr (List.mem_append.mp hm).symm
    exact Nat.ne_of_lt (Nat.lt_succ_of_le (h m hpending))
  have hfirst := firstCurrent_concat hstale text
  rw [List.append_assoc] at hfirst
  simp only [request, deliverAll, deliver, wait, Bool.not_true, List.filter_false, List.filter_true,
    hfirst]

end Previews

/-! ## The state between two lines -/

namespace Shell

variable {s s' : Shell} {r : Registry}

/-- The shell has these commands, and can tell a preview that it requests from all earlier ones. -/
structure Over (r : Registry) (s : Shell) : Prop where
  registry : s.registry = r
  bounded : s.previews.Bounded

/-! ### The commands stay -/

@[simp] theorem registry_findPreview (s : Shell) (buffer : String) :
    (s.findPreview buffer).2.registry = s.registry := by
  unfold findPreview
  split
  · rfl
  · rfl
  · dsimp only
    split <;> rfl

@[simp] theorem registry_requestPreview (s : Shell) (buffer : String) :
    (s.requestPreview buffer).2.registry = s.registry := by
  have hfind := registry_findPreview s buffer
  unfold requestPreview
  cases h : s.findPreview buffer with
  | mk found s' =>
      rw [h] at hfind
      cases found <;> exact hfind

@[simp] theorem registry_autocomplete (s : Shell) (buffer : String) :
    (s.autocomplete buffer).2.registry = s.registry := by
  unfold autocomplete
  split
  · rfl
  · dsimp only
    split <;> rfl

@[simp] theorem registry_dispatch (s : Shell) (line : String) :
    (s.dispatch line).2.registry = s.registry := by
  unfold dispatch
  split
  · rfl
  · rfl
  · dsimp only
    split
    · rfl
    · split <;> rfl

@[simp] theorem registry_submit (s : Shell) (line : String) :
    (s.submit line).2.registry = s.registry := by
  rw [← registry_dispatch s line]
  unfold submit
  split
  · rename_i h
    rw [h]
  · rfl

theorem Step.registry {e : Option Previews.Event} (h : Step s e s') : s'.registry = s.registry := by
  cases h with
  | @request _ buffer text htext h => rw [← registry_requestPreview s buffer, h]
  | @refuse _ buffer h => rw [← registry_requestPreview s buffer, h]
  | arrive ready => rfl
  | poll h => rfl
  | wait h => rfl
  | hints buffer => exact registry_hints s buffer
  | autocomplete buffer => exact registry_autocomplete s buffer
  | dispatch line => exact registry_dispatch s line
  | submit line => exact registry_submit s line

/-- **A shell that was made and then used in any way can tell its previews apart.** -/
theorem over_of_run {r₀ : Registry} {supply : Supply} {calls : CallLog} {s₀ : Shell}
    (hstart : ofRegistry r₀ supply calls = .ok s₀) {events : List (Option Previews.Event)}
    (h : Run Step s₀ events s) : Over s₀.registry s where
  registry := by
    induction h with
    | start => rfl
    | next h hstep ih => exact hstep.registry.trans ih
  bounded := by
    obtain ⟨owed, howes, -⟩ := Previews.exists_owes (run_previews (previews_ofRegistry hstart) h)
    exact howes.bounded

/-- The shell was made of a registry and then used in any way. -/
def Reached (s : Shell) : Prop :=
  ∃ (r : Registry) (supply : Supply) (calls : CallLog) (s₀ : Shell)
    (events : List (Option Previews.Event)),
    ofRegistry r supply calls = .ok s₀ ∧ Run Step s₀ events s

/-- The shell with its commands only: no preview was requested, and its providers were asked as the
log says. -/
def renewed (s : Shell) (calls : CallLog) : Shell := ⟨s.registry, .none, calls⟩

/-- Renewed, a shell is what it was when it was made. -/
theorem renewed_of_run {r₀ : Registry} {supply : Supply} {calls : CallLog} {s₀ : Shell}
    (hstart : ofRegistry r₀ supply calls = .ok s₀) {events : List (Option Previews.Event)}
    (h : Run Step s₀ events s) : s.renewed s₀.calls = s₀ := by
  have hregistry : s.registry = s₀.registry := (over_of_run hstart h).registry
  have hpreviews : s₀.previews = .none := previews_ofRegistry hstart
  unfold renewed
  rw [hregistry, ← hpreviews]

theorem over_renewed (s : Shell) (calls : CallLog) : (s.renewed calls).Over s.registry :=
  ⟨rfl, Previews.bounded_none⟩

theorem Reached.over (h : s.Reached) : s.Over s.registry := by
  obtain ⟨r₀, supply, calls, s₀, events, hstart, hrun⟩ := h
  exact ⟨rfl, (over_of_run hstart hrun).bounded⟩

/-! ## What comes of a line -/

/-- What is written about a line, by its hints and its preview. -/
def described (report : HintReport) (found : Option (Option String)) : String :=
  match report.parseError with
  | some e => printed ["  parse error: " ++ e]
  | none =>
    let about :=
      if report.hints.isEmpty then ["  no matching command"]
      else report.hints.map fun h => "  " ++ h.line
    printed (about ++ (found.join.map ("  preview: " ++ ·)).toList)

/-- **A line that is described shows its hints and its own preview**, and leaves no preview behind
that could be taken for a later one. -/
theorem Over.describe (h : s.Over r) (buffer : String) :
    (s.describe buffer).1
        = described (s.hints buffer).1 ((s.hints buffer).2.findPreview buffer).1 ∧
      (s.describe buffer).2.Over r := by
  have hregistry : (s.hints buffer).2.registry = r := (registry_hints s buffer).trans h.registry
  have hbounded : (s.hints buffer).2.previews.Bounded := by
    rw [previews_hints]
    exact h.bounded
  unfold Shell.describe described
  generalize s.hints buffer = answer at *
  obtain ⟨report, s₁⟩ := answer
  dsimp only at *
  cases report.parseError with
  | some e => exact ⟨rfl, hregistry, hbounded⟩
  | none =>
      dsimp only
      have hkept := registry_requestPreview s₁ buffer
      cases hfound : (s₁.findPreview buffer).1 with
      | none =>
          obtain ⟨hrefused, hprevious⟩ := requestPreview_of_none hfound
          rw [hrefused]
          refine ⟨?_, hkept.trans hregistry, ?_⟩
          · simp
          · rw [if_neg Bool.false_ne_true]
            show (s₁.requestPreview buffer).2.previews.Bounded
            rw [hprevious]
            exact hbounded.cancel
      | some text =>
          obtain ⟨hrequested, hprevious⟩ := requestPreview_of_some hfound
          have hwait := hbounded.wait_request text
          rw [hrequested, if_pos rfl]
          unfold waitPreview deliverPreviews
          dsimp only
          rw [hprevious, hwait]
          exact ⟨rfl, hkept.trans hregistry, fun m hm => absurd hm List.not_mem_nil⟩

theorem Over.submit (h : s.Over r) (line : String) : (s.submit line).2.Over r where
  registry := (registry_submit s line).trans h.registry
  bounded := by
    rw [previews_submit]
    exact h.bounded

/-- The line asks for a description. -/
def Asks (line : List Char) : Prop := (withoutBreaks line).getLast? = some '?'

instance (line : List Char) : Decidable (Asks line) :=
  inferInstanceAs (Decidable (_ = _))

/-- The text that a line submits, or that it asks to be described. -/
def buffer (line : List Char) : String :=
  if Asks line then String.ofList (withoutBreaks line).dropLast
  else String.ofList (withoutBreaks line)

theorem reply_of_asks {line : List Char} (h : Asks line) :
    s.reply line = ⟨(s.describe (buffer line)).1, false, (s.describe (buffer line)).2⟩ := by
  have hmark : (withoutBreaks line).getLast? = some '?' := h
  unfold reply buffer
  dsimp only
  rw [if_pos hmark, if_pos h]

/-- What is written after a line that is submitted, and whether the shell is left. -/
def submitted : Except Error Outcome → String × Bool
  | .ok (.text answer) => (printed [answer], false)
  | .ok .silent => ("", false)
  | .ok .exit => ("", true)
  | .error e => (printed ["error: " ++ e.message], false)

theorem reply_of_not_asks {line : List Char} (h : ¬ Asks line) :
    s.reply line = ⟨(submitted (s.submit (buffer line)).1).1,
      (submitted (s.submit (buffer line)).1).2, (s.submit (buffer line)).2⟩ := by
  have hmark : ¬ (withoutBreaks line).getLast? = some '?' := h
  unfold reply buffer
  dsimp only
  rw [if_neg hmark, if_neg h]
  generalize s.submit (String.ofList (withoutBreaks line)) = answer
  obtain ⟨answer, s'⟩ := answer
  cases answer with
  | error e => rfl
  | ok outcome => cases outcome <;> rfl

/-- **A line leaves the shell as it is between two lines.** -/
theorem Over.reply (h : s.Over r) (line : List Char) : (s.reply line).shell.Over r := by
  by_cases hasks : Asks line
  · rw [reply_of_asks hasks]
    exact (h.describe (buffer line)).2
  · rw [reply_of_not_asks hasks]
    exact h.submit (buffer line)

/-! ### Shells with the same commands -/

section

variable (hfixed : Fixed s.registry.commands) (hsame : s'.registry = s.registry)

include hfixed hsame

theorem resolve_alike (input : String) (argv : List String) :
    (s'.resolve input argv).1 = (s.resolve input argv).1 := by
  show CommandGrammar.resolve input (s'.registry.matchAll argv s'.calls).1
    = CommandGrammar.resolve input (s.registry.matchAll argv s.calls).1
  rw [matchAll_eq hfixed hsame]

theorem dispatch_alike (line : String) : (s'.dispatch line).1 = (s.dispatch line).1 := by
  cases hwords : Line.words .strict line with
  | error e => simp only [dispatch, hwords]
  | ok argv =>
      cases argv with
      | nil => simp only [dispatch, hwords]
      | cons word words =>
          rw [dispatch_ok hwords (List.cons_ne_nil word words),
            dispatch_ok hwords (List.cons_ne_nil word words), resolve_alike hfixed hsame]

theorem hints_alike (buffer : String) : (s'.hints buffer).1 = (s.hints buffer).1 := by
  cases hwords : Line.words .tolerant buffer with
  | error e => simp only [hints, hwords]
  | ok argv => rw [hints_ok hwords, hints_ok hwords, matchAll_eq hfixed hsame]

end

/-- The answer to a submitted line is made of the answer to a dispatched one. -/
theorem submit_eq (s : Shell) (line : String) :
    (s.submit line).1 = match (s.dispatch line).1 with
      | .error (.unresolved (.unknownCommand input)) =>
        .ok (.text (Resolution.Error.unknownCommand input).message)
      | answer => answer := by
  unfold submit
  obtain ⟨answer, s'⟩ := s.dispatch line
  split
  · rename_i h
    cases h
    rfl
  · rename_i h
    split
    · rename_i h'
      exact absurd (congrArg (·, s') h') (h _ _)
    · rfl

/-- The preview of a line is that of the command that the line means. -/
theorem findPreview_ok {buffer : String} {argv : List String}
    (h : Line.words .strict buffer = .ok argv) (hne : argv ≠ []) :
    (s.findPreview buffer).1 = match (s.resolve buffer argv).1 with
      | .ok x => x.command.preview.map fun p => p (x.invocation buffer argv)
      | .error _ => none := by
  obtain ⟨word, words, rfl⟩ := List.exists_cons_of_ne_nil hne
  simp only [findPreview, h]
  cases (s.resolve buffer (word :: words)).1 <;> rfl

theorem findPreview_alike (hfixed : Fixed s.registry.commands) (hsame : s'.registry = s.registry)
    (buffer : String) : (s'.findPreview buffer).1 = (s.findPreview buffer).1 := by
  cases hwords : Line.words .strict buffer with
  | error e => simp only [findPreview, hwords]
  | ok argv =>
      cases argv with
      | nil => simp only [findPreview, hwords]
      | cons word words =>
          rw [findPreview_ok hwords (List.cons_ne_nil word words),
            findPreview_ok hwords (List.cons_ne_nil word words), resolve_alike hfixed hsame]

/-- **What comes of a line depends on the commands and the line only.** -/
theorem reply_alike (hfixed : Fixed r.commands) (h : s.Over r) (h' : s'.Over r) (line : List Char) :
    (s'.reply line).output = (s.reply line).output ∧
      (s'.reply line).leaves = (s.reply line).leaves := by
  have hsame : s'.registry = s.registry := h'.registry.trans h.registry.symm
  have hfixed' : Fixed s.registry.commands := h.registry ▸ hfixed
  by_cases hasks : Asks line
  · rw [reply_of_asks hasks, reply_of_asks hasks]
    have hkept : ((s'.hints (buffer line)).2).registry = ((s.hints (buffer line)).2).registry := by
      rw [registry_hints, registry_hints, hsame]
    have hfixed'' : Fixed ((s.hints (buffer line)).2).registry.commands := by
      rw [registry_hints]
      exact hfixed'
    refine ⟨?_, rfl⟩
    dsimp only
    rw [(h.describe _).1, (h'.describe _).1, hints_alike hfixed' hsame,
      findPreview_alike hfixed'' hkept]
  · rw [reply_of_not_asks hasks, reply_of_not_asks hasks]
    have hanswer : (s'.submit (buffer line)).1 = (s.submit (buffer line)).1 := by
      rw [submit_eq, submit_eq, dispatch_alike hfixed' hsame]
    exact ⟨by rw [hanswer], by rw [hanswer]⟩

/-! ## Lines one after the other -/

/-- What is written for lines that do not leave the shell: the prompt and the answer to each. -/
def transcript (s : Shell) (prompt : String) (lines : List (List Char)) : String :=
  String.join (lines.map fun line => prompt ++ (s.reply line).output)

theorem runLines_cons_stays {line : List Char} (h : (s.reply line).leaves = false)
    (prompt : String) (rest : List (List Char)) :
    (s.runLines prompt (line :: rest)).1
      = prompt ++ (s.reply line).output ++ ((s.reply line).shell.runLines prompt rest).1 := by
  rw [runLines]
  simp only [h, Bool.false_eq_true, if_false]

/-- **Nothing is written behind a line that leaves the shell.** -/
theorem runLines_cons_leaves {line : List Char} (h : (s.reply line).leaves = true)
    (prompt : String) (rest : List (List Char)) :
    (s.runLines prompt (line :: rest)).1 = prompt ++ (s.reply line).output := by
  rw [runLines]
  simp only [h, if_true]

section

variable (hfixed : Fixed r.commands) {fresh : Shell} (hfresh : fresh.Over r) (prompt : String)

include hfixed hfresh

/-- What is written for lines does not depend on what the shell did before. -/
theorem runLines_alike (h : s.Over r) (lines : List (List Char)) :
    (s.runLines prompt lines).1 = (fresh.runLines prompt lines).1 := by
  -- On the lines: both shells are between two lines again after each.
  induction lines generalizing s fresh with
  | nil => rfl
  | cons line rest ih =>
      obtain ⟨houtput, hleaves⟩ := reply_alike hfixed hfresh h line
      cases hline : (fresh.reply line).leaves with
      | true =>
          rw [runLines_cons_leaves hline, runLines_cons_leaves (hleaves.trans hline), houtput]
      | false =>
          rw [runLines_cons_stays hline, runLines_cons_stays (hleaves.trans hline), houtput,
            ih (hfresh.reply line) (h.reply line)]

/-- **Lines that do not leave the shell are answered one by one**, as by a fresh shell, and what
follows them is answered as by another one. -/
theorem runLines_stays (h : s.Over r) {lines : List (List Char)}
    (hstays : ∀ line ∈ lines, (fresh.reply line).leaves = false) (rest : List (List Char)) :
    (s.runLines prompt (lines ++ rest)).1
      = fresh.transcript prompt lines ++ (fresh.runLines prompt rest).1 := by
  induction lines generalizing s with
  | nil =>
      rw [List.nil_append, runLines_alike hfixed hfresh prompt h]
      exact (String.empty_append).symm
  | cons line lines ih =>
      obtain ⟨hline, hlines⟩ := List.forall_mem_cons.mp hstays
      obtain ⟨houtput, hleaves⟩ := reply_alike hfixed hfresh h line
      rw [List.cons_append, runLines_cons_stays (hleaves.trans hline), houtput,
        ih (h.reply line) hlines]
      unfold transcript
      rw [List.map_cons, String.join_cons, ← String.append_assoc]

/-- **What follows a line that leaves the shell does not matter.** -/
theorem runLines_leaves (h : s.Over r) {lines : List (List Char)}
    (hleaves : ∃ line ∈ lines, (fresh.reply line).leaves = true) (rest rest' : List (List Char)) :
    (s.runLines prompt (lines ++ rest)).1 = (s.runLines prompt (lines ++ rest')).1 := by
  induction lines generalizing s with
  | nil =>
      obtain ⟨line, hmem, -⟩ := hleaves
      cases hmem
  | cons line lines ih =>
      have hsame := (reply_alike hfixed hfresh h line).2
      rw [List.cons_append, List.cons_append]
      cases hline : (fresh.reply line).leaves with
      | true =>
          rw [runLines_cons_leaves (hsame.trans hline), runLines_cons_leaves (hsame.trans hline)]
      | false =>
          have hlater : ∃ line ∈ lines, (fresh.reply line).leaves = true := by
            obtain ⟨leaving, hmem, hleaving⟩ := hleaves
            rcases List.mem_cons.mp hmem with rfl | hmem
            · cases hline.symm.trans hleaving
            · exact ⟨leaving, hmem, hleaving⟩
          rw [runLines_cons_stays (hsame.trans hline), runLines_cons_stays (hsame.trans hline),
            ih (h.reply line) hlater]

end

end Shell

/-! ## The lines of a script -/

/-- Every line of the text has its line break. -/
def Terminated (cs : List Char) : Prop := cs = [] ∨ cs.getLast? = some '\n'

theorem Terminated.tail {c : Char} {cs : List Char} (h : Terminated (c :: cs)) : Terminated cs := by
  by_cases hcs : cs = []
  · exact .inl hcs
  · rcases h with h | h
    · cases h
    · rw [List.getLast?_cons_of_ne_nil hcs] at h
      exact .inr h

theorem scriptLines_ne_nil {cs : List Char} (h : cs ≠ []) : scriptLines cs ≠ [] := by
  obtain ⟨c, rest, rfl⟩ := List.exists_cons_of_ne_nil h
  unfold scriptLines
  split
  · exact List.cons_ne_nil _ _
  · split <;> exact List.cons_ne_nil _ _

/-- **Behind a line break lines begin anew.** -/
theorem scriptLines_append {cs : List Char} (h : Terminated cs) (more : List Char) :
    scriptLines (cs ++ more) = scriptLines cs ++ scriptLines more := by
  induction cs with
  | nil => rfl
  | cons c cs ih =>
      by_cases hbreak : c = '\n'
      · rw [List.cons_append, scriptLines, scriptLines, if_pos hbreak, if_pos hbreak, ih h.tail]
        rfl
      · -- The line goes on, so the break is not the first character.
        have hne : cs ≠ [] := by
          rintro rfl
          rcases h with h | h
          · cases h
          · exact hbreak (Option.some.inj h)
        obtain ⟨line, later, hlines⟩ := List.exists_cons_of_ne_nil (scriptLines_ne_nil hne)
        rw [List.cons_append, scriptLines, scriptLines, if_neg hbreak, if_neg hbreak, ih h.tail,
          hlines]
        rfl

/-! ## Other actions -/

section

variable (f : Command → Invocation → Except Failure Outcome)

/-- The command with another action. -/
def Command.withAction (c : Command) : Command := { c with action := f c }

/-- The match, of the command with another action. -/
def CommandMatch.withAction (m : CommandMatch) : CommandMatch :=
  { m with command := m.command.withAction f }

/-- The resolution, to the command with another action. -/
def Resolution.withAction (x : Resolution) : Resolution :=
  { x with command := x.command.withAction f }

/-- The shell with other actions in all commands. -/
def Shell.withActions (s : Shell) : Shell :=
  { s with registry := ⟨s.registry.commands.map (Command.withAction f)⟩ }

theorem Registry.matchFrom_withAction (argv : List String) (index : Nat) (cs : List Command)
    (s : Session) :
    matchFrom argv index (cs.map (Command.withAction f)) s
      = ((matchFrom argv index cs s).1.map (CommandMatch.withAction f),
          (matchFrom argv index cs s).2) := by
  induction cs generalizing index s with
  | nil => rfl
  | cons c rest ih =>
      rw [List.map_cons, matchFrom_cons, matchFrom_cons, ih]
      simp only [List.map_append, List.map_map]
      rfl

theorem heaviest_withAction (ms : List CommandMatch) :
    heaviest (ms.map (CommandMatch.withAction f)) = (heaviest ms).map (CommandMatch.withAction f) := by
  unfold heaviest
  rw [List.filter_map, List.map_map]
  rfl

theorem distinctCommands_withAction (ms : List CommandMatch) :
    distinctCommands (ms.map (CommandMatch.withAction f))
      = (distinctCommands ms).map (CommandMatch.withAction f) := by
  -- Those of the first command are left out at once, so fewer matches are left.
  match ms with
  | [] => rfl
  | m :: ms =>
      rw [List.map_cons, distinctCommands_cons, distinctCommands_cons, List.map_cons,
        List.filter_map, ← distinctCommands_withAction]
      rfl
termination_by ms.length
decreasing_by exact Nat.lt_succ_of_le (List.length_filter_le _ _)

/-- **A line means the same command, whatever the actions are.** -/
theorem resolve_withAction (input : String) (ms : List CommandMatch) :
    resolve input (ms.map (CommandMatch.withAction f))
      = (resolve input ms).map (Resolution.withAction f) := by
  have hready : (ms.map (CommandMatch.withAction f)).filter (fun m => m.result.isInvokable)
      = (ms.filter fun m => m.result.isInvokable).map (CommandMatch.withAction f) := by
    rw [List.filter_map]
    rfl
  unfold resolve
  rw [hready, heaviest_withAction, List.isEmpty_map]
  cases ms.isEmpty with
  | true => rfl
  | false =>
      cases hbest : heaviest (ms.filter fun m => m.result.isInvokable) with
      | nil => rfl
      | cons winner others =>
          have hnames : ∀ ms : List CommandMatch,
              (ms.map (CommandMatch.withAction f)).map (fun m => m.command.name)
                = ms.map fun m => m.command.name := by
            intro ms
            rw [List.map_map]
            rfl
          simp only [Bool.false_eq_true, if_false, distinctCommands_withAction, hnames,
            List.length_map]
          show (if 1 < (distinctCommands (winner :: others)).length
              then _ else Except.ok (Resolution.ofMatch (winner.withAction f))) = _
          split_ifs
          · rfl
          · rfl

namespace Shell

variable {s : Shell}

theorem matchAll_withActions (argv : List String) :
    (s.withActions f).matchAll argv
      = ((s.matchAll argv).1.map (CommandMatch.withAction f), (s.matchAll argv).2.withActions f) := by
  unfold matchAll Registry.matchAll
  simp only [withActions, Registry.matchFrom_withAction]

theorem resolve_withActions (input : String) (argv : List String) :
    (s.withActions f).resolve input argv
      = ((s.resolve input argv).1.map (Resolution.withAction f),
          (s.resolve input argv).2.withActions f) := by
  unfold resolve Registry.resolve Registry.matchAll
  simp only [withActions, Registry.matchFrom_withAction, resolve_withAction]

theorem hints_withActions (buffer : String) :
    (s.withActions f).hints buffer = ((s.hints buffer).1, (s.hints buffer).2.withActions f) := by
  have hcollect : ∀ ms : List CommandMatch,
      Hint.collect (ms.map (CommandMatch.withAction f)) = Hint.collect ms := by
    intro ms
    unfold Hint.collect
    rw [List.filterMap_map]
    rfl
  unfold hints
  cases Line.words .tolerant buffer with
  | error e => rfl
  | ok tokens => simp only [matchAll_withActions, hcollect]

theorem findPreview_withActions (buffer : String) :
    (s.withActions f).findPreview buffer
      = ((s.findPreview buffer).1, (s.findPreview buffer).2.withActions f) := by
  unfold findPreview
  cases Line.words .strict buffer with
  | error e => rfl
  | ok argv =>
      cases argv with
      | nil => rfl
      | cons word words =>
          simp only [resolve_withActions]
          cases (s.resolve buffer (word :: words)).1 <;> rfl

theorem requestPreview_withActions (buffer : String) :
    (s.withActions f).requestPreview buffer
      = ((s.requestPreview buffer).1, (s.requestPreview buffer).2.withActions f) := by
  unfold requestPreview
  rw [findPreview_withActions]
  obtain ⟨found, s'⟩ := s.findPreview buffer
  cases found <;> rfl

/-- **A line that is described invokes no action**: with other actions the same is written. -/
theorem describe_withActions (buffer : String) :
    (s.withActions f).describe buffer
      = ((s.describe buffer).1, (s.describe buffer).2.withActions f) := by
  unfold describe
  rw [hints_withActions]
  obtain ⟨report, s₁⟩ := s.hints buffer
  dsimp only
  cases report.parseError with
  | some e => rfl
  | none =>
      dsimp only
      rw [requestPreview_withActions]
      obtain ⟨requested, s₂⟩ := s₁.requestPreview buffer
      cases requested <;> rfl

/-- **A line that asks for a description invokes no action.** -/
theorem reply_withActions {line : List Char} (h : Asks line) :
    (s.withActions f).reply line
      = ⟨(s.reply line).output, false, (s.reply line).shell.withActions f⟩ := by
  rw [reply_of_asks h, reply_of_asks h, describe_withActions]

end Shell

end

/-! ## Sessions -/

/-- **A session is the concatenation of its lines.** In a shell that was made and then used in any
way, with providers that do not change their answers, every line is answered as by a renewed shell.
Let all lines of a script end in a line break. If none of them leaves the shell, then the script
gives the answers of a renewed shell to its lines, each behind a prompt, and a last prompt; and if
more lines follow, what they give in a renewed shell takes the place of that prompt. If one of them
leaves the shell, what follows makes no difference. A line that ends in a question mark does not
leave the shell and invokes no action: with other actions, the same is written. -/
theorem session_concatenates {s : Shell} (hreached : s.Reached)
    (hfixed : Fixed s.registry.commands) (prompt : String) (calls : CallLog) :
    let fresh := s.renewed calls
    (∀ line, (s.reply line).output = (fresh.reply line).output ∧
      (s.reply line).leaves = (fresh.reply line).leaves) ∧
    (∀ script more : String, Terminated script.toList →
      ((∀ line ∈ scriptLines script.toList, (fresh.reply line).leaves = false) →
        let answers := fresh.transcript prompt (scriptLines script.toList)
        (s.runScript prompt script).1 = answers ++ prompt ∧
          (s.runScript prompt (script ++ more)).1
            = answers ++ (fresh.runScript prompt more).1) ∧
      ((∃ line ∈ scriptLines script.toList, (fresh.reply line).leaves = true) →
        ∀ more', (s.runScript prompt (script ++ more)).1
          = (s.runScript prompt (script ++ more')).1)) ∧
    ∀ line, Shell.Asks line → (s.reply line).leaves = false ∧
      ∀ f, (s.withActions f).reply line
        = ⟨(s.reply line).output, false, (s.reply line).shell.withActions f⟩ := by
  intro fresh
  have hover : s.Over s.registry := hreached.over
  have hfresh : fresh.Over s.registry := Shell.over_renewed s calls
  refine ⟨?_, ?_, ?_⟩
  · exact fun line => Shell.reply_alike hfixed hfresh hover line
  · intro script more hterminated
    have hlines : ∀ more : String, scriptLines (script ++ more).toList
        = scriptLines script.toList ++ scriptLines more.toList := by
      intro more
      rw [String.toList_append, scriptLines_append hterminated]
    refine ⟨?_, ?_⟩
    · intro hstays answers
      refine ⟨?_, ?_⟩
      · have hend := Shell.runLines_stays hfixed hfresh prompt hover hstays []
        rw [List.append_nil] at hend
        exact hend
      · unfold Shell.runScript
        rw [hlines more]
        exact Shell.runLines_stays hfixed hfresh prompt hover hstays _
    · intro hleaves more'
      unfold Shell.runScript
      rw [hlines more, hlines more']
      exact Shell.runLines_leaves hfixed hfresh prompt hover hleaves _ _
  · intro line hasks
    refine ⟨?_, fun f => Shell.reply_withActions f hasks⟩
    rw [Shell.reply_of_asks hasks]

/-- A preview is shown and a line is submitted, and then the shell is left. -/
theorem session_concatenates_topic :
    topicShell.Reached ∧ Fixed topicShell.registry.commands ∧
    Terminated "help me?\nhelp you\n".toList ∧
    (∀ line ∈ scriptLines "help me?\nhelp you\n".toList,
      ((topicShell.renewed []).reply line).leaves = false) ∧
    (∃ answers, (topicShell.runScript "> " "help me?\nhelp you\n").1 = answers ++ "> " ∧
      (topicShell.runScript "> " ("help me?\nhelp you\n" ++ "exit\nhelp me?\n")).1
        = answers ++ ((topicShell.renewed []).runScript "> " "exit\nhelp me?\n").1) ∧
    Terminated "exit\n".toList ∧
    (∃ line ∈ scriptLines "exit\n".toList,
      ((topicShell.renewed []).reply line).leaves = true) ∧
    (topicShell.runScript "> " ("exit\n" ++ "help me?\n")).1
      = (topicShell.runScript "> " ("exit\n" ++ "")).1 ∧
    Shell.Asks "help me?".toList ∧ (topicShell.reply "help me?".toList).leaves = false := by
  have hreached : topicShell.Reached :=
    ⟨topicShell.registry, ⟨3, 2⟩, [], topicShell, [], rfl, .start⟩
  have hfixed : Fixed topicShell.registry.commands := by
    have hproviders : topicShell.registry.commands.flatMap Command.providers = [] := by cbv
    rw [Fixed, hproviders]
    simp
  have hasks : Shell.Asks "help me?".toList := by cbv
  have hanswers : (Shell.submitted ((topicShell.renewed []).submit "help you").1).2 = false ∧
      (Shell.submitted ((topicShell.renewed []).submit "exit").1).2 = true := by
    have hhelp : Line.words .strict "help you" = .ok ["help", "you"] := by cbv
    have hexit : Line.words .strict "exit" = .ok ["exit"] := by cbv
    rw [Shell.submit_eq, Shell.submit_eq, Shell.dispatch_ok hhelp (by simp),
      Shell.dispatch_ok hexit (by simp)]
    simp only [topicShell, Shell.renewed, Shell.resolve, Registry.resolve, Registry.matchAll,
      Registry.matchFrom, Session.matches, Match.distinct_eq_eraseDupsBy]
    decide +kernel
  have hstays : ∀ line ∈ scriptLines "help me?\nhelp you\n".toList,
      ((topicShell.renewed []).reply line).leaves = false := by
    have hlines : scriptLines "help me?\nhelp you\n".toList
        = ["help me?".toList, "help you".toList] := by cbv
    have hsubmitted : ¬ Shell.Asks "help you".toList := by decide +kernel
    have htext : Shell.buffer "help you".toList = "help you" := by decide +kernel
    rw [hlines, List.forall_mem_cons, List.forall_mem_singleton, Shell.reply_of_asks hasks,
      Shell.reply_of_not_asks hsubmitted, htext]
    exact ⟨rfl, hanswers.1⟩
  have hleaves : ∃ line ∈ scriptLines "exit\n".toList,
      ((topicShell.renewed []).reply line).leaves = true := by
    have hlines : scriptLines "exit\n".toList = ["exit".toList] := by cbv
    have hsubmitted : ¬ Shell.Asks "exit".toList := by decide +kernel
    have htext : Shell.buffer "exit".toList = "exit" := by decide +kernel
    refine ⟨"exit".toList, by rw [hlines]; exact List.mem_singleton_self _, ?_⟩
    rw [Shell.reply_of_not_asks hsubmitted, htext]
    exact hanswers.2
  have hstaying : Terminated "help me?\nhelp you\n".toList := .inr (by cbv)
  have hleaving : Terminated "exit\n".toList := .inr (by cbv)
  obtain ⟨-, hscripts, hasking⟩ := session_concatenates hreached hfixed "> " []
  exact ⟨hreached, hfixed, hstaying, hstays, ⟨_, (hscripts _ _ hstaying).1 hstays⟩, hleaving,
    hleaves, (hscripts _ _ hleaving).2 hleaves _, hasks, (hasking _ hasks).1⟩

end CommandGrammar
