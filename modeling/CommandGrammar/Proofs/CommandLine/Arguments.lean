import CommandGrammar.CommandLine.Routing
import CommandGrammar.Proofs.Line.Quoting
import CommandGrammar.Proofs.Resolution.Bindings
import CommandGrammar.Proofs.Shell.Agreement

/-!
# `Proofs.CommandLine.Arguments` — arguments that arrive as they were given

The arguments of `run` are words already. They are written into a line, and the shell splits the
line again. Nothing is lost on the way: a written word has a reading whose value is the word, for
whatever stands in it, and one space between the words is a gap.

A word in single quotes is one piece up to its first single quote; from there on it is a literal
quote and a new piece in single quotes. The induction is on the word behind the opening quote, with
what stands between the two already collected (`word_quoted`).

## Contents
- `word_plain`, `word_quoted`, `word_quoteChars`: a written word is a word.
- `reads_joinChars`: a written line has its words, and no blanks behind them.
- `Shell.dispatch_of_words`: what becomes of a line with words.
- `Output.Reports`, `Subcommand.runLine_of_dispatch`: what is left behind by a line that was run.
- `arguments_arrive`.
-/

namespace CommandGrammar

namespace Line

/-! ## Written words -/

/-- A word without blanks, quotes and backslashes is its own value, character by character. -/
theorem word_plain {cs : List Char} (hne : cs ≠ []) (h : ∀ c ∈ cs, Literal c)
    (rest : List Char) : Word cs cs rest := by
  induction cs with
  | nil => exact absurd rfl hne
  | cons c cs ih =>
      obtain ⟨⟨hblank, hsingle, hdouble, hback⟩, hcs⟩ := List.forall_mem_cons.mp h
      by_cases hlast : cs = []
      · subst hlast
        exact .last (.plain hblank hsingle hdouble hback)
      · exact .more (.plain hblank hsingle hdouble hback) (ih hlast hcs)

@[simp] theorem quotedChars_nil : quotedChars [] = [] := rfl

theorem quotedChars_quote (cs : List Char) :
    quotedChars ('\'' :: cs) = ['\''] ++ ['\\', '\''] ++ '\'' :: quotedChars cs := rfl

theorem quotedChars_cons {c : Char} (hc : c ≠ '\'') (cs : List Char) :
    quotedChars (c :: cs) = c :: quotedChars cs := by
  simp [quotedChars, hc]

/-- Behind an opening quote and a text without quotes, the quoted rest and a closing quote complete
a word. -/
theorem word_quoted {acc : List Char} (hacc : '\'' ∉ acc) (cs rest : List Char) :
    Word ('\'' :: acc ++ quotedChars cs ++ ['\'']) (acc ++ cs) rest := by
  induction cs generalizing acc with
  | nil =>
      have hpiece : Piece ('\'' :: acc ++ ['\'']) acc rest := .single hacc
      simpa using Word.last hpiece
  | cons c cs ih =>
      by_cases hc : c = '\''
      · subst hc
        -- The quotes are closed, a quote is escaped, and the quotes are opened again.
        have hreopened : Word ('\'' :: quotedChars cs ++ ['\'']) cs rest := by
          have hopened : '\'' ∉ ([] : List Char) := List.not_mem_nil
          simpa using ih hopened
        have hescaped : Word (['\\', '\''] ++ ('\'' :: quotedChars cs ++ ['\''])) (['\''] ++ cs)
            rest := .more (.literal (by decide)) hreopened
        have hword := Word.more (Piece.single hacc) hescaped
        simpa [quotedChars_quote] using hword
      · have hlonger : '\'' ∉ acc ++ [c] := by simp [hacc, Ne.symm hc]
        have hword := ih hlonger
        simpa [quotedChars_cons hc] using hword

/-- **A written word is a word with that value**, whatever follows it. -/
theorem word_quoteChars (cs rest : List Char) : Word (quoteChars cs) cs rest := by
  unfold quoteChars
  by_cases hplain : isPlain cs = true
  · rw [if_pos hplain]
    obtain ⟨hne, hliteral⟩ := isPlain_iff.mp hplain
    exact word_plain hne hliteral rest
  · rw [if_neg hplain]
    have hopened : '\'' ∉ ([] : List Char) := List.not_mem_nil
    simpa using word_quoted hopened cs rest

/-! ## Written lines -/

theorem words_joinChars (first : List Char) (later : List (List Char)) :
    Words (joinChars (first :: later)) (first :: later) [] := by
  induction later generalizing first with
  | nil => simpa [joinChars] using Words.last (word_quoteChars first [])
  | cons second later ih =>
      have hgap : Blanks [' '] := by
        intro c hc
        rw [List.mem_singleton.mp hc]
        decide
      have hwords := Words.more (word_quoteChars first _) hgap (by simp) (ih second)
      simpa [joinChars, List.intercalate] using hwords

/-- **A written line has the words that were written**, and no blanks behind them. -/
theorem reads_joinChars (args : List (List Char)) : Reads (joinChars args) args [] [] := by
  cases args with
  | nil => exact .blanks Blanks.nil
  | cons first later =>
      have hwords : Words (joinChars (first :: later)) (first :: later) ([] ++ []) :=
        words_joinChars first later
      simpa using Reads.words Blanks.nil hwords Blanks.nil

/-- **Writing words and splitting the line again gives the words**, in whichever mode. -/
theorem words_join (mode : Mode) (args : List String) : words mode (join args) = .ok args := by
  refine words_eq_ok_iff.mpr ⟨args.map String.toList, [], ?_, ?_⟩
  · simpa [join] using reads_joinChars (args.map String.toList)
  · simp [readWords]

end Line

/-! ## Lines that are run -/

/-- What becomes of a line with words is what becomes of its resolution. -/
theorem Shell.dispatch_of_words {s : Shell} {line : String} {argv : List String}
    (h : Line.words .strict line = .ok argv) (hne : argv ≠ []) :
    s.dispatch line = (answer line argv (s.resolve line argv).1, (s.resolve line argv).2) := by
  refine Prod.ext (dispatch_ok h hne) ?_
  obtain ⟨word, words, rfl⟩ := List.exists_cons_of_ne_nil hne
  simp only [dispatch, h]
  cases (s.resolve line (word :: words)).1 with
  | error e => rfl
  | ok r =>
      dsimp only
      cases r.command.action (r.invocation line (word :: words)) <;> rfl

/-- What is left behind by a line that was run: its answer is written, and a failure ends the
program with code 1. -/
inductive Output.Reports : Output → Except Shell.Error Outcome → Prop
  | text (reply : String) : Reports ⟨0, reply ++ "\n", ""⟩ (.ok (.text reply))
  | silent : Reports ⟨0, "", ""⟩ (.ok .silent)
  | exit : Reports ⟨0, "", ""⟩ (.ok .exit)
  | failure (e : Shell.Error) : Reports ⟨1, "", "cmdgraph: " ++ e.message ++ "\n"⟩ (.error e)

/-- **A line that is run is dispatched, and what comes of it is reported.** -/
theorem Subcommand.runLine_of_dispatch {s s' : Shell} {line : String}
    {answer : Except Shell.Error Outcome} (h : s.dispatch line = (answer, s')) :
    ∃ output, output.Reports answer ∧ runLine s line = (output, s') := by
  unfold runLine
  rw [h]
  cases answer with
  | error e => exact ⟨_, .failure e, rfl⟩
  | ok outcome =>
      cases outcome with
      | text reply => exact ⟨_, .text reply, rfl⟩
      | silent => exact ⟨_, .silent, rfl⟩
      | exit => exact ⟨_, .exit, rfl⟩

/-- **Arguments arrive as they were given.** A line that is written from arguments has them as its
words, submitted or still edited, whatever stands in them. If there are any, `run` dispatches that
line and reports what comes of it. If the arguments mean a command, that command is invoked with
just these arguments; otherwise the line is refused like the arguments are. -/
theorem arguments_arrive (args : List String) :
    (∀ mode, Line.words mode (Line.join args) = .ok args) ∧
    (args ≠ [] → ∀ (s : Shell) (prompt stdin : String),
      (∀ r s', s.resolve (Line.join args) args = (.ok r, s') →
        ∃ i : Invocation, i.argv = args ∧ i.input = Line.join args ∧
          i.command = r.command.name ∧ i.bindings = r.bindings ∧ i.segments = r.segments ∧
          s.dispatch (Line.join args) = ((r.command.action i).mapError .failed, s') ∧
          ∃ output : Output, output.Reports ((r.command.action i).mapError .failed) ∧
            (Subcommand.run args).route s prompt stdin = (output, s')) ∧
      ∀ e s', s.resolve (Line.join args) args = (.error e, s') →
        s.dispatch (Line.join args) = (.error (.unresolved e), s') ∧
        (Subcommand.run args).route s prompt stdin
          = (⟨1, "", "cmdgraph: " ++ e.message ++ "\n"⟩, s')) := by
  refine ⟨fun mode => Line.words_join mode args, fun hne s prompt stdin => ?_⟩
  have hdispatch : ∀ {resolved s'}, s.resolve (Line.join args) args = (resolved, s') →
      s.dispatch (Line.join args) = (Shell.answer (Line.join args) args resolved, s') := by
    intro resolved s' hresolve
    rw [Shell.dispatch_of_words (Line.words_join .strict args) hne, hresolve]
  constructor
  · intro r s' hresolve
    have hanswer := hdispatch hresolve
    exact ⟨_, rfl, rfl, rfl, rfl, rfl, hanswer, Subcommand.runLine_of_dispatch hanswer⟩
  · intro e s' hresolve
    have hanswer := hdispatch hresolve
    obtain ⟨output, hreports, hrun⟩ := Subcommand.runLine_of_dispatch hanswer
    refine ⟨hanswer, ?_⟩
    cases hreports with
    | failure e' => exact hrun

/-- A shell with one command, `say <text...>`. -/
def sayShell : Shell :=
  let scheme : Scheme SegmentId := [.keyword ⟨0, "say", none⟩,
    .var ⟨1, "text", none, [], none, true, none, none⟩]
  ⟨⟨[⟨"say", none, scheme, (Graph.compile 0 scheme).1, fun i => .ok (.text (toString i.argv)),
    none⟩]⟩, .none, []⟩

/-- A quote, an empty argument and a line break arrive: the command shows what it was given. -/
theorem arguments_arrive_say : ["say", "it's", "", "a\nb"] ≠ [] ∧
    Line.words .strict (Line.join ["say", "it's", "", "a\nb"]) = .ok ["say", "it's", "", "a\nb"] ∧
    ((Subcommand.run ["say", "it's", "", "a\nb"]).route sayShell "> " "").1
      = ⟨0, "[say, it's, , a\nb]\n", ""⟩ := by
  have hne : ["say", "it's", "", "a\nb"] ≠ [] := by simp
  have harrive := arguments_arrive ["say", "it's", "", "a\nb"]
  have hresolve : (sayShell.resolve (Line.join ["say", "it's", "", "a\nb"])
      ["say", "it's", "", "a\nb"]).1.map Resolution.index = .ok 0 := by
    simp only [sayShell, Shell.resolve, Registry.resolve, Registry.matchAll, Registry.matchFrom,
      Session.matches, Match.distinct_eq_eraseDupsBy]
    decide +kernel
  refine ⟨hne, harrive.1 .strict, ?_⟩
  cases hr : (sayShell.resolve (Line.join ["say", "it's", "", "a\nb"])
      ["say", "it's", "", "a\nb"]).1 with
  | error e =>
      rw [hr] at hresolve
      cases hresolve
  | ok r =>
      obtain ⟨i, hargv, -, -, -, -, -, output, hreports, hroute⟩ :=
        (harrive.2 hne sayShell "> " "").1 r _ (Prod.ext hr rfl)
      have hcommand : r.command.action i = .ok (.text (toString i.argv)) := by
        have hregistry : (sayShell.registry.resolve (Line.join ["say", "it's", "", "a\nb"])
            ["say", "it's", "", "a\nb"] []).1 = .ok r := hr
        have hget := (Registry.resolve_ok hregistry).1
        rw [hr] at hresolve
        rw [show r.index = 0 from Except.ok.inj hresolve] at hget
        rw [← Option.some.inj hget]
      rw [hcommand, hargv] at hreports
      rw [hroute]
      cases hreports
      rfl

end CommandGrammar
