import CommandGrammar.Line
import CommandGrammar.Resolution.Basic
import CommandGrammar.Shell.Builtin
import CommandGrammar.Shell.Hint
import CommandGrammar.Shell.Preview

/-!
# `CommandGrammar.Shell.Basic` — lines to commands

Whatever asks providers or moves previews answers with the shell after it.

## Contents
- `Shell`, `Shell.ofRegistry`.
- `Shell.hints`, `Shell.autocomplete`: for a line that is being edited.
- `Shell.dispatch`, `Shell.submit`: for a line that was entered; `Shell.Error` for one that fails.
- `Shell.requestPreview`, `Shell.pollPreview`, `Shell.waitPreview`.
-/

namespace CommandGrammar

/-- Commands, previews, and the providers asked so far. -/
structure Shell where
  registry : Registry
  previews : Previews
  calls : CallLog

namespace Shell

/-- Why a line fails. -/
inductive Error where
  | unresolved (cause : Resolution.Error)
  | unreadable (cause : Line.Error)
  | failed (cause : Failure)
  deriving Repr, DecidableEq

/-- The text shown for a line that fails. -/
def Error.message : Error → String
  | .unresolved cause => cause.message
  | .unreadable cause => "parse error: " ++ cause.message
  | .failed cause => "command failed: " ++ cause.message

/-- A shell over a registry, with `help` and `exit`. -/
def ofRegistry (r : Registry) (supply : Supply) (calls : CallLog) : Except Scheme.Error Shell := do
  let (registry, _) ← r.withBuiltins supply
  return ⟨registry, Previews.none, calls⟩

/-- All matches of words. -/
def matchAll (s : Shell) (argv : List String) : List CommandMatch × Shell :=
  let (ms, calls) := s.registry.matchAll argv s.calls
  (ms, { s with calls })

/-- The command that words mean. -/
def resolve (s : Shell) (input : String) (argv : List String) :
    Except Resolution.Error Resolution × Shell :=
  let (r, calls) := s.registry.resolve input argv s.calls
  (r, { s with calls })

/-! ## Lines being edited -/

/-- What can follow a line. A line that cannot be read has a report too. -/
def hints (s : Shell) (buffer : String) : HintReport × Shell :=
  match Line.words .tolerant buffer with
  | .error e => (⟨[], [], some e.message⟩, s)
  | .ok tokens =>
    let (ms, s) := s.matchAll tokens
    (⟨tokens, Hint.collect ms, none⟩, s)

/-- The candidates that a match offers for the last of `count` words: none unless it is partial and
ended on that word. -/
def offered (count : Nat) (m : CommandMatch) : List String :=
  if m.result.isPartial && m.result.path.length == count then
    match m.result.last? with
    | some v => v.candidates
    | none => []
  else []

/-- The text without the given end, if it has that end. -/
def withoutEnd? (text ending : List Char) : Option (List Char) :=
  if ending.reverse.isPrefixOf text.reverse then some (text.take (text.length - ending.length))
  else none

/-- A candidate as it is written into the line. -/
def completion (candidate : String) : String :=
  if candidate.toList.any Text.isBlank then "'" ++ candidate ++ "'" else candidate

/-- The line with its last word completed, if exactly one candidate extends it. The word must stand
in the line as it is. -/
def autocomplete (s : Shell) (buffer : String) : Option String × Shell :=
  match Line.words .tolerant buffer with
  | .error _ => (none, s)
  | .ok tokens =>
    let last := tokens.getLast?.getD ""
    let (ms, s) := s.matchAll tokens
    let extending := (ms.flatMap (offered tokens.length)).filter fun c =>
      startsWith c last && c != last
    match extending.eraseDups with
    | [only] =>
      ((withoutEnd? buffer.toList last.toList).map fun stem =>
        String.ofList stem ++ completion only ++ " ", s)
    | _ => (none, s)

/-! ## Entered lines -/

/-- Run the command that a line means; an empty line means nothing. -/
def dispatch (s : Shell) (line : String) : Except Error Outcome × Shell :=
  match Line.words .strict line with
  | .error e => (.error (.unreadable e), s)
  | .ok [] => (.ok .silent, s)
  | .ok argv =>
    let (resolved, s) := s.resolve line argv
    match resolved with
    | .error e => (.error (.unresolved e), s)
    | .ok r =>
      match r.command.action (r.invocation line argv) with
      | .ok outcome => (.ok outcome, s)
      | .error f => (.error (.failed f), s)

/-- Run the command that a line means; that a line is unknown is an answer, not an error. -/
def submit (s : Shell) (line : String) : Except Error Outcome × Shell :=
  match s.dispatch line with
  | (.error (.unresolved (.unknownCommand input)), s) =>
    (.ok (.text (Resolution.Error.unknownCommand input).message), s)
  | answer => answer

/-! ## Previews -/

/-- What computes the preview of a line, if the line means a command that has one. -/
def findPreview (s : Shell) (buffer : String) : Option (Option String) × Shell :=
  match Line.words .strict buffer with
  | .error _ | .ok [] => (none, s)
  | .ok argv =>
    let (resolved, s) := s.resolve buffer argv
    match resolved with
    | .error _ => (none, s)
    | .ok r => (r.command.preview.map fun p => p (r.invocation buffer argv), s)

/-- Request the preview of a line, or else make earlier requests stale; whether one was
requested. -/
def requestPreview (s : Shell) (buffer : String) : Bool × Shell :=
  match s.findPreview buffer with
  | (some text, s) => (true, { s with previews := s.previews.request text })
  | (none, s) => (false, { s with previews := s.previews.cancel })

/-- Let all requested previews arrive. -/
def deliverPreviews (s : Shell) : Shell := { s with previews := s.previews.deliverAll }

/-- Take the latest preview, if it has arrived. -/
def pollPreview (s : Shell) : Option String × Shell :=
  let (text, previews) := s.previews.poll
  (text, { s with previews })

/-- Wait for the latest preview. -/
def waitPreview (s : Shell) : Option String × Shell :=
  let (text, previews) := s.previews.wait
  (text, { s with previews })

end Shell
end CommandGrammar
