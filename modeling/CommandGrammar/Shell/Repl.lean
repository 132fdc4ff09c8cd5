import CommandGrammar.Shell.Basic

/-!
# `CommandGrammar.Shell.Repl` — a shell that reads lines

A line that ends in a question mark is described: its hints, and its preview if it has one. Any
other line is submitted.

## Contents
- `Shell.describe`, `Shell.reply`: what is written after a line.
- `Shell.runLines`: prompt and answer, line after line.
- `scriptLines`, `Shell.runScript`: a whole input.
-/

namespace CommandGrammar
namespace Shell

/-- Lines of text, each with its end. -/
def printed (lines : List String) : String := String.join (lines.map (· ++ "\n"))

/-- What is written about a line that is described. -/
def describe (s : Shell) (buffer : String) : String × Shell :=
  let (report, s) := s.hints buffer
  match report.parseError with
  | some e => (printed ["  parse error: " ++ e], s)
  | none =>
    let about :=
      if report.hints.isEmpty then ["  no matching command"]
      else report.hints.map fun h => "  " ++ h.line
    let (requested, s) := s.requestPreview buffer
    if requested then
      let (preview, s) := s.deliverPreviews.waitPreview
      (printed (about ++ (preview.map ("  preview: " ++ ·)).toList), s)
    else (printed about, s)

/-- What comes after a line. -/
structure Reply where
  output : String
  /-- The shell is left. -/
  leaves : Bool
  shell : Shell

/-- The line without the line breaks at its end. -/
def withoutBreaks (line : List Char) : List Char :=
  (line.reverse.dropWhile fun c => c == '\n' || c == '\r').reverse

/-- The answer to a line. -/
def reply (s : Shell) (line : List Char) : Reply :=
  let text := withoutBreaks line
  if text.getLast? = some '?' then
    let (output, s) := s.describe (String.ofList text.dropLast)
    ⟨output, false, s⟩
  else
    match s.submit (String.ofList text) with
    | (.ok (.text answer), s) => ⟨printed [answer], false, s⟩
    | (.ok .silent, s) => ⟨"", false, s⟩
    | (.ok .exit, s) => ⟨"", true, s⟩
    | (.error e, s) => ⟨printed ["error: " ++ e.message], false, s⟩

/-- Everything that is written for the given lines: before each of them, and before the end of the
input, the prompt. -/
def runLines (prompt : String) : Shell → List (List Char) → String × Shell
  | s, [] => (prompt, s)
  | s, line :: rest =>
    let r := s.reply line
    if r.leaves then (prompt ++ r.output, r.shell)
    else
      let (output, s) := runLines prompt r.shell rest
      (prompt ++ r.output ++ output, s)

end Shell

/-- The lines of a script without their line breaks; what follows the last break is a line unless it
is empty. -/
def scriptLines : List Char → List (List Char)
  | [] => []
  | c :: rest =>
    if c = '\n' then [] :: scriptLines rest
    else
      match scriptLines rest with
      | [] => [[c]]
      | line :: later => (c :: line) :: later

/-- Everything that is written for a script. -/
def Shell.runScript (s : Shell) (prompt : String) (script : String) : String × Shell :=
  s.runLines prompt (scriptLines script.toList)

end CommandGrammar
