import CommandGrammar.CommandLine.Basic
import CommandGrammar.Shell.Repl

/-!
# `CommandGrammar.CommandLine.Routing` — what a subcommand does

## Contents
- `Output`: what the program leaves behind.
- `Subcommand.route`: a subcommand on a shell.
-/

namespace CommandGrammar

/-- What the program leaves behind. -/
structure Output where
  code : Nat
  stdout : String
  stderr : String
  deriving Repr, DecidableEq

namespace Subcommand

/-- Run a line: an answer is written, a failure ends with code 1. -/
def runLine (s : Shell) (line : String) : Output × Shell :=
  match s.dispatch line with
  | (.ok (.text reply), s) => (⟨0, reply ++ "\n", ""⟩, s)
  | (.ok _, s) => (⟨0, "", ""⟩, s)
  | (.error e, s) => (⟨1, "", "cmdgraph: " ++ e.message ++ "\n"⟩, s)

/-- Do what a subcommand says. -/
def route (s : Shell) (prompt stdin : String) : Subcommand → Output × Shell
  | .shell =>
    let (stdout, s) := s.runScript prompt stdin
    (⟨0, stdout, ""⟩, s)
  | .hint line =>
    let (report, s) := s.hints line
    (⟨0, report.toJson.pretty ++ "\n", ""⟩, s)
  | .run args => runLine s (Line.join args)
  | .commands => (⟨0, Shell.printed (s.registry.listing.map Listing.line), ""⟩, s)

end Subcommand
end CommandGrammar
