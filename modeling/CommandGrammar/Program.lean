import CommandGrammar.CommandLine.Routing
import CommandGrammar.Config.Commands
import CommandGrammar.Config.Loader

/-!
# `CommandGrammar.Program` — the whole program

The program reads its arguments, then its configuration, and makes a shell of that; only then does
the subcommand look at the standard input.

## Contents
- `Program.World`: what the program finds when it is started.
- `Program.sources`: where it looks for configurations.
- `Program.Job`, `Program.start`: what is left to do once arguments and configuration are read.
- `Program.run`: what the program leaves behind.
-/

namespace CommandGrammar
namespace Program

/-- What the program finds when it is started, its input apart. -/
structure World where
  files : Config.Files
  home : Option String
  /-- The working directory. -/
  directory : String

/-- What is shown for arguments that cannot be read. -/
def usage : String :=
  "usage: cmdgraph [--config <CONFIG>] [--log-level <LOG_LEVEL>] <COMMAND>\n\n" ++
  "Commands:\n" ++
  "  shell     Interactive line shell; end a line with '?' for hints\n" ++
  "  hint      Print hints for a partial line as JSON\n" ++
  "  run       Resolve and dispatch a single command line\n" ++
  "  commands  List every registered command\n"

/-- What is left behind if the arguments start nothing. -/
def refusal : CommandLine.Refusal → Output
  | .usage => ⟨2, "", usage⟩
  | .help => ⟨0, usage, ""⟩
  | .version => ⟨0, "cmdgraph 0.1.0\n", ""⟩

/-- What is left behind if there is no shell to run. -/
def configFailure (e : Config.Error) : Output :=
  ⟨2, "", "cmdgraph: config error: " ++ e.message ++ "\n"⟩

/-- The places in which to look for configurations, for the given home, working directory and
arguments; nowhere if the arguments start nothing. -/
def sources (home : Option String) (directory : String) (args : List String) : Config.Sources :=
  match CommandLine.read args with
  | .ok c => Config.Sources.ofPlaces home directory c.config
  | .error _ => ⟨none, none, []⟩

/-- The shell of a configuration. -/
def shellOf (c : Config) : Except Config.Error Shell := do
  let (registry, supply) ← c.toRegistry ⟨0, 0⟩
  match Shell.ofRegistry registry supply [] with
  | .ok s => return s
  | .error e => throw (.scheme e)

/-- What is left to do once arguments and configuration are read. -/
structure Job where
  subcommand : Subcommand
  prompt : String
  shell : Shell

/-- The job of a subcommand under the merged configuration. -/
def Job.ofConfig (c : Config) (subcommand : Subcommand) : Except Config.Error Job := do
  return ⟨subcommand, c.promptText, ← shellOf c⟩

/-- Do the job on a standard input. -/
def Job.run (j : Job) (stdin : String) : Output :=
  (j.subcommand.route j.shell j.prompt stdin).1

/-- Read arguments and configuration; on failure, what is left behind. -/
def start (w : World) (args : List String) : Except Output Job :=
  match CommandLine.read args with
  | .error r => .error (refusal r)
  | .ok c =>
    let job := do
      let config ← Config.load w.files (sources w.home w.directory args)
      Job.ofConfig config c.subcommand
    job.mapError configFailure

/-- What the program leaves behind. -/
def run (w : World) (args : List String) (stdin : String) : Output :=
  match start w args with
  | .error o => o
  | .ok job => job.run stdin

end Program
end CommandGrammar
