import CommandGrammar.Program

/-!
# `CommandGrammar.Main` — the command line

Reads the environment, the files and the standard input, and prints. All decisions are made in
`CommandGrammar.Program` and below it.
-/

namespace CommandGrammar

/-- What stands at a path. -/
def entryAt (path : String) : IO (Option Config.FileEntry) := do
  match ← (IO.FS.readFile path).toBaseIO with
  | .ok content => return some (.file content)
  | .error (.noFileOrDirectory ..) => return none
  | .error _ => return some .unreadable

/-- Print what the program leaves behind, and end with its code. -/
def Output.print (o : Output) : IO UInt32 := do
  IO.print o.stdout
  IO.eprint o.stderr
  return o.code.toUInt32

/-- Prompt for lines and answer each as it comes, until the shell is left or the input ends. -/
partial def converse (prompt : String) (stdin stdout : IO.FS.Stream) (s : Shell) : IO Unit := do
  stdout.putStr prompt
  stdout.flush
  let line ← stdin.getLine
  if line.isEmpty then return
  let r := s.reply line.toList
  stdout.putStr r.output
  unless r.leaves do converse prompt stdin stdout r.shell

end CommandGrammar

open CommandGrammar in
/-- Run the program in the world that it finds. -/
def main (args : List String) : IO UInt32 := do
  let home ← IO.getEnv "HOME"
  let directory ← try pure (← IO.currentDir).toString catch _ => pure "."
  let entries ← (Program.sources home directory args).paths.mapM fun path =>
    return (path, ← entryAt path)
  match Program.start ⟨fun path => (entries.lookup path).join, home, directory⟩ args with
  | .error o => o.print
  | .ok job =>
    match job.subcommand with
    | .shell =>
      converse job.prompt (← IO.getStdin) (← IO.getStdout) job.shell
      return 0
    | _ => (job.run "").print
