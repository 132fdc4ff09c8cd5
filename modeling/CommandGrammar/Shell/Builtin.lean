import CommandGrammar.Command

/-!
# `CommandGrammar.Shell.Builtin` — commands that every shell has

## Contents
- `Listing`, `Registry.listing`: one line of help per command.
- `helpText`: the reply of `help`.
- `Registry.withBuiltins`: a registry with `help` and `exit`.
-/

namespace CommandGrammar

/-- What help says about a command. -/
structure Listing where
  name : String
  usage : String
  comment : Option String
  deriving Repr, DecidableEq

/-- A line of help. -/
def Listing.line (l : Listing) : String :=
  match l.comment with
  | some comment => l.usage ++ " - " ++ comment
  | none => l.usage

/-- What help says about a command. -/
def Command.listing (c : Command) : Listing := ⟨c.name, c.usage, c.comment⟩

/-- What help says about the commands of a registry, in order. -/
def Registry.listing (r : Registry) : List Listing := r.commands.map Command.listing

/-- The reply of `help`: the lines of the commands with the given name, or of all commands. -/
def helpText (all : List Listing) (i : Invocation) : String :=
  let shown :=
    match i.bindings.find? "command" with
    | some (.single topic) => all.filter fun (l : Listing) => l.name == topic.toText
    | _ => all
  "\n".intercalate (shown.map Listing.line)

/-- The command `exit`. -/
def exitCommand (supply : Supply) : Except Scheme.Error (Command × Supply) := do
  let (c, supply) ← Command.declare supply "exit" [] fun _ => .ok .exit
  return ({ c with comment := some "Leave the shell" }, supply)

/-- The command `help`, without its reply; its topic is one of the given names. -/
def helpCommand (supply : Supply) (names : List String) :
    Except Scheme.Error (Command × Supply) :=
  match Variable.named supply.segment "command" with
  | none => .error .missingVariableName
  | some v => do
    let topic := { v with provider := some fun _ => names, comment := some "command to describe" }
    let (c, supply) ←
      Command.declare { supply with segment := supply.segment + 1 } "help" [.optional [.var topic]]
        fun _ => .ok .silent
    return ({ c with comment := some "List commands, or describe one" }, supply)

/-- The registry with `help` and `exit` at its end, as far as it does not have them. Help describes
the commands of the result. -/
def Registry.withBuiltins (r : Registry) (supply : Supply) :
    Except Scheme.Error (Registry × Supply) := do
  let lacksExit := (r.find? "exit").isNone
  let names := r.names ++ ["help"] ++ (if lacksExit then ["exit"] else [])
  let (help, supply) ←
    if (r.find? "help").isNone then do
      let (c, supply) ← helpCommand supply names
      pure ([c], supply)
    else pure ([], supply)
  let (exit, supply) ←
    if lacksExit then do
      let (c, supply) ← exitCommand supply
      pure ([c], supply)
    else pure ([], supply)
  let all := (⟨r.commands ++ help ++ exit⟩ : Registry).listing
  let help := help.map fun c => { c with action := fun i => .ok (.text (helpText all i)) }
  return (⟨r.commands ++ help ++ exit⟩, supply)

end CommandGrammar
