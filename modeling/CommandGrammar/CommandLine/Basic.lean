/-!
# `CommandGrammar.CommandLine.Basic` — arguments of the program

The program takes settings, a subcommand, and the subcommand's values. Settings may stand before or
after the subcommand; after it they win.

## Contents
- `Subcommand`, `CommandLine`, `Refusal`: what arguments say, or why they say nothing.
- `Argument.ofString`: long and short flags, `--`, and words.
- `Level`, `Level.read`: the arguments of a subcommand.
- `CommandLine.read`: all arguments.
-/

namespace CommandGrammar

/-- What the program is to do. -/
inductive Subcommand where
  /-- Read lines. -/
  | shell
  /-- Show what can follow a line. -/
  | hint (line : String)
  /-- Run a command, given by its words. -/
  | run (args : List String)
  /-- List all commands. -/
  | commands
  deriving Repr, DecidableEq

/-- The meaning of the program's arguments. -/
structure CommandLine where
  /-- The configuration to use in place of the one in the working directory. -/
  config : Option String
  logLevel : String
  subcommand : Subcommand
  deriving Repr, DecidableEq

namespace CommandLine

/-- Why arguments start nothing. -/
inductive Refusal where
  /-- They cannot be read. -/
  | usage
  /-- They ask for help. -/
  | help
  /-- They ask for the version. -/
  | version
  deriving Repr, DecidableEq

/-! ## Arguments -/

/-- An argument by its form. -/
inductive Argument where
  /-- Two hyphens: only values follow. -/
  | escape
  | long (name : String) (value : Option String)
  | short (flags : List Char)
  | word
  deriving Repr, DecidableEq

/-- The form of an argument. A lone hyphen is a word. -/
def Argument.ofString (s : String) : Argument :=
  match s.toList with
  | ['-', '-'] => .escape
  | '-' :: '-' :: rest =>
    match rest.dropWhile (· != '=') with
    | [] => .long (String.ofList rest) none
    | _ :: value => .long (String.ofList (rest.takeWhile (· != '='))) (some (String.ofList value))
  | ['-'] => .word
  | '-' :: flags => .short flags
  | _ => .word

/-- A setting with a value. -/
inductive Setting where
  | config
  | logLevel
  deriving Repr, DecidableEq

/-- The setting with the given name. -/
def Setting.ofName? (name : String) : Option Setting :=
  if name = "config" then some .config
  else if name = "log-level" then some .logLevel
  else none

/-- The settings given at one level. -/
structure Settings where
  config : Option String
  logLevel : Option String
  deriving Repr, DecidableEq

/-- No settings. -/
def Settings.none : Settings := ⟨.none, .none⟩

/-- Give a setting its value; only once at a level, and a path must not be empty. -/
def Settings.set (s : Settings) (name : Setting) (value : String) : Except Refusal Settings :=
  match name with
  | .config =>
    if s.config.isSome || value.isEmpty then .error .usage
    else .ok { s with config := some value }
  | .logLevel => if s.logLevel.isSome then .error .usage else .ok { s with logLevel := some value }

/-- The settings `inner`, and those of `outer` that it does not give. -/
def Settings.orElse (inner outer : Settings) : Settings :=
  ⟨inner.config.or outer.config, inner.logLevel.or outer.logLevel⟩

/-! ## Subcommands -/

/-- The values that a subcommand takes. -/
inductive Level where
  /-- None. -/
  | none
  /-- At most one. -/
  | one
  /-- From the first one on everything as it is, whatever its form; flags that are not known are
  values. -/
  | trailing
  deriving Repr, DecidableEq

/-- Take everything that is left as values, after those taken already. -/
def Level.takeRest (level : Level) (values rest : List String) : Except Refusal (List String) :=
  match level with
  | .none => if rest.isEmpty then .ok values else .error .usage
  | .one => if (values ++ rest).length ≤ 1 then .ok (values ++ rest) else .error .usage
  | .trailing => .ok (values ++ rest)

/-- Read the arguments of a subcommand: its settings and its values. `pending` is a setting whose
value must follow. -/
def Level.read (level : Level) (settings : Settings) (pending : Option Setting)
    (values : List String) : List String → Except Refusal (Settings × List String)
  | [] => if pending.isSome then .error .usage else .ok (settings, values)
  | a :: rest =>
    let asValue : Except Refusal (Settings × List String) :=
      match pending with
      | some name => do level.read (← settings.set name a) .none values rest
      | .none =>
        match level with
        | .none => .error .usage
        | .one =>
          if values.isEmpty then level.read settings .none [a] rest else .error .usage
        | .trailing => .ok (settings, values ++ a :: rest)
    match Argument.ofString a with
    | .word => asValue
    | .escape =>
      if pending.isSome then .error .usage
      else (level.takeRest values rest).map fun values => (settings, values)
    | .long name value =>
      match Setting.ofName? name with
      | some setting =>
        if pending.isSome then .error .usage
        else
          match value with
          | some value => do level.read (← settings.set setting value) .none values rest
          | .none => level.read settings (some setting) values rest
      | .none =>
        if name = "help" then
          if pending.isSome || value.isSome then .error .usage else .error .help
        else if level = .trailing then asValue
        else .error .usage
    | .short flags =>
      if level = .trailing && !flags.all (· == 'h') then asValue
      else if flags.head? = some 'h' && pending.isNone then .error .help
      else .error .usage

/-- The level of a subcommand. -/
def levelOf? (name : String) : Option Level :=
  match name with
  | "shell" | "commands" => some .none
  | "hint" => some .one
  | "run" => some .trailing
  | _ => .none

/-- The subcommand of a name and values. -/
def subcommandOf (name : String) (values : List String) : Except Refusal Subcommand :=
  match name with
  | "shell" => .ok .shell
  | "commands" => .ok .commands
  | "hint" => .ok (.hint (values.head?.getD ""))
  | _ => if values.isEmpty then .error .usage else .ok (.run values)

/-- What follows the word `help`: at most one name of a subcommand. -/
def readHelp : List String → Refusal
  | [] => .help
  | [name] => if (levelOf? name).isSome || name = "help" then .help else .usage
  | _ => .usage

/-- Read arguments from the settings before the subcommand on. -/
def readFrom (settings : Settings) (pending : Option Setting) :
    List String → Except Refusal CommandLine
  | [] => .error .usage
  | a :: rest =>
    match Argument.ofString a with
    | .word =>
      match pending with
      | some name => do readFrom (← settings.set name a) .none rest
      | .none =>
        match levelOf? a with
        | some level => do
          let (inner, values) ← level.read Settings.none .none [] rest
          let settings := inner.orElse settings
          return ⟨settings.config, settings.logLevel.getD "warn", ← subcommandOf a values⟩
        | .none => .error (if a = "help" then readHelp rest else .usage)
    | .escape => .error .usage
    | .long name value =>
      match Setting.ofName? name with
      | some setting =>
        if pending.isSome then .error .usage
        else
          match value with
          | some value => do readFrom (← settings.set setting value) .none rest
          | .none => readFrom settings (some setting) rest
      | .none =>
        if pending.isSome || value.isSome then .error .usage
        else if name = "help" then .error .help
        else if name = "version" then .error .version
        else .error .usage
    | .short flags =>
      if pending.isSome then .error .usage
      else if flags.head? = some 'h' then .error .help
      else if flags.head? = some 'V' then .error .version
      else .error .usage

/-- The meaning of the program's arguments. -/
def read (args : List String) : Except Refusal CommandLine :=
  readFrom Settings.none .none args

end CommandLine
end CommandGrammar
