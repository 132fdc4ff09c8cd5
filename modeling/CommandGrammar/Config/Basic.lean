import CommandGrammar.NameMap

/-!
# `CommandGrammar.Config.Basic` — configured shells

## Contents
- `Config.Entry`, `Config`: what a configuration declares.
- `Config.promptText`, `Config.timeout`: settings with their defaults.
- `Config.merge`: one configuration laid upon another.
-/

namespace CommandGrammar

/-- A configured command. -/
structure Config.Entry where
  name : String
  /-- The scheme after the command's name, in the notation. -/
  grammar : Option String
  comment : Option String
  /-- A template of the reply. -/
  reply : Option String
  /-- A template of the preview. -/
  preview : Option String
  /-- Default values by the names of variables, as tokens. -/
  defaults : Option (NameMap String)
  deriving Repr

/-- What a configuration declares. -/
structure Config where
  prompt : Option String
  /-- How long a preview is waited for, in milliseconds. -/
  previewTimeout : Option Nat
  commands : Option (List Config.Entry)
  deriving Repr

namespace Config

/-- A configuration that declares nothing. -/
def empty : Config := ⟨none, none, none⟩

/-- The prompt to show. -/
def promptText (c : Config) : String := c.prompt.getD "> "

/-- How long to wait for a preview, in milliseconds. -/
def timeout (c : Config) : Nat := c.previewTimeout.getD 200

/-- The configured commands. -/
def entries (c : Config) : List Entry := c.commands.getD []

/-- The configuration `top` laid upon `base`: its settings win, its commands come last. -/
def merge (base top : Config) : Config where
  prompt := top.prompt.or base.prompt
  previewTimeout := top.previewTimeout.or base.previewTimeout
  commands :=
    match base.commands, top.commands with
    | some b, some o => some (b ++ o)
    | b, o => b.or o

/-- Commands add up, those of the base first. -/
theorem entries_merge (base top : Config) :
    (merge base top).entries = base.entries ++ top.entries := by
  unfold merge entries
  cases base.commands <;> cases top.commands <;> simp

end Config
end CommandGrammar
