import CommandGrammar.Command
import CommandGrammar.Config.Validation

/-!
# `CommandGrammar.Config.Commands` — commands from a configuration

## Contents
- `Config.attachDefaults`: configured defaults in a scheme.
- `Config.Entry.declare`: the command of an entry.
- `Config.toRegistry`: the commands of a configuration.
-/

namespace CommandGrammar
namespace Config

/-- Give every variable that has a configured default its value. -/
def attachDefaults (defaults : NameMap String) (scheme : Scheme Unit) : Scheme Unit :=
  Scheme.mapVariables (fun v =>
    match defaults.find? v.name with
    | some raw => { v with default := some (v.coerce raw) }
    | none => v) scheme

/-- Read a template that may be absent. -/
def readTemplate : Option String → Except Error (Option Template)
  | none => .ok none
  | some source =>
    match Template.parse source with
    | .ok t => .ok (some t)
    | .error e => .error (.template e)

/-- The action of an entry: its reply, or the invocation as a document. -/
def replyAction (reply : Option Template) (i : Invocation) : Except Failure Outcome :=
  match reply with
  | some t => .ok (.text (t.render i.bindings))
  | none => .ok (.text i.toJson.compact)

/-- The command of an entry. -/
def Entry.declare (supply : Supply) (e : Entry) : Except Error (Command × Supply) := do
  let scheme ←
    match Notation.parse (e.grammar.getD "") with
    | .ok scheme => pure (attachDefaults (e.defaults.getD NameMap.empty) scheme)
    | .error cause => throw (.scheme cause)
  let reply ← readTemplate e.reply
  let preview ← readTemplate e.preview
  let (scheme, segment) := Scheme.number supply.segment scheme
  match Command.declare { supply with segment } e.name scheme (replyAction reply) with
  | .ok (command, supply) =>
    return ({ command with
      comment := e.comment
      preview := preview.map fun t i => some (t.render i.bindings) }, supply)
  | .error cause => throw (.scheme cause)

/-- The commands of entries, in order. -/
def declareAll : Supply → List Entry → Except Error (List Command × Supply)
  | supply, [] => .ok ([], supply)
  | supply, e :: rest => do
    let (command, supply) ← e.declare supply
    let (later, supply) ← declareAll supply rest
    return (command :: later, supply)

/-- The registry of a configuration. -/
def toRegistry (c : Config) (supply : Supply) : Except Error (Registry × Supply) := do
  let (commands, supply) ← declareAll supply c.entries
  return (⟨commands⟩, supply)

end Config
end CommandGrammar
