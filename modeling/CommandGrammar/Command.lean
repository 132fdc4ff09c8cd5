import CommandGrammar.Graph.Compile
import CommandGrammar.Notation.Error
import CommandGrammar.Resolution.Binding
import CommandGrammar.Segment.Printer

/-!
# `CommandGrammar.Command` — commands and registries

## Contents
- `Invocation`, `Outcome`, `Failure`: what a command is given, and what comes of it.
- `Supply`: identities not used yet.
- `Command`, `Command.declare`: a scheme led by the command's name, compiled, with its action.
- `Registry`: commands in order of registration; `names`, `find?`, `matchAll`.
-/

namespace CommandGrammar

/-- What a command learns about the line that selected it. -/
structure Invocation where
  input : String
  argv : List String
  /-- The command's name. -/
  command : String
  bindings : Bindings
  /-- The usage text of each consumed segment. -/
  segments : List String

/-- The invocation in a document. -/
def Invocation.toJson (i : Invocation) : Json :=
  .object [("input", .string i.input), ("argv", .array (i.argv.map .string)),
    ("command", .string i.command),
    ("variables", .object (i.bindings.toList.map fun (k, b) => (k, b.toJson))),
    ("segments", .array (i.segments.map .string))]

/-- What is to be done after a command. -/
inductive Outcome where
  /-- Show a text. -/
  | text (reply : String)
  | silent
  /-- Leave the shell. -/
  | exit
  deriving Repr, DecidableEq

/-- Why a command failed: causes from the outermost in. -/
structure Failure where
  causes : List String
  deriving Repr, DecidableEq

/-- The text shown for a failure. -/
def Failure.message (f : Failure) : String := ": ".intercalate f.causes

/-- The first segment identity and the first scope number that are not used yet. -/
structure Supply where
  segment : SegmentId
  scope : Nat
  deriving Repr, DecidableEq

/-- A command. -/
structure Command where
  name : String
  comment : Option String
  /-- The scheme, led by a keyword that equals the name. -/
  scheme : Scheme SegmentId
  graph : Graph
  action : Invocation → Except Failure Outcome
  /-- A text that can be shown before the command is submitted; it may decline. -/
  preview : Option (Invocation → Option String)

namespace Command

/-- Declare a command whose line begins with its name and goes on with the given scheme. -/
def declare (supply : Supply) (name : String) (scheme : Scheme SegmentId)
    (action : Invocation → Except Failure Outcome) : Except Scheme.Error (Command × Supply) :=
  match Keyword.named supply.segment name with
  | none => .error .missingKeywordName
  | some k =>
    let scheme := .keyword k :: scheme
    let (graph, scope) := Graph.compile supply.scope scheme
    .ok (⟨name, none, scheme, graph, action, none⟩, ⟨supply.segment + 1, scope⟩)

/-- The usage text of a command. -/
def usage (c : Command) : String := Scheme.render c.scheme

end Command

/-- The commands of a shell in order of registration. -/
structure Registry where
  commands : List Command

/-- A match with the command whose graph it walks, and the command's place in the registry. -/
structure CommandMatch where
  index : Nat
  command : Command
  result : Match

namespace Registry

/-- No commands. -/
def empty : Registry := ⟨[]⟩

/-- Add a command at the end. -/
def register (r : Registry) (c : Command) : Registry := ⟨r.commands ++ [c]⟩

/-- The names of the commands, each once. -/
def names (r : Registry) : List String := (r.commands.map Command.name).eraseDups

/-- The first command with the given name. -/
def find? (r : Registry) (name : String) : Option Command :=
  r.commands.find? fun c => c.name == name

/-- Match a line against commands, the first of them standing at `index`, in one session. -/
def matchFrom (argv : List String) : Nat → List Command → Session → List CommandMatch × Session
  | _, [], s => ([], s)
  | index, c :: rest, s =>
    let (results, s) := s.matches c.graph argv
    let (later, s) := matchFrom argv (index + 1) rest s
    (results.map (fun m => ⟨index, c, m⟩) ++ later, s)

/-- All matches of a line, in order of registration, in a session of their own; and the providers
asked up to then. -/
def matchAll (r : Registry) (argv : List String) (calls : CallLog) :
    List CommandMatch × CallLog :=
  let (found, s) := matchFrom argv 0 r.commands (Session.fresh calls)
  (found, s.calls)

end Registry
end CommandGrammar
