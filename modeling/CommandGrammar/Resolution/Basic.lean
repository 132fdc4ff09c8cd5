import CommandGrammar.Command

/-!
# `CommandGrammar.Resolution.Basic` — the command that a line means

A line may match several commands, and a command in several ways. The match whose segments say most
about the line wins; if two commands win, the line is ambiguous.

## Contents
- `Match.score`: the weight of a match.
- `Resolution.Error`: why a line means no command.
- `Resolution`, `resolve`, `Registry.resolve`.
-/

namespace CommandGrammar

/-- What a variable says about its token: candidates more than a type, a type more than any text. -/
def Variable.weight {ι : Type} (v : Variable ι) : Nat :=
  if v.isEnumerated then 3
  else
    match v.type with
    | none | some .string => 1
    | some _ => 2

/-- What a node says about its token; a keyword says most. -/
def NodeKind.weight : NodeKind → Nat
  | .keyword _ => 4
  | .var v => v.weight
  | .marker _ _ => 0

/-- The weight of a match: the sum over its nodes. -/
def Match.score (m : Match) (g : Graph) : Nat :=
  m.path.foldl (fun n v => n + ((g.kind? v.node).map NodeKind.weight).getD 0) 0

/-- The match chosen for a line. -/
structure Resolution where
  /-- The command's place in the registry. -/
  index : Nat
  command : Command
  bindings : Bindings
  path : List Visit

namespace Resolution

/-- Why a line means no command. -/
inductive Error where
  /-- Nothing matches, not even in part. -/
  | unknownCommand (input : String)
  /-- Commands match in part only. -/
  | incompleteCommand (input : String)
  /-- Commands of equal weight match. -/
  | ambiguousCommand (names : List String)
  deriving Repr, DecidableEq

/-- The text shown for a line that means no command. -/
def Error.message : Error → String
  | .unknownCommand input => "unknown command: " ++ input
  | .incompleteCommand input => "incomplete command: " ++ input
  | .ambiguousCommand names => "ambiguous command, candidates: " ++ ", ".intercalate names

/-- The resolution that a match is. -/
def ofMatch (m : CommandMatch) : Resolution :=
  ⟨m.index, m.command, Bindings.ofMatch m.command.scheme m.command.graph m.result, m.result.path⟩

/-- The usage text of each consumed segment. -/
def segments (r : Resolution) : List String :=
  r.path.map fun v =>
    match r.command.graph.kind? v.node with
    | some (.keyword k) => k.name
    | some (.var x) => x.render
    | _ => ""

/-- The invocation of the chosen command by a line. -/
def invocation (r : Resolution) (input : String) (argv : List String) : Invocation :=
  ⟨input, argv, r.command.name, r.bindings, r.segments⟩

end Resolution

/-- The weight of a match of a command. -/
def CommandMatch.score (m : CommandMatch) : Nat := m.result.score m.command.graph

/-- The first match of each command among the given ones. -/
def distinctCommands (ms : List CommandMatch) : List CommandMatch :=
  ms.eraseDupsBy fun a b => a.index == b.index

/-- The invokable matches of greatest weight. -/
def heaviest (ms : List CommandMatch) : List CommandMatch :=
  let best := (ms.map CommandMatch.score).foldl max 0
  ms.filter fun m => m.score == best

/-- The resolution of a line by its matches. -/
def resolve (input : String) (ms : List CommandMatch) : Except Resolution.Error Resolution :=
  if ms.isEmpty then .error (.unknownCommand input)
  else
    let best := heaviest (ms.filter fun m => m.result.isInvokable)
    match best with
    | [] => .error (.incompleteCommand input)
    | winner :: _ =>
      let tied := distinctCommands best
      if 1 < tied.length then .error (.ambiguousCommand (tied.map fun m => m.command.name))
      else .ok (Resolution.ofMatch winner)

/-- The command that a line means; and the providers asked up to then. -/
def Registry.resolve (r : Registry) (input : String) (argv : List String) (calls : CallLog) :
    Except Resolution.Error Resolution × CallLog :=
  let (ms, calls) := r.matchAll argv calls
  (CommandGrammar.resolve input ms, calls)

end CommandGrammar
