import CommandGrammar.Command

/-!
# `CommandGrammar.Shell.Hint` — what can follow a line

## Contents
- `Hint`, `Hint.ofMatch?`, `Hint.collect`: what matches say about a line that is being edited.
- `Hint.line`: a hint as a line of text.
- `HintReport`: all hints of a line, as a document too.
-/

namespace CommandGrammar

/-- What a match says about a line. -/
structure Hint where
  /-- The command's name. -/
  command : String
  /-- The usage text of the segment that the line ended on. -/
  segment : String
  comment : Option String
  candidates : List String
  isPartial : Bool
  isInvokable : Bool
  deriving Repr, DecidableEq

namespace Hint

/-- The hint of a match that has a last segment. The first keyword stands for the whole command, so
it shows the command's comment. -/
def ofMatch? (m : CommandMatch) : Option Hint := do
  let last ← m.result.last?
  let (segment, comment) ←
    match ← m.command.graph.kind? last.node with
    | .keyword k => some (k.name, k.comment)
    | .var v => some (v.render, v.comment)
    | .marker _ _ => none
  let fallback := if m.result.path.length = 1 then m.command.comment else none
  return ⟨m.command.name, segment, comment.or fallback, last.candidates, m.result.isPartial,
    m.result.isInvokable⟩

/-- The hints of matches, each once. -/
def collect (ms : List CommandMatch) : List Hint := (ms.filterMap ofMatch?).eraseDups

/-- A hint as a line of text. Candidates that only repeat the segment are left out. -/
def line (h : Hint) : String :=
  h.command ++ ": " ++ h.segment ++ (if h.isInvokable then " (ready)" else "") ++
    (if h.candidates.isEmpty || h.candidates == [h.segment] then ""
     else " [" ++ ", ".intercalate h.candidates ++ "]") ++
    (match h.comment with
     | some comment => " - " ++ comment
     | none => "")

/-- A text that may be absent, in a document. -/
def optionalJson : Option String → Json
  | some s => .string s
  | none => .null

/-- The hint in a document. -/
def toJson (h : Hint) : Json :=
  .object [("command", .string h.command), ("segment", .string h.segment),
    ("comment", optionalJson h.comment), ("candidates", .array (h.candidates.map .string)),
    ("partial", .bool h.isPartial), ("invokable", .bool h.isInvokable)]

end Hint

/-- The hints of a line. -/
structure HintReport where
  tokens : List String
  hints : List Hint
  /-- Why the line has no words. -/
  parseError : Option String

namespace HintReport

/-- The candidates of all hints, each once. -/
def candidates (r : HintReport) : List String := (r.hints.flatMap Hint.candidates).eraseDups

/-- Whether the line can be submitted as it is. -/
def hasInvokable (r : HintReport) : Bool := r.hints.any Hint.isInvokable

/-- The report in a document. -/
def toJson (r : HintReport) : Json :=
  .object ([("tokens", .array (r.tokens.map .string)), ("hints", .array (r.hints.map Hint.toJson))]
    ++ match r.parseError with
       | some e => [("parse_error", .string e)]
       | none => [])

end HintReport
end CommandGrammar
