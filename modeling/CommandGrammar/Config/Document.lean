import CommandGrammar.Config.Validation
import CommandGrammar.Decimal.Reading
import CommandGrammar.Yaml.Node.Reader

/-!
# `CommandGrammar.Config.Document` — configurations from documents

## Contents
- `Yaml.Node.isNothing`, `Yaml.Node.optional`, `Yaml.Node.text`, `Yaml.Node.word`: reading
  scalars.
- `Yaml.Node.fields`, `Yaml.Node.texts`, `Yaml.Node.items`: reading collections.
- `Config.Entry.ofNode?`, `Config.ofNode?`: configurations from documents.
- `Config.parse`: the configuration of a text.
-/

namespace CommandGrammar

namespace Yaml.Node

/-- Whether a plain scalar stands for nothing. -/
def saysNothing (s : String) : Bool :=
  s.isEmpty || s == "~" || s.toList.map Char.toLower == "null".toList

/-- Whether a node stands for nothing. -/
def isNothing : Node → Bool
  | .scalar .plain s => saysNothing s
  | _ => false

/-- Read a node that may be absent or stand for nothing. A block without text counts as nothing. -/
def optional {α : Type} (read : Node → Option α) : Option Node → Option (Option α)
  | none => some none
  | some (.scalar .block "") => some none
  | some n => if n.isNothing then some none else (read n).map some

/-- Read a text; every scalar is one as it is written, unless it stands for nothing. -/
def text : Node → Option String
  | .scalar .plain s => if saysNothing s then none else some s
  | .scalar _ s => some s
  | _ => none

/-- The base that a number is written in, by its prefix, and its digits. -/
def splitBase : List Char → Nat × List Char
  | '0' :: c :: ds =>
    if c.toLower = 'x' then (16, ds)
    else if c.toLower = 'o' then (8, ds)
    else if c.toLower = 'b' then (2, ds)
    else (10, '0' :: c :: ds)
  | ds => (10, ds)

/-- Read a whole number below 2^64. A plus may stand before it, and underscores between its digits
count for nothing. -/
def word : Node → Option Nat
  | .scalar _ s =>
    let (negative, unsigned) := Decimal.splitSign (Text.trim s.toList)
    let (base, digits) := splitBase unsigned
    let digits := digits.filter (· != '_')
    if negative || digits.head? == some '+' then none
    else (Decimal.natOfChars? base digits).filter fun n => n < Nat.pow 2 64
  | _ => none

/-- Read the entries of a mapping whose keys are texts. -/
def fields : Node → Option (List (String × Node))
  | .mapping entries => entries.mapM fun (k, v) => k.text.map (·, v)
  | _ => none

/-- Read a mapping whose keys and values are texts. -/
def texts (n : Node) : Option (NameMap String) := do
  let pairs ← (← n.fields).mapM fun (k, v) => v.text.map (k, ·)
  return NameMap.ofList pairs

/-- Read the items of a sequence. -/
def items {α : Type} (read : Node → Option α) : Node → Option (List α)
  | .sequence items => items.mapM read
  | _ => none

end Yaml.Node

namespace Config

open Yaml.Node

/-- The command that a document declares; keys that are not known are passed over. -/
def Entry.ofNode? (n : Yaml.Node) : Option Entry := do
  let fields ← n.fields
  let name ← (fields.lookup "name").bind text
  let grammar ← optional text (fields.lookup "grammar")
  let comment ← optional text (fields.lookup "comment")
  let reply ← optional text (fields.lookup "reply")
  let preview ← optional text (fields.lookup "preview")
  let defaults ← optional texts (fields.lookup "defaults")
  return ⟨name, grammar, comment, reply, preview, defaults⟩

/-- The configuration that a document declares; keys that are not known are passed over. -/
def ofNode? (n : Yaml.Node) : Option Config :=
  if n.isNothing then some empty
  else do
    let fields ← n.fields
    let prompt ← optional text (fields.lookup "prompt")
    let previewTimeout ← optional word (fields.lookup "preview_timeout_ms")
    let commands ← optional (items Entry.ofNode?) (fields.lookup "commands")
    return ⟨prompt, previewTimeout, commands⟩

/-- The configuration of a text. -/
def parse (source : String) : Except Error Config :=
  match Yaml.parse source with
  | none => .error (.malformedDocument "the document cannot be read")
  | some n =>
    match ofNode? n with
    | none => .error (.malformedDocument "the document is no configuration")
    | some c => .ok c

end Config
end CommandGrammar
