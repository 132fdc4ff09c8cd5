import CommandGrammar.Yaml.Scalar.Basic

/-!
# `CommandGrammar.Yaml.Token.Basic` — tokens of documents

A document is a row of tokens in which all collections are bracketed, also those that are shown by
indentation only.

## Contents
- `Token`.
- `Token.beginsNode`: the tokens that a node can begin with.
-/

namespace CommandGrammar
namespace Yaml

/-- A token of a document. -/
inductive Token where
  /-- The mark before a document. -/
  | documentStart
  /-- The mark after a document. -/
  | documentEnd
  /-- The end of the text. -/
  | textEnd
  | blockSequenceStart
  | blockMappingStart
  /-- The end of an indented sequence or mapping. -/
  | blockEnd
  /-- The hyphen before an item. -/
  | blockEntry
  | flowSequenceStart
  | flowSequenceEnd
  | flowMappingStart
  | flowMappingEnd
  /-- The comma between items or entries. -/
  | flowEntry
  /-- What stands before a key; often nothing is written there. -/
  | key
  /-- The colon before a value. -/
  | value
  | scalar (style : Style) (text : String)
  deriving Repr, DecidableEq

/-- Whether the root of a document can begin with this token. -/
def Token.beginsNode : Token → Bool
  | .scalar _ _ | .flowSequenceStart | .flowMappingStart | .blockSequenceStart
  | .blockMappingStart => true
  | _ => false

end Yaml
end CommandGrammar
