import CommandGrammar.Yaml.Scalar.Basic

/-!
# `CommandGrammar.Yaml.Node.Basic` — documents

## Contents
- `Node`: a document, or a part of one.
- `Node.same`, `Node.isNew`: equality of keys.
-/

namespace CommandGrammar
namespace Yaml

/-- A document, or a part of one. -/
inductive Node where
  | scalar (style : Style) (text : String)
  | sequence (items : List Node)
  /-- No two entries have the same key. -/
  | mapping (entries : List (Node × Node))
  deriving Repr

namespace Node

/-- The scalar that is not there. -/
def nothing : Node := .scalar .plain ""

mutual

/-- Whether two nodes are the same; the styles of scalars do not matter. -/
def same : Node → Node → Bool
  | .scalar _ a, .scalar _ b => a == b
  | .sequence as, .sequence bs => sameItems as bs
  | .mapping as, .mapping bs => sameEntries as bs
  | _, _ => false

/-- Whether two sequences have the same items. -/
def sameItems : List Node → List Node → Bool
  | [], [] => true
  | a :: as, b :: bs => a.same b && sameItems as bs
  | _, _ => false

/-- Whether two mappings have the same entries in the same order. -/
def sameEntries : List (Node × Node) → List (Node × Node) → Bool
  | [], [] => true
  | (k, v) :: as, (l, w) :: bs => k.same l && v.same w && sameEntries as bs
  | _, _ => false

end

/-- Whether a key is new among entries. -/
def isNew (key : Node) (entries : List (Node × Node)) : Bool :=
  !entries.any fun e => e.1.same key

/-- Add an entry to those read before, newest first, unless its key is among them. -/
def addEntry (key value : Node) (entries : List (Node × Node)) : Option (List (Node × Node)) :=
  if key.isNew entries then some ((key, value) :: entries) else none

end Node
end Yaml
end CommandGrammar
