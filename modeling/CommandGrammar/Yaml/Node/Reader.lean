import CommandGrammar.Yaml.Node.Basic
import CommandGrammar.Yaml.Token.Lexer

/-!
# `CommandGrammar.Yaml.Node.Reader` — documents from tokens

Keys and values that are not written stand for nothing. Tokens may end before the text does, where
the text cannot be read; a document that needs further ones is refused.

Every function takes fuel; `Node.root` gives as much as the tokens can need.

## Contents
- `Node.read`, `Node.readBlockMapping`, …: nodes and collections.
- `Node.root`: the root of the first document.
- `Node.isAlone`: whether no other document follows.
- `parse`: the document of a text.
-/

namespace CommandGrammar
namespace Yaml
namespace Node

/-! ## Nodes -/

/-- Tokens before which an item of a sequence at the column of its key is missing. -/
def endsItem : Token → Bool
  | .blockEntry | .key | .value | .blockEnd => true
  | _ => false

/-- Tokens before which a key or value of a block mapping is missing. -/
def endsBlockPart : Token → Bool
  | .key | .value | .blockEnd => true
  | _ => false

mutual

/-- Read a node. Block collections are read if `inBlock`; a sequence without a start of its own is
read if `indentless`. -/
def read (inBlock indentless : Bool) : Nat → List Token → Option (Node × List Token)
  | 0, _ => none
  | fuel + 1, ts =>
    match ts with
    | .scalar style text :: ts => some (.scalar style text, ts)
    | .flowSequenceStart :: ts => readFlowSequence true fuel [] ts
    | .flowMappingStart :: ts => readFlowMapping true fuel [] ts
    | .blockSequenceStart :: ts => if inBlock then readBlockSequence fuel [] ts else none
    | .blockMappingStart :: ts => if inBlock then readBlockMapping fuel [] ts else none
    | .blockEntry :: _ => if indentless then readIndentless fuel [] ts else none
    | _ => none

/-- Read the items of an indented sequence; those before, newest first. -/
def readBlockSequence : Nat → List Node → List Token → Option (Node × List Token)
  | 0, _, _ => none
  | fuel + 1, items, ts =>
    match ts with
    | .blockEnd :: ts => some (.sequence items.reverse, ts)
    | .blockEntry :: .blockEntry :: ts =>
      readBlockSequence fuel (nothing :: items) (.blockEntry :: ts)
    | .blockEntry :: .blockEnd :: ts => readBlockSequence fuel (nothing :: items) (.blockEnd :: ts)
    | .blockEntry :: ts => do
      let (item, ts) ← read true false fuel ts
      readBlockSequence fuel (item :: items) ts
    | _ => none

/-- Read the items of a sequence at the column of its key; those before, newest first. It ends
before any other token. -/
def readIndentless : Nat → List Node → List Token → Option (Node × List Token)
  | 0, _, _ => none
  | fuel + 1, items, ts =>
    match ts with
    | [] => none
    | [.blockEntry] => none
    | .blockEntry :: t :: ts =>
      if endsItem t then readIndentless fuel (nothing :: items) (t :: ts)
      else do
        let (item, ts) ← read true false fuel (t :: ts)
        readIndentless fuel (item :: items) ts
    | t :: ts => some (.sequence items.reverse, t :: ts)

/-- Read the entries of an indented mapping; those before, newest first. -/
def readBlockMapping : Nat → List (Node × Node) → List Token → Option (Node × List Token)
  | 0, _, _ => none
  | fuel + 1, entries, ts =>
    match ts with
    | .blockEnd :: ts => some (.mapping entries.reverse, ts)
    | .key :: ts => do
      let (key, ts) ← readBlockPart fuel ts
      let (value, ts) ← readBlockValue fuel ts
      readBlockMapping fuel (← addEntry key value entries) ts
    | .value :: ts => do
      let (value, ts) ← readBlockPart fuel ts
      readBlockMapping fuel (← addEntry nothing value entries) ts
    | _ => none

/-- Read a value of an indented mapping if there is a colon. -/
def readBlockValue : Nat → List Token → Option (Node × List Token)
  | 0, _ => none
  | fuel + 1, ts =>
    match ts with
    | [] => none
    | .value :: ts => readBlockPart fuel ts
    | t :: ts => some (nothing, t :: ts)

/-- Read a key or value of an indented mapping behind its mark. -/
def readBlockPart : Nat → List Token → Option (Node × List Token)
  | 0, _ => none
  | fuel + 1, ts =>
    match ts with
    | [] => none
    | t :: ts => if endsBlockPart t then some (nothing, t :: ts) else read true true fuel (t :: ts)

/-- Read the items of a sequence in brackets; those before, newest first. -/
def readFlowSequence (first : Bool) : Nat → List Node → List Token → Option (Node × List Token)
  | 0, _, _ => none
  | fuel + 1, items, ts =>
    match first, ts with
    | _, .flowSequenceEnd :: ts => some (.sequence items.reverse, ts)
    | true, ts => do
      let (item, ts) ← readFlowItem fuel ts
      readFlowSequence false fuel (item :: items) ts
    | false, .flowEntry :: .flowSequenceEnd :: ts => some (.sequence items.reverse, ts)
    | false, .flowEntry :: ts => do
      let (item, ts) ← readFlowItem fuel ts
      readFlowSequence false fuel (item :: items) ts
    | false, _ => none

/-- Read an item of a sequence in brackets. An explicit key makes it a mapping of one entry. -/
def readFlowItem : Nat → List Token → Option (Node × List Token)
  | 0, _ => none
  | fuel + 1, ts =>
    match ts with
    | .key :: .value :: ts | .key :: .flowEntry :: ts | .key :: .flowSequenceEnd :: ts => do
      let (value, ts) ← readFlowValue .flowSequenceEnd fuel ts
      return (.mapping [(nothing, value)], ts)
    | .key :: ts => do
      let (key, ts) ← read false false fuel ts
      let (value, ts) ← readFlowValue .flowSequenceEnd fuel ts
      return (.mapping [(key, value)], ts)
    | ts => read false false fuel ts

/-- Read the value of an entry in a flow collection that ends with the token `close`, if there is a
colon. -/
def readFlowValue (close : Token) : Nat → List Token → Option (Node × List Token)
  | 0, _ => none
  | fuel + 1, ts =>
    match ts with
    | [] => none
    | .value :: [] => none
    | .value :: t :: ts =>
      if t = .flowEntry ∨ t = close then some (nothing, t :: ts)
      else read false false fuel (t :: ts)
    | t :: ts => some (nothing, t :: ts)

/-- Read the entries of a mapping in braces; those before, newest first. -/
def readFlowMapping (first : Bool) :
    Nat → List (Node × Node) → List Token → Option (Node × List Token)
  | 0, _, _ => none
  | fuel + 1, entries, ts =>
    match first, ts with
    | _, .flowMappingEnd :: ts => some (.mapping entries.reverse, ts)
    | true, ts => readFlowEntry fuel entries ts
    | false, .flowEntry :: .flowMappingEnd :: ts => some (.mapping entries.reverse, ts)
    | false, .flowEntry :: ts => readFlowEntry fuel entries ts
    | false, _ => none

/-- Read an entry of a mapping in braces, and the entries after it. -/
def readFlowEntry : Nat → List (Node × Node) → List Token → Option (Node × List Token)
  | 0, _, _ => none
  | fuel + 1, entries, ts =>
    match ts with
    | .key :: ts => do
      let (key, ts) ← readFlowKey fuel ts
      let (value, ts) ← readFlowValue .flowMappingEnd fuel ts
      readFlowMapping false fuel (← addEntry key value entries) ts
    | .value :: _ => do
      let (value, ts) ← readFlowValue .flowMappingEnd fuel ts
      readFlowMapping false fuel (← addEntry nothing value entries) ts
    | ts => do
      let (key, ts) ← read false false fuel ts
      readFlowMapping false fuel (← addEntry key nothing entries) ts

/-- Read the key of an entry in braces behind its mark. -/
def readFlowKey : Nat → List Token → Option (Node × List Token)
  | 0, _ => none
  | fuel + 1, ts =>
    match ts with
    | .value :: _ | .flowEntry :: _ | .flowMappingEnd :: _ => some (nothing, ts)
    | ts => read false false fuel ts

end

/-! ## Documents -/

/-- Leave out marks after documents. -/
def skipEnds (ts : List Token) : List Token := ts.dropWhile (· == .documentEnd)

/-- Read the root of the first document. -/
def root (ts : List Token) : Option (Node × List Token) :=
  let fuel := 4 * ts.length + 4
  match skipEnds ts with
  | .textEnd :: ts => some (nothing, .textEnd :: ts)
  | .documentStart :: t :: ts =>
    if t = .documentStart ∨ t = .documentEnd ∨ t = .textEnd then some (nothing, t :: ts)
    else read true false fuel (t :: ts)
  | ts => read true false fuel ts

/-- Whether a document begins behind its mark. -/
def opensDocument : List Token → Bool
  | [] => false
  | t :: _ => t.beginsNode || t == .documentStart || t == .documentEnd || t == .textEnd

/-- Whether no other document follows behind a root. What is no document is passed over, but it must
be clear that the root has ended. -/
def isAlone (ts : List Token) : Bool :=
  match ts with
  | [] => false
  | t :: _ =>
    match skipEnds ts with
    | .documentStart :: ts => !opensDocument ts
    | next :: _ => !(t == .documentEnd && next.beginsNode)
    | [] => true

end Node

/-! ## Texts -/

/-- Line breaks of all kinds as one character. -/
def unifyBreaks : List Char → List Char
  | [] => []
  | '\r' :: '\n' :: rest => '\n' :: unifyBreaks rest
  | '\r' :: rest => '\n' :: unifyBreaks rest
  | c :: rest => c :: unifyBreaks rest

/-- The characters of a text: without a mark of its byte order, and up to a zero character. -/
def characters (source : String) : List Char :=
  let cs := source.toList
  let cs := if cs.head? = some '\ufeff' then cs.drop 1 else cs
  unifyBreaks (cs.takeWhile (· != '\x00'))

/-- The document of a text. -/
def parse (source : String) : Option Node :=
  match Node.root (Token.ofText (characters source)) with
  | some (node, rest) => if Node.isAlone rest then some node else none
  | none => none

end Yaml
end CommandGrammar
