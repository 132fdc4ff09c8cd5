import CommandGrammar.Yaml.Token.Basic

/-!
# `CommandGrammar.Yaml.Token.Layout` — open collections and possible keys

While a text is turned into tokens, the open block collections are known by their columns, and for
each open flow collection, and outside of them, the last node that may turn out to be a key when a
colon follows.

## Contents
- `Level`, `Candidate`, `Layout`: what is known while a text is read.
- `Layout.closeTo`, `Layout.openAt`, `Layout.indentFurther`, `Layout.dropSlack`: indentation.
- `Layout.saveKey`, `Layout.withdrawKey`, `Layout.forgetStale`: possible keys.
- `Layout.settled`: the tokens that no later colon can change.
-/

namespace CommandGrammar
namespace Yaml

/-- An open level of indentation. -/
structure Level where
  /-- The column of the level around it. -/
  outer : Int
  /-- Whether it is a collection. Otherwise it only asks for content to stand further right than the
  collection around it, up to the next collection. -/
  isCollection : Bool

/-- A node that may turn out to be a key. -/
structure Candidate where
  isPossible : Bool
  /-- Whether nothing but a key can stand there. -/
  isRequired : Bool
  /-- The number of tokens before it. -/
  token : Nat
  place : Place

/-- No node. -/
def Candidate.none : Candidate := ⟨false, false, 0, .start⟩

/-- A key outside of flow collections is followed by its colon on the same line, after at most 1024
characters. -/
def Candidate.isStale (k : Candidate) (p : Place) : Bool :=
  k.isPossible && (k.place.line < p.line || k.place.index + 1024 < p.index)

/-- What is known while a text is read. -/
structure Layout where
  cursor : Cursor
  tokens : Array Token
  /-- The column of the innermost level; -1 outside of all. -/
  indent : Int
  /-- The open levels, innermost first. -/
  levels : List Level
  /-- The possible key in the innermost flow collection, or outside of all. -/
  key : Candidate
  /-- The possible keys around the open flow collections, innermost first. -/
  enclosing : List Candidate
  /-- Whether a key may begin here. -/
  keyAllowed : Bool
  /-- Where a colon is a mark even if text follows: after a quoted text or a flow collection. -/
  adjacentValue : Nat
  /-- Whether a key in a flow collection belongs to a mapping that is open already. -/
  inMapping : Bool
  /-- For each open flow sequence, innermost first, whether a mapping of one entry is open in it
  that no brace shows. -/
  pairs : List Bool
  /-- Whether the whole text is read. -/
  ended : Bool

namespace Layout

/-- Before a text. -/
def start (text : List Char) : Layout where
  cursor := .start text
  tokens := #[]
  indent := -1
  levels := []
  key := .none
  enclosing := []
  keyAllowed := true
  adjacentValue := 0
  inMapping := false
  pairs := []
  ended := false

/-- Whether a flow collection is open. -/
def inFlow (s : Layout) : Bool := !s.enclosing.isEmpty

/-- Add a token. -/
def push (s : Layout) (t : Token) : Layout := { s with tokens := s.tokens.push t }

/-- Put a token behind the first `n` ones. -/
def insert (s : Layout) (n : Nat) (t : Token) : Layout :=
  { s with tokens := s.tokens.insertIdxIfInBounds n t }

/-- Go on in the text. -/
def goTo (s : Layout) (c : Cursor) : Layout := { s with cursor := c }

/-! ## Indentation -/

/-- Close levels right of a column, of which the innermost one stands at `indent`. -/
def closeLevels (column : Int) (tokens : Array Token) (indent : Int) :
    List Level → Array Token × Int × List Level
  | [] => (tokens, indent, [])
  | l :: levels =>
    if column < indent then
      closeLevels column (if l.isCollection then tokens.push .blockEnd else tokens) l.outer levels
    else (tokens, indent, l :: levels)

/-- Close the block collections right of a column; in a flow collection none. -/
def closeTo (s : Layout) (column : Int) : Layout :=
  if s.inFlow then s
  else
    let (tokens, indent, levels) := closeLevels column s.tokens s.indent s.levels
    { s with tokens, indent, levels }

/-- Close the innermost level if it is no collection. -/
def dropSlack (s : Layout) : Layout :=
  match s.levels with
  | l :: levels => if l.isCollection then s else { s with indent := l.outer, levels }
  | [] => s

/-- Open a block collection at a column, unless it is open already; its token stands behind the
first `n` ones. -/
def openAt (s : Layout) (column : Int) (n : Nat) (t : Token) : Layout :=
  if s.inFlow then s
  else
    let s := if s.indent ≤ column then s.dropSlack else s
    if s.indent < column then
      { s.insert n t with indent := column, levels := ⟨s.indent, true⟩ :: s.levels }
    else s

/-- Ask for content to stand further right than the innermost block collection. -/
def indentFurther (s : Layout) : Layout :=
  match s.levels with
  | l :: _ =>
    if l.isCollection && !s.inFlow then
      { s with indent := s.indent + 1, levels := ⟨s.indent, false⟩ :: s.levels }
    else s
  | [] => s

/-! ## Possible keys -/

/-- Whether the innermost level is a collection. -/
def inCollection (s : Layout) : Bool :=
  match s.levels with
  | l :: _ => l.isCollection
  | [] => false

/-- A node begins here, which may be a key if keys are allowed. -/
def saveKey (s : Layout) : Layout :=
  if s.keyAllowed then
    let isRequired := !s.inFlow && s.indent == s.cursor.column && s.inCollection
    { s with key := ⟨true, isRequired, s.tokens.size, s.cursor.place⟩ }
  else s

/-- The last node is no key. -/
def withdrawKey (s : Layout) : Option Layout :=
  if s.key.isPossible && s.key.isRequired then none
  else some { s with key := { s.key with isPossible := false } }

/-- Forget a possible key that is too far away. -/
def forgetStale (s : Layout) : Option Layout :=
  if !s.inFlow && s.key.isStale s.cursor.place then s.withdrawKey else some s

/-- The number of tokens before the first possible key. -/
def settledSize (s : Layout) : Nat :=
  let keys := (s.key :: s.enclosing).filter fun k =>
    k.isPossible && (s.inFlow || !k.isStale s.cursor.place)
  keys.foldl (fun n k => min n k.token) s.tokens.size

/-- The tokens that are settled: those before the first node that may turn out to be a key. -/
def settled (s : Layout) : List Token := s.tokens.toList.take s.settledSize

end Layout
end Yaml
end CommandGrammar
