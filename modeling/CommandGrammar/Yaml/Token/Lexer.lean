import CommandGrammar.Yaml.Scalar.Block
import CommandGrammar.Yaml.Scalar.Plain
import CommandGrammar.Yaml.Scalar.Quoted
import CommandGrammar.Yaml.Token.Layout

/-!
# `CommandGrammar.Yaml.Token.Lexer` — tokens from a text

Each step reads one token, and adds what it shows about the collections around it. Anchors, tags and
directives are not read.

## Contents
- `Layout.openFlow`, `Layout.closeFlow`, `Layout.flowEntry`: flow collections.
- `Layout.blockEntry`, `Layout.explicitKey`, `Layout.value`: marks of items, keys and values.
- `Layout.plainScalar`, `Layout.quotedScalar`, `Layout.blockScalar`: scalars.
- `Layout.step`: the next token.
- `Token.ofText`: the tokens of a text.
-/

namespace CommandGrammar
namespace Yaml
namespace Layout

/-! ## Flow collections -/

/-- The number of flow collections that may be open at a time. -/
def maxDepth : Nat := 255

/-- Open a flow collection. -/
def openFlow (s : Layout) (t : Token) : Option Layout := do
  let s := s.saveKey.indentFurther
  if maxDepth ≤ s.enclosing.length then failure
  let c ← (s.cursor.skip 1).lineGap true
  let s := { s.goTo c with key := .none, enclosing := s.key :: s.enclosing, keyAllowed := true }
  if t = .flowMappingStart then return { s with inMapping := true }.push t
  else return { s with pairs := false :: s.pairs }.push t

/-- End a mapping of one entry that no brace shows. -/
def endPair (s : Layout) : Layout :=
  match s.pairs with
  | true :: pairs => { s with pairs := false :: pairs, inMapping := false }.push .flowMappingEnd
  | _ => s

/-- Go back to the possible key around the innermost flow collection. -/
def leaveFlow (s : Layout) : Layout :=
  match s.enclosing with
  | k :: enclosing => { s with key := k, enclosing }
  | [] => s

/-- Close a flow collection, of whichever kind. -/
def closeFlow (s : Layout) (t : Token) : Option Layout := do
  let s ← s.withdrawKey
  let s := s.leaveFlow
  let s :=
    if t = .flowSequenceEnd then
      let s := s.endPair
      { s with pairs := s.pairs.tail }
    else s
  let c ← (s.cursor.skip 1).lineGap true
  let adjacentValue := if s.inFlow then c.place.index else s.adjacentValue
  return { s.goTo c with keyAllowed := false, adjacentValue }.push t

/-- Read a comma. -/
def flowEntry (s : Layout) : Option Layout := do
  let s ← s.withdrawKey
  let s := { s with keyAllowed := true }.endPair
  let c ← (s.cursor.skip 1).lineGap true
  return (s.goTo c).push .flowEntry

/-! ## Items, keys and values -/

/-- Whether a mark that stands alone begins this text. -/
def atMark (mark : Char) : List Char → Bool
  | [] => false
  | c :: rest => c == mark && endsMark rest

/-- Read the hyphen of an item; tabs do not separate it from another hyphen. -/
def blockEntry (s : Layout) : Option Layout := do
  if s.inFlow || !s.keyAllowed then failure
  let s := s.openAt s.cursor.column s.tokens.size .blockSequenceStart
  let c := s.cursor.skip 1
  let d ← c.lineGap true
  if (c.rest.takeWhile isBlank).contains '\t' && atMark '-' d.rest then failure
  let s := if d.rest.head? = some '\n' || atFlowMark d.rest then s.indentFurther else s
  let s ← s.withdrawKey
  return { s.goTo d with keyAllowed := true }.push .blockEntry

/-- Pass spaces, line breaks and comments, but no tabs. -/
def spaceGap (inComment : Bool) (p : Place) : List Char → Cursor
  | [] => ⟨p, []⟩
  | c :: rest =>
    if c = '\n' then spaceGap false (p.after c) rest
    else if inComment || c == ' ' then spaceGap inComment (p.after c) rest
    else if c = '#' then spaceGap true (p.after c) rest
    else ⟨p, c :: rest⟩

/-- Read a question mark before a key, and the gap after it, in which there are no tabs. -/
def explicitKey (s : Layout) : Option Layout := do
  if !s.inFlow && !s.keyAllowed then failure
  let s :=
    if s.inFlow then { s with inMapping := true }
    else s.openAt s.cursor.column s.tokens.size .blockMappingStart
  let s ← s.withdrawKey
  let c := s.cursor.skip 1
  let d := spaceGap false c.place c.rest
  if c.rest.isEmpty || d.rest.head? = some '\t' then failure
  return { s.goTo d with keyAllowed := !s.inFlow }.push .key

/-- A letter, digit, underscore or hyphen. -/
def isWordChar (c : Char) : Bool := c.isAlphanum || c == '_' || c == '-'

/-- Whether a colon before this text is separated from it: tabs alone do not separate it from a
word. -/
def separatesValue (text : List Char) : Bool :=
  let blanks := text.takeWhile isBlank
  text.head? != some '\t' || blanks.contains ' '
    || !((text.drop blanks.length).head?.any isWordChar)

/-- Read a colon: the last node is a key if that is possible, else the key is missing or stands
behind a question mark. In a flow sequence a mapping of one entry begins with the key, which ends on
the line of the colon. -/
def value (s : Layout) : Option Layout := do
  let key := s.key
  let colon := s.cursor.place
  let isPair := !s.pairs.isEmpty && !s.inMapping
  let s := if isPair then { s with pairs := true :: s.pairs.tail } else s
  let c := s.cursor.skip 1
  if !separatesValue c.rest then failure
  let s := s.goTo (← if c.rest.head? = some '\t' then c.lineGap true else some c)
  if key.isPossible then
    if isPair && key.place.line < colon.line then failure
    let s := s.insert key.token .key
    let s := if isPair then s.insert key.token .flowMappingStart else s
    let s := (s.openAt key.place.column key.token .blockMappingStart).indentFurther
    return { s with key := { key with isPossible := false }, keyAllowed := false }.push .value
  else
    if !s.inFlow && !s.keyAllowed then failure
    let s := if isPair then s.push .flowMappingStart else s
    let s := (s.openAt colon.column s.tokens.size .blockMappingStart).indentFurther
    return { s with keyAllowed := !s.inFlow }.push .value

/-- Read a colon in a flow collection that is followed by this text. Only after a quoted text or a
flow collection may the value be a flow collection right behind it. -/
def flowValue (s : Layout) (next : List Char) : Option Layout :=
  let isCollection := next.head? = some '[' || next.head? = some '\x7b'
  if isCollection && s.cursor.place.index != s.adjacentValue then none else s.value

/-! ## Scalars -/

/-- Pass a gap between tokens; outside of flow collections a key may begin on a new line. -/
def passGap (s : Layout) : Option Layout := do
  let d ← s.cursor.gap true s.indent
  let isNewLine := s.cursor.place.line < d.place.line
  return { s.goTo d with keyAllowed := s.keyAllowed || (isNewLine && !s.inFlow) }

/-- Read plain text; a key may follow if it ends at the front of a line. -/
def plainScalar (s : Layout) : Option Layout := do
  let s := s.saveKey.dropSlack
  let (text, c) ← plain s.inFlow s.indent s.cursor
  return { s.goTo c with keyAllowed := c.place.leading }.push (.scalar .plain text)

/-- Read a quoted text and the gap after it. -/
def quotedScalar (s : Layout) : Option Layout := do
  let s := s.saveKey
  let (text, c) ← quoted s.inFlow s.indent s.cursor
  let s ← { s.goTo c with keyAllowed := false }.passGap
  return { s with adjacentValue := s.cursor.place.index }.push (.scalar .quoted text)

/-- Read a block; a key may follow. -/
def blockScalar (s : Layout) : Option Layout := do
  let s := s.saveKey.dropSlack
  let (text, c) ← block s.indent s.cursor
  return { s.goTo c with keyAllowed := true }.push (.scalar .block text)

/-! ## Texts -/

/-- Read a mark between documents. -/
def documentMark (s : Layout) (t : Token) : Option Layout := do
  let s ← (s.closeTo (-1)).withdrawKey
  return { s.goTo (s.cursor.skip 3) with keyAllowed := false }.push t

/-- Read the end of the text: no key is possible any more. -/
def finish (s : Layout) : Option Layout :=
  if (s.key :: s.enclosing).any fun k => k.isPossible && k.isRequired then none
  else
    let forget (k : Candidate) : Candidate := { k with isPossible := false }
    let s := { s with key := forget s.key, enclosing := s.enclosing.map forget, ended := true }
    some ((s.closeTo (-1)).push .textEnd)

/-- Read the token that begins with a character, which is followed by `next`. -/
def content (s : Layout) (c : Char) (next : List Char) : Option Layout :=
  if c = '[' then s.openFlow .flowSequenceStart
  else if c = '\x7b' then s.openFlow .flowMappingStart
  else if c = ']' then s.closeFlow .flowSequenceEnd
  else if c = '\x7d' then s.closeFlow .flowMappingEnd
  else if c = ',' then s.flowEntry
  else if c = '-' && endsMark next then s.blockEntry
  else if c = '?' && endsMark next then s.explicitKey
  else if c = ':' && endsMark next then s.value
  else if c = ':' && s.inFlow && (atFlowMark next || s.cursor.place.index == s.adjacentValue) then
    s.flowValue next
  else if c = '|' || c = '>' then if s.inFlow then s.plainScalar else s.blockScalar
  else if c = '\'' || c = '"' then s.quotedScalar
  else if c = '*' || c = '&' || c = '!' || c = '%' || c = '@' || c = '\x60' then none
  else s.plainScalar

/-- Read the next token. Content must not stand left of the innermost level. -/
def step (s : Layout) : Option Layout := do
  let s ← s.passGap
  let s ← s.forgetStale
  let s := s.closeTo s.cursor.column
  let text := s.cursor.rest
  match text with
  | [] => s.finish
  | c :: next =>
    if s.cursor.place.column = 0 && marksDocument openingMark text then
      s.documentMark .documentStart
    else if s.cursor.place.column = 0 && marksDocument closingMark text then
      let s ← s.documentMark .documentEnd
      let d ← s.cursor.toLineEnd
      return s.goTo d
    else if s.cursor.column < s.indent then none
    else s.content c next

/-- Read tokens up to the end of the text, at most `fuel` of them. Before a place that cannot be
read only the settled tokens are kept. -/
def tokensFrom : Nat → Layout → List Token
  | 0, s => s.settled
  | fuel + 1, s =>
    if s.ended then s.tokens.toList
    else
      match s.step with
      | some t => tokensFrom fuel t
      | none => s.settled

end Layout

/-- The tokens of a text, up to the end or to a place that cannot be read. -/
def Token.ofText (text : List Char) : List Token :=
  (Layout.start text).tokensFrom (text.length + 2)

end Yaml
end CommandGrammar
