import CommandGrammar.Yaml.Scalar.Basic

/-!
# `CommandGrammar.Yaml.Scalar.Plain` — text without quotes

Plain text is a row of words. It goes on over several lines, as long as these are indented, and ends
at a comment, at a colon that is a mark, and in a flow collection at one of its marks.

## Contents
- `plainWord`: the word at the front of a text.
- `plainFrom`, `plain`: plain text.
-/

namespace CommandGrammar
namespace Yaml

/-- The characters of plain text up to the next blank or line break. -/
def plainWord (inFlow : Bool) : List Char → List Char
  | [] => []
  | c :: rest =>
    if isBlank c || c == '\n' || (c == ':' && (endsMark rest || (inFlow && atFlowMark rest)))
        || (inFlow && isFlowMark c) then []
    else c :: plainWord inFlow rest

/-- Whether no word can begin here: at a comment, or at the front of a line at a mark between
documents. -/
def Cursor.endsPlain (c : Cursor) : Bool :=
  c.rest.head? == some '#'
    || (c.place.leading && (marksDocument openingMark c.rest || marksDocument closingMark c.rest))

/-- Read words, at most `fuel` of them, and what stands between them. Further lines begin at column
`least` or later, unless in a flow collection. -/
def plainFrom (inFlow : Bool) (least : Int) : Nat → Cursor → Option (List Char × Cursor)
  | 0, _ => none
  | fuel + 1, c =>
    if c.endsPlain then some ([], c)
    else if inFlow && c.rest.head? == some '-' && atFlowMark (c.rest.drop 1) then none
    else
      let word := plainWord inFlow c.rest
      let d := c.skip word.length
      if word.isEmpty || d.rest.isEmpty || !endsMark d.rest then some (word, d)
      else do
        let e ← d.gap false least
        if !inFlow && e.column < least then return (word, e)
        let (more, f) ← plainFrom inFlow least fuel e
        let breaks := e.place.line - d.place.line
        let gap := if breaks = 0 then d.upTo e else folded breaks
        return (if more.isEmpty then word else word ++ gap ++ more, f)

/-- Read plain text in a collection at column `indent`; at least one word. -/
def plain (inFlow : Bool) (indent : Int) (c : Cursor) : Option (String × Cursor) :=
  if inFlow && c.column < indent + 1 then none
  else
    (plainFrom inFlow (indent + 1) (c.rest.length + 1) c).bind fun (text, d) =>
      if text.isEmpty then none else some (String.ofList text, d)

end Yaml
end CommandGrammar
