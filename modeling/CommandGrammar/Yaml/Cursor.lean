/-!
# `CommandGrammar.Yaml.Cursor` — places in a text

A cursor says what is left of a text and where that begins. Its place is settled by the characters
passed so far, one at a time (`Place.after`), whatever they were passed for.

## Contents
- `isBlank`, `isFlowMark`, `endsMark`, `marksDocument`: classes of characters and marks.
- `Place`, `Place.after`: lines and columns.
- `Cursor`, `Cursor.skip`, `Cursor.skipWhile`: going on in a text.
- `Cursor.lineGap`, `Cursor.gap`: blanks, line breaks and comments.
-/

namespace CommandGrammar
namespace Yaml

/-! ## Characters and marks -/

/-- A blank within a line. -/
def isBlank (c : Char) : Bool := c == ' ' || c == '\t'

/-- A mark of flow collections, which are written in brackets and braces. -/
def isFlowMark (c : Char) : Bool :=
  c == ',' || c == '[' || c == ']' || c == '\x7b' || c == '\x7d'

/-- Whether the line ends before this text. -/
def endsLine : List Char → Bool
  | [] => true
  | c :: _ => c == '\n'

/-- Whether a mark that is followed by this text stands alone: before a blank or the line's end. -/
def endsMark : List Char → Bool
  | [] => true
  | c :: _ => isBlank c || c == '\n'

/-- Whether a flow mark begins this text. -/
def atFlowMark : List Char → Bool
  | [] => false
  | c :: _ => isFlowMark c

/-- Whether a text begins with a mark between documents. -/
def marksDocument (mark text : List Char) : Bool :=
  mark.isPrefixOf text && endsMark (text.drop mark.length)

/-- The mark before a document. -/
def openingMark : List Char := ['-', '-', '-']

/-- The mark after a document. -/
def closingMark : List Char := ['.', '.', '.']

/-! ## Places -/

/-- A place in a text; lines and columns are counted from zero. -/
structure Place where
  /-- The number of characters before it. -/
  index : Nat
  line : Nat
  column : Nat
  /-- Whether only blanks stand before it on its line. -/
  leading : Bool
  deriving Repr

/-- The place before a text. -/
def Place.start : Place := ⟨0, 0, 0, true⟩

/-- The place after a character. -/
def Place.after (p : Place) (c : Char) : Place :=
  if c = '\n' then ⟨p.index + 1, p.line + 1, 0, true⟩
  else ⟨p.index + 1, p.line, p.column + 1, p.leading && isBlank c⟩

/-- What is left of a text, and where it begins. -/
structure Cursor where
  place : Place
  rest : List Char
  deriving Repr

namespace Cursor

/-- The cursor before a text. -/
def start (text : List Char) : Cursor := ⟨.start, text⟩

/-- The column, as a number that can be compared with an indentation. -/
def column (c : Cursor) : Int := c.place.column

/-- Pass the next `n` characters. -/
def skip (c : Cursor) (n : Nat) : Cursor :=
  ⟨(c.rest.take n).foldl Place.after c.place, c.rest.drop n⟩

/-- Pass characters as long as they are of a kind. -/
def skipWhile (p : Char → Bool) (c : Cursor) : Cursor := c.skip (c.rest.takeWhile p).length

/-- Pass what is left of the line, but not its break. -/
def skipLine (c : Cursor) : Cursor := c.skipWhile (· != '\n')

/-- What was passed between a cursor and a later one. -/
def upTo (c d : Cursor) : List Char := c.rest.take (d.place.index - c.place.index)

/-! ## Gaps -/

/-- Pass blanks within the line, and a comment after them; only spaces unless `tabs`. A comment
needs a blank before it. -/
def lineGap (tabs : Bool) (c : Cursor) : Option Cursor :=
  let d := c.skipWhile fun x => x == ' ' || (tabs && x == '\t')
  if d.rest.head? != some '#' then some d
  else if d.place.index = c.place.index then none
  else some d.skipLine

/-- Pass what may fill the rest of a line after a token. -/
def toLineEnd (c : Cursor) : Option Cursor :=
  (c.lineGap true).filter fun d => endsLine d.rest

/-- Pass blanks and line breaks, and comments if `comments`. A tab before column `least` at the
front of a line (`tabbed`) may only be followed by blanks and a comment; `inComment` says that a
comment is being passed. -/
def gapFrom (comments : Bool) (least : Int) (tabbed inComment : Bool) (p : Place) :
    List Char → Option Cursor
  | [] => some ⟨p, []⟩
  | c :: rest =>
    if c = '\n' then gapFrom comments least false false (p.after c) rest
    else if inComment || c == ' ' then gapFrom comments least tabbed inComment (p.after c) rest
    else if c = '\t' then
      let indents := p.leading && (p.column : Int) < least
      gapFrom comments least (tabbed || indents) false (p.after c) rest
    else if c == '#' && (comments || tabbed) then
      gapFrom comments least tabbed true (p.after c) rest
    else if tabbed then none
    else some ⟨p, c :: rest⟩

/-- Pass blanks and line breaks, and comments if `comments`; tabs do not indent up to column
`least`. -/
def gap (comments : Bool) (least : Int) (c : Cursor) : Option Cursor :=
  gapFrom comments least false false c.place c.rest

end Cursor
end Yaml
end CommandGrammar
