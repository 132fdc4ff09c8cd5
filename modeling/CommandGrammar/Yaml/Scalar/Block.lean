import CommandGrammar.Yaml.Scalar.Basic

/-!
# `CommandGrammar.Yaml.Scalar.Block` — text as indented lines

A block begins with a bar, which keeps its line breaks, or with an angle bracket, which folds those
between lines that are not indented further. Blank lines at its end stay or go as its header says.

## Contents
- `Chomping`, `Header`: the first line of a block.
- `firstWidth`, `blankLines`: indentation.
- `LineEnd`, `linesFrom`, `LineEnd.chomp`: the lines of a block.
- `block`: a block as a text.
-/

namespace CommandGrammar
namespace Yaml

/-! ## The header -/

/-- What happens to the line breaks at the end of a block. -/
inductive Chomping where
  /-- The last line keeps its break, blank lines go. -/
  | clip
  | strip
  | keep
  deriving Repr, DecidableEq

/-- What the first line of a block says. -/
structure Header where
  chomping : Chomping
  /-- How much further than its collection the block is indented, if that is said. -/
  indent : Option Nat

/-- The chomping that a mark stands for. -/
def Chomping.ofChar? (c : Char) : Option Chomping :=
  if c = '+' then some .keep else if c = '-' then some .strip else none

/-- The indentation that a digit stands for; zero is none. -/
def indentDigit? (c : Char) : Option Nat :=
  if c.isDigit && c != '0' then some (c.toNat - '0'.toNat) else none

/-- Read the marks after the bar or angle bracket, in either order, and how many they are. What is
no mark is left. -/
def Header.ofChars : List Char → Header × Nat
  | [] => (⟨.clip, none⟩, 0)
  | c :: rest =>
    match Chomping.ofChar? c, indentDigit? c with
    | some chomping, _ =>
      match rest.head?.bind indentDigit? with
      | some n => (⟨chomping, some n⟩, 2)
      | none => (⟨chomping, none⟩, 1)
    | none, some n =>
      match rest.head?.bind Chomping.ofChar? with
      | some chomping => (⟨chomping, some n⟩, 2)
      | none => (⟨.clip, some n⟩, 1)
    | none, none => (⟨.clip, none⟩, 0)

/-! ## Indentation -/

/-- Pass blank lines and the spaces before the first text: the widest indentation seen, the number
of line breaks, and the first text. -/
def firstWidth (widest breaks : Nat) (p : Place) : List Char → Nat × Nat × Cursor
  | [] => (max widest p.column, breaks, ⟨p, []⟩)
  | c :: rest =>
    if c = ' ' then firstWidth widest breaks (p.after c) rest
    else if c = '\n' then firstWidth (max widest p.column) (breaks + 1) (p.after c) rest
    else (max widest p.column, breaks, ⟨p, c :: rest⟩)

/-- Pass blank lines and the spaces before column `width`: the number of line breaks, and what
follows. -/
def blankLines (width breaks : Nat) (p : Place) : List Char → Nat × Cursor
  | [] => (breaks, ⟨p, []⟩)
  | c :: rest =>
    if c = '\n' then blankLines width (breaks + 1) (p.after c) rest
    else if c = ' ' ∧ p.column < width then blankLines width breaks (p.after c) rest
    else (breaks, ⟨p, c :: rest⟩)

/-! ## Lines -/

/-- What stands behind a line of a block. -/
structure LineEnd where
  /-- Whether the line is ended by a break. -/
  isBroken : Bool
  /-- Whether the line begins with a blank. -/
  isDeeper : Bool
  /-- The number of blank lines after it. -/
  blank : Nat

/-- Whether a line begins with a blank. -/
def beginsDeeper (line : List Char) : Bool := (line.head?.map isBlank).getD false

/-- What stands between two lines; folding turns a break between lines that are not indented further
into a space. -/
def LineEnd.gap (l : LineEnd) (folds : Bool) (next : List Char) : List Char :=
  let blank := List.replicate l.blank '\n'
  if folds && l.isBroken && !l.isDeeper && !beginsDeeper next then
    if l.blank = 0 then [' '] else blank
  else (if l.isBroken then ['\n'] else []) ++ blank

/-- Read the lines that begin at column `width`, at most `fuel` of them, and what stands between
them: the text, what stands behind the last line, and what follows. -/
def linesFrom (folds : Bool) (width : Nat) : Nat → LineEnd → Cursor → List Char × LineEnd × Cursor
  | 0, l, c => ([], l, c)
  | fuel + 1, l, c =>
    if c.place.column ≠ width ∨ c.rest.isEmpty ∨ (width = 0 ∧ marksDocument closingMark c.rest) then
      ([], l, c)
    else
      let d := c.skipLine
      let line := c.upTo d
      let e := d.skip 1
      let (blank, e) := blankLines width 0 e.place e.rest
      let (more, last) := linesFrom folds width fuel ⟨!d.rest.isEmpty, beginsDeeper line, blank⟩ e
      (l.gap folds line ++ line ++ more, last)

/-- What of the end of the last line belongs to a block of which `c` is left. A last line without a
break counts as ended if it is indented to column `width`. -/
def LineEnd.chomp (l : LineEnd) (chomping : Chomping) (width : Nat) (c : Cursor) : List Char :=
  let last :=
    (if l.isBroken then ['\n'] else [])
      ++ if c.rest.isEmpty ∧ max width 1 ≤ c.place.column then ['\n'] else []
  match chomping with
  | .strip => []
  | .clip => last
  | .keep => last ++ List.replicate l.blank '\n'

/-- The text of a block without lines, which begins on line `line` and is followed by the end at
`c`, with the given number of blank lines between. -/
def emptyBlock (chomping : Chomping) (line blank : Nat) (c : Cursor) : List Char :=
  if chomping = .strip ∨ c.place.line = line then []
  else if chomping = .keep ∧ 0 < blank then List.replicate blank '\n'
  else ['\n']

/-- Read a block in a collection at column `indent`, from its bar or angle bracket on. -/
def block (indent : Int) (c : Cursor) : Option (String × Cursor) := do
  let folds := c.rest.head? = some '>'
  let (header, marks) := Header.ofChars (c.rest.drop 1)
  let d ← (c.skip (1 + marks)).toLineEnd
  let d := d.skip 1
  if d.rest.head? = some '\t' then failure
  let (width, blank, d) :=
    match header.indent with
    | some n =>
      let width := (max indent 0).toNat + n
      (width, blankLines width 0 d.place d.rest)
    | none =>
      let (widest, blank, e) := firstWidth 0 0 d.place d.rest
      (max widest (indent + 1).toNat, blank, e)
  if d.rest.isEmpty then
    return (String.ofList (emptyBlock header.chomping c.place.line blank d), d)
  if d.place.column < width ∧ indent < d.column then failure
  let (text, last, e) := linesFrom folds width (d.rest.length + 1) ⟨false, false, blank⟩ d
  return (String.ofList (text ++ last.chomp header.chomping width e), e)

end Yaml
end CommandGrammar
