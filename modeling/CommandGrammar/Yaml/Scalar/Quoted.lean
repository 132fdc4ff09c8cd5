import CommandGrammar.Yaml.Scalar.Basic

/-!
# `CommandGrammar.Yaml.Scalar.Quoted` — text in quotes

In single quotes a doubled quote stands for one; in double quotes there are escapes. Line breaks are
folded, unless they are escaped, which drops them.

## Contents
- `Quoted`: a quoted text being read.
- `single`, `double`: texts in single and in double quotes.
- `quoted`: a quoted text and what may follow it.
-/

namespace CommandGrammar
namespace Yaml

/-- A quoted text being read: its characters (newest first), the blanks and line breaks after them,
and whether the first of these breaks was escaped. -/
structure Quoted where
  acc : List Char
  blanks : List Char
  breaks : Nat
  escaped : Bool

namespace Quoted

/-- Nothing read yet. -/
def start : Quoted := ⟨[], [], 0, false⟩

/-- Settle the blanks and line breaks read last. -/
def flush (q : Quoted) : List Char :=
  if q.escaped then List.replicate q.breaks '\n' ++ q.acc
  else if 0 < q.breaks then folded q.breaks ++ q.acc
  else q.blanks ++ q.acc

/-- Add a character that stands for itself. -/
def put (q : Quoted) (c : Char) : Quoted := ⟨c :: q.flush, [], 0, false⟩

/-- Add a blank or a line break. -/
def blank (q : Quoted) (c : Char) : Quoted :=
  if c = '\n' then { q with breaks := q.breaks + 1, blanks := [] }
  else if 0 < q.breaks || q.escaped then q
  else { q with blanks := c :: q.blanks }

/-- Add an escaped line break. -/
def escapeBreak (q : Quoted) : Quoted := ⟨q.flush, [], 0, true⟩

/-- Whether an escaped line break stands right before a place; the text may end there, wherever its
lines have to begin. -/
def endsEscaped (q : Quoted) (p : Place) : Bool := q.escaped && q.breaks == 0 && p.column == 0

/-- The finished text. -/
def text (q : Quoted) : String := String.ofList q.flush.reverse

end Quoted

/-- Whether a quoted text in a collection at column `indent` can go on here: at the front of a line
neither before that column nor with a mark between documents; and tabs do not indent. -/
def continuesQuoted (indent : Int) (p : Place) : List Char → Bool
  | [] => false
  | c :: rest =>
    let outside := p.leading && (p.column : Int) < indent
    if c = '\t' then !outside
    else if c == ' ' || c == '\n' then true
    else
      !(outside || (p.column == 0
        && (marksDocument openingMark (c :: rest) || marksDocument closingMark (c :: rest))))

/-- Read a text in single quotes from after the first one. -/
def single (indent : Int) (q : Quoted) (p : Place) : List Char → Option (String × Cursor)
  | [] => none
  | c :: rest =>
    if !continuesQuoted indent p (c :: rest) then none
    else if c = '\'' then
      match rest with
      | '\'' :: rest => single indent (q.put '\'') ((p.after c).after '\'') rest
      | rest => some (q.text, ⟨p.after c, rest⟩)
    else if isBlank c || c == '\n' then single indent (q.blank c) (p.after c) rest
    else single indent (q.put c) (p.after c) rest

/-- The characters with an escape of their own, by the letter after the backslash. -/
def escapes : List (Char × Char) :=
  [('0', '\x00'), ('a', '\x07'), ('b', '\x08'), ('t', '\t'), ('\t', '\t'), ('n', '\n'),
   ('v', '\x0b'), ('f', '\x0c'), ('r', '\r'), ('e', '\x1b'), (' ', ' '), ('"', '"'), ('/', '/'),
   ('\\', '\\'), ('N', '\u0085'), ('_', '\u00a0'), ('L', '\u2028'), ('P', '\u2029')]

/-- The number of hexadecimal digits after an escape by number. -/
def hexWidth (c : Char) : Option Nat :=
  if c = 'x' then some 2 else if c = 'u' then some 4 else if c = 'U' then some 8 else none

/-- The value of a hexadecimal digit. -/
def hexValue (c : Char) : Option Nat :=
  if c.isDigit then some (c.toNat - '0'.toNat)
  else if 'a' ≤ c ∧ c ≤ 'f' then some (c.toNat - 'a'.toNat + 10)
  else if 'A' ≤ c ∧ c ≤ 'F' then some (c.toNat - 'A'.toNat + 10)
  else none

/-- How the next character in double quotes is read. -/
inductive Escape where
  | none
  /-- After a backslash. -/
  | begun
  /-- In an escape by number, with the digits left and the value so far. -/
  | digits (left value : Nat)

/-- Read a text in double quotes from after the first one. -/
def double (indent : Int) (q : Quoted) (e : Escape) (p : Place) :
    List Char → Option (String × Cursor)
  | [] => none
  | c :: rest =>
    match e with
    | .none =>
      if !(continuesQuoted indent p (c :: rest) || (c == '"' && q.endsEscaped p)) then none
      else if c = '"' then some (q.text, ⟨p.after c, rest⟩)
      else if c = '\\' then double indent q .begun (p.after c) rest
      else if isBlank c || c == '\n' then double indent (q.blank c) .none (p.after c) rest
      else double indent (q.put c) .none (p.after c) rest
    | .begun =>
      if c = '\n' then double indent q.escapeBreak .none (p.after c) rest
      else
        match hexWidth c, escapes.lookup c with
        | some n, _ => double indent q (.digits n 0) (p.after c) rest
        | _, some d => double indent (q.put d) .none (p.after c) rest
        | _, _ => none
    | .digits left value =>
      match hexValue c with
      | none => none
      | some d =>
        let value := 16 * value + d
        if left = 1 then
          if value.isValidChar then
            double indent (q.put (Char.ofNat value)) .none (p.after c) rest
          else none
        else double indent q (.digits (left - 1) value) (p.after c) rest

/-- Whether a quoted text that began on the given line may be followed by this: the line's end, a
colon if the text can be a key, and in a flow collection its marks. -/
def followsQuoted (inFlow : Bool) (line : Nat) (c : Cursor) : Bool :=
  match c.rest with
  | [] => true
  | x :: _ =>
    x == '\n' || (x == ':' && (inFlow || line == c.place.line))
      || (inFlow && (x == ',' || x == '\x7d' || x == ']'))

/-- Read a quoted text in a collection at column `indent`, from its first quote on. -/
def quoted (inFlow : Bool) (indent : Int) (c : Cursor) : Option (String × Cursor) := do
  let d := c.skip 1
  let (text, e) ←
    if c.rest.head? = some '\'' then single indent .start d.place d.rest
    else double indent .start .none d.place d.rest
  let e ← e.lineGap true
  if followsQuoted inFlow c.place.line e then return (text, e) else none

end Yaml
end CommandGrammar
