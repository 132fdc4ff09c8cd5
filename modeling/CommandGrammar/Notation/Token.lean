import CommandGrammar.Notation.Error
import CommandGrammar.Text.Blank

/-!
# `CommandGrammar.Notation.Token` — lexemes of the notation

A notation is cut into bare words, quoted words, placeholders in angle brackets, and the marks
`[ ] ( ) |`. Blanks separate words; inside a placeholder they are dropped, except in quotes.

The lexer is a left fold of `Scan.step` over the characters. The fold fails at a `>` that closes
nothing; open quotes and angle brackets are noticed at the end.

## Contents
- `Token`, `Scan`, `Scan.step`, `Scan.finish`, `tokens`.
-/

namespace CommandGrammar
namespace Notation

/-- A lexeme; positions count UTF-8 bytes from the start of the text. -/
inductive Token where
  | word (w : List Char)
  | quoted (w : List Char)
  /-- What stands between angle brackets, without the blanks outside quotes. -/
  | placeholder (content : List Char) (pos : Nat)
  | openSquare (pos : Nat)
  | closeSquare (pos : Nat)
  | openParen (pos : Nat)
  | closeParen (pos : Nat)
  | bar (pos : Nat)
  deriving Repr, DecidableEq

/-- A character that opens or closes a quoted text. -/
def isQuote (c : Char) : Bool :=
  c == '"' || c == '\''

/-- The characters that end a bare word. -/
def endsWord (c : Char) : Bool :=
  Text.isBlank c || isQuote c || c == '[' || c == ']' || c == '(' || c == ')' || c == '|'
    || c == '<' || c == '>'

/-- The lexeme being read; the characters it has so far are newest first. -/
inductive Pending where
  | nothing
  | word (acc : List Char)
  | quoted (quote : Char) (start : Nat) (acc : List Char)
  /-- In angle brackets; `quote` is the quote that is open there. -/
  | placeholder (quote : Option Char) (start : Nat) (acc : List Char)
  deriving Repr, DecidableEq

/-- The state between two characters: the position, the finished lexemes (newest first) and the one
being read. -/
structure Scan where
  pos : Nat
  done : List Token
  pending : Pending

/-- The state before the first character. -/
def Scan.start : Scan := ⟨0, [], .nothing⟩

/-- Read the first character of a lexeme, or a blank, that stands at `pos`. -/
def begin (pos : Nat) (c : Char) (done : List Token) : Except Error (List Token × Pending) :=
  if Text.isBlank c then .ok (done, .nothing)
  else if isQuote c then .ok (done, .quoted c pos [])
  else if c = '<' then .ok (done, .placeholder none pos [])
  else if c = '>' then .error (.invalid (.unexpected '>' pos))
  else if c = '[' then .ok (.openSquare pos :: done, .nothing)
  else if c = ']' then .ok (.closeSquare pos :: done, .nothing)
  else if c = '(' then .ok (.openParen pos :: done, .nothing)
  else if c = ')' then .ok (.closeParen pos :: done, .nothing)
  else if c = '|' then .ok (.bar pos :: done, .nothing)
  else .ok (done, .word [c])

/-- Read one character. -/
def Scan.step (s : Scan) (c : Char) : Except Error Scan := do
  let (done, pending) ←
    match s.pending with
    | .nothing => begin s.pos c s.done
    | .word acc =>
      if endsWord c then begin s.pos c (.word acc.reverse :: s.done)
      else .ok (s.done, .word (c :: acc))
    | .quoted q start acc =>
      if c = q then .ok (.quoted acc.reverse :: s.done, .nothing)
      else .ok (s.done, .quoted q start (c :: acc))
    | .placeholder (some q) start acc =>
      .ok (s.done, .placeholder (if c = q then none else some q) start (c :: acc))
    | .placeholder none start acc =>
      if c = '>' then .ok (.placeholder acc.reverse start :: s.done, .nothing)
      else if isQuote c then .ok (s.done, .placeholder (some c) start (c :: acc))
      else if Text.isBlank c then .ok (s.done, .placeholder none start acc)
      else .ok (s.done, .placeholder none start (c :: acc))
  return ⟨s.pos + c.utf8Size, done, pending⟩

/-- The lexemes at the end of the text. -/
def Scan.finish (s : Scan) : Except Error (List Token) :=
  match s.pending with
  | .nothing => .ok s.done.reverse
  | .word acc => .ok (Token.word acc.reverse :: s.done).reverse
  | .quoted _ start _ => .error (.invalid (.unclosedQuote start))
  | .placeholder _ start _ => .error (.unclosedAngle start)

/-- The lexemes of a text. -/
def tokenChars (cs : List Char) : Except Error (List Token) := do
  (← cs.foldlM Scan.step Scan.start).finish

/-- The lexemes of a text. -/
def tokens (source : String) : Except Error (List Token) :=
  tokenChars source.toList

end Notation
end CommandGrammar
