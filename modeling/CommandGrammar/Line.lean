import CommandGrammar.Text.Blank

/-!
# `CommandGrammar.Line` — words of a command line

A line is split into words at blanks. Single quotes are literal; double quotes keep blanks and know
a few escapes; a backslash outside quotes takes the next character as it is. A quoted empty text is
an empty word.

The splitter is a left fold of `Scan.step` over the characters, so reading `u ++ v` is reading `v`
from where `u` ended. A line is refused only at its end, when a quote is still open.

## Contents
- `Scan`, `Scan.step`, `Scan.finish`: the splitter's state, one character, and the end of the line.
- `words`: the words of a submitted (`strict`) or still edited (`tolerant`) line.
- `quote`, `join`: a line that reads back as a given list of words.
-/

namespace CommandGrammar
namespace Line

/-- Why a line has no words. -/
inductive Error where
  /-- A quote is open at the end of the line. -/
  | unclosedQuote
  deriving Repr, DecidableEq

/-- The text shown for an unreadable line. -/
def Error.message : Error → String
  | .unclosedQuote => "unclosed quote"

/-- What the blanks at the end of a line mean. -/
inductive Mode where
  /-- A submitted line: they mean nothing. -/
  | strict
  /-- A line being edited: after a word they begin a new, empty word. -/
  | tolerant
  deriving Repr, DecidableEq

/-! ## Reading -/

/-- How the next character is read. -/
inductive Quoting where
  | bare
  /-- After a backslash outside quotes. -/
  | escaped
  | single
  | double
  /-- After a backslash in double quotes. -/
  | doubleEscaped
  deriving Repr, DecidableEq

/-- The state between two characters: finished words and the word being read (both newest first). -/
structure Scan where
  quoting : Quoting
  done : List (List Char)
  /-- `none` between words; an opened quote begins a word before it has a character. -/
  word : Option (List Char)

/-- The state before the first character. -/
def Scan.start : Scan := ⟨.bare, [], none⟩

/-- Add a character to the word being read, and go on in the given quoting. -/
def Scan.put (s : Scan) (next : Quoting) (c : Char) : Scan :=
  ⟨next, s.done, some (c :: s.word.getD [])⟩

/-- Go on in the given quoting; a word is being read from here on. -/
def Scan.enter (s : Scan) (next : Quoting) : Scan :=
  ⟨next, s.done, some (s.word.getD [])⟩

/-- Finish the word being read, if there is one. -/
def Scan.break (s : Scan) : Scan :=
  match s.word with
  | some w => ⟨.bare, w.reverse :: s.done, none⟩
  | none => s

/-- The characters that a backslash in double quotes makes literal; before any other character the
backslash stays. -/
def escapable (c : Char) : Bool :=
  c == '"' || c == '\\' || c == '$' || c == '\x60'

/-- Read one character. A backslash before a line break stands for nothing, in and outside double
quotes. -/
def Scan.step (s : Scan) (c : Char) : Scan :=
  match s.quoting with
  | .bare =>
    if Text.isBlank c then s.break
    else if c = '\'' then s.enter .single
    else if c = '"' then s.enter .double
    else if c = '\\' then s.enter .escaped
    else s.put .bare c
  | .escaped => if c = '\n' then s.enter .bare else s.put .bare c
  | .single => if c = '\'' then s.enter .bare else s.put .single c
  | .double =>
    if c = '"' then s.enter .bare
    else if c = '\\' then s.enter .doubleEscaped
    else s.put .double c
  | .doubleEscaped =>
    if c = '\n' then s.enter .double
    else if escapable c then s.put .double c
    else (s.put .double '\\').put .double c

/-- The words at the end of the line. -/
def Scan.finish (mode : Mode) (s : Scan) : Except Error (List (List Char)) :=
  match s.quoting with
  | .bare | .escaped =>
    match s.word with
    | some w => .ok (w.reverse :: s.done).reverse
    | none =>
      if mode = .tolerant ∧ s.done ≠ [] then .ok ([] :: s.done).reverse else .ok s.done.reverse
  | .single | .double | .doubleEscaped => .error .unclosedQuote

/-- The words of a line, as character lists. -/
def wordChars (mode : Mode) (cs : List Char) : Except Error (List (List Char)) :=
  (cs.foldl Scan.step Scan.start).finish mode

/-- The words of a line. -/
def words (mode : Mode) (line : String) : Except Error (List String) :=
  (wordChars mode line.toList).map (·.map String.ofList)

/-- Reading a line in two parts: the second is read from where the first ended. -/
theorem wordChars_append (mode : Mode) (u v : List Char) :
    wordChars mode (u ++ v) = (v.foldl Scan.step (u.foldl Scan.step Scan.start)).finish mode := by
  simp [wordChars, List.foldl_append]

/-! ## Writing -/

/-- A word that stands for itself: not empty, without blanks, quotes and backslashes. -/
def isPlain (cs : List Char) : Bool :=
  !cs.isEmpty && !cs.any fun c => Text.isBlank c || c == '\'' || c == '"' || c == '\\'

/-- The inside of single quotes; a single quote closes them, is escaped, and opens them again. -/
def quotedChars (cs : List Char) : List Char :=
  cs.flatMap fun c => if c = '\'' then ['\'', '\\', '\'', '\''] else [c]

/-- A word as it is written in a line: bare if it is plain, else in single quotes. -/
def quoteChars (cs : List Char) : List Char :=
  if isPlain cs then cs else '\'' :: quotedChars cs ++ ['\'']

/-- The written words with one space between neighbours. -/
def joinChars (args : List (List Char)) : List Char :=
  List.intercalate [' '] (args.map quoteChars)

/-- A line whose words are the given ones. -/
def join (args : List String) : String :=
  String.ofList (joinChars (args.map String.toList))

end Line
end CommandGrammar
