import CommandGrammar.Resolution.Binding
import CommandGrammar.Text.Blank

/-!
# `CommandGrammar.Template` — texts with placeholders

A template is a text in which a name in braces stands for the binding of that name; a doubled brace
stands for a brace.

The reader is a left fold of `Scan.step` over the characters. It fails at an empty placeholder, or
at the end if a brace is still open.

## Contents
- `Template.Part`, `Template.Error`.
- `Template.Scan`, `Template.parse`: reading.
- `Template.placeholders`, `Template.render`: names, and the text for given bindings.
-/

namespace CommandGrammar

/-- A piece of a template. -/
inductive Template.Part where
  | literal (text : String)
  | placeholder (name : String)
  deriving Repr, DecidableEq

/-- A text with placeholders. -/
structure Template where
  parts : List Template.Part
  deriving Repr, DecidableEq

namespace Template

/-- Why a text is no template; with the text. -/
inductive Error where
  /-- A brace is open at the end. -/
  | unclosedBrace (source : String)
  /-- Braces around nothing but blanks. -/
  | emptyPlaceholder (source : String)
  deriving Repr, DecidableEq

/-- The text shown for a text that is no template. -/
def Error.message : Error → String
  | .unclosedBrace source => "unclosed '\x7b' in template '" ++ source ++ "'"
  | .emptyPlaceholder source => "empty placeholder in template '" ++ source ++ "'"

/-! ## Reading -/

/-- How the next character is read. -/
inductive Mode where
  | text
  /-- After an opening brace. -/
  | opened
  /-- After a closing brace. -/
  | closed
  /-- In a placeholder; its characters so far, newest first. -/
  | name (acc : List Char)
  deriving Repr, DecidableEq

/-- The state between two characters: finished pieces and the literal text after them, both newest
first. -/
structure Scan where
  mode : Mode
  done : List Part
  literal : List Char

/-- The state before the first character. -/
def Scan.start : Scan := ⟨.text, [], []⟩

/-- The pieces so far, the literal text included, newest first. -/
def Scan.pieces (s : Scan) : List Part :=
  if s.literal.isEmpty then s.done else .literal (String.ofList s.literal.reverse) :: s.done

/-- Add a character of literal text. -/
def Scan.put (s : Scan) (c : Char) : Scan := { s with mode := .text, literal := c :: s.literal }

/-- Read a character of literal text. -/
def Scan.plain (s : Scan) (c : Char) : Scan :=
  if c = '\x7b' then { s with mode := .opened }
  else if c = '\x7d' then { s with mode := .closed }
  else s.put c

/-- Read one character of the template `source`. -/
def Scan.step (source : String) (s : Scan) (c : Char) : Except Error Scan :=
  match s.mode with
  | .text => .ok (s.plain c)
  | .opened =>
    if c = '\x7b' then .ok (s.put '\x7b')
    else if c = '\x7d' then .error (.emptyPlaceholder source)
    else .ok { s with mode := .name [c] }
  | .closed => if c = '\x7d' then .ok (s.put '\x7d') else .ok ((s.put '\x7d').plain c)
  | .name acc =>
    if c = '\x7d' then
      let name := Text.trim acc.reverse
      if name.isEmpty then .error (.emptyPlaceholder source)
      else .ok ⟨.text, .placeholder (String.ofList name) :: s.pieces, []⟩
    else .ok { s with mode := .name (c :: acc) }

/-- The template at the end of its text. -/
def Scan.finish (source : String) (s : Scan) : Except Error Template :=
  match s.mode with
  | .text => .ok ⟨s.pieces.reverse⟩
  | .closed => .ok ⟨(s.put '\x7d').pieces.reverse⟩
  | .opened | .name _ => .error (.unclosedBrace source)

/-- The template of a text. -/
def parse (source : String) : Except Error Template := do
  (← source.toList.foldlM (Scan.step source) Scan.start).finish source

/-! ## Use -/

/-- The name that a piece stands for. -/
def Part.name? : Part → Option String
  | .literal _ => none
  | .placeholder name => some name

/-- The names in a template, in order. -/
def placeholders (t : Template) : List String :=
  t.parts.filterMap Part.name?

/-- The text of a piece; a name that is not bound has none. -/
def Part.render (b : Bindings) : Part → String
  | .literal text => text
  | .placeholder name => ((b.find? name).map Binding.toText).getD ""

/-- The text of a template for given bindings. -/
def render (t : Template) (b : Bindings) : String :=
  String.join (t.parts.map (Part.render b))

end Template
end CommandGrammar
