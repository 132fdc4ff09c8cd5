/-!
# `CommandGrammar.Notation.Error` — what can be wrong with a declaration

## Contents
- `Notation.Fault`, `Notation.Error`: causes that lie in the text of a notation.
- `Scheme.Error`: all causes, missing names and unknown types included.
- The text shown for each.
-/

namespace CommandGrammar
namespace Notation

/-- A text that does not follow the notation. Positions count UTF-8 bytes from the start. -/
inductive Fault where
  /-- A quote outside angle brackets is open at the end. -/
  | unclosedQuote (pos : Nat)
  /-- A closing mark or a bar where none can stand. -/
  | unexpected (c : Char) (pos : Nat)
  /-- Square brackets around nothing. -/
  | emptyOptional (pos : Nat)
  /-- A colon after a variable's name, and nothing after it. -/
  | missingType (name : String)
  /-- A choice that does not begin with a quote. -/
  | unquotedChoice (choices : String)
  /-- A choice without its closing quote. -/
  | unclosedChoice (choices : String)
  /-- A character other than a bar after a choice. -/
  | unexpectedInChoices (c : Char) (choices : String)
  deriving Repr, DecidableEq

/-- Why a text is no notation. -/
inductive Error where
  | unclosedAngle (pos : Nat)
  | unclosedSquare (pos : Nat)
  | unclosedParen (pos : Nat)
  /-- A union branch without segments, or an empty choice. -/
  | emptyAlternative
  | invalid (fault : Fault)
  deriving Repr, DecidableEq

/-- The text shown for a fault. -/
def Fault.message : Fault → String
  | .unclosedQuote pos => "unclosed quote starting at position " ++ toString pos
  | .unexpected c pos => "unexpected '" ++ c.toString ++ "' at position " ++ toString pos
  | .emptyOptional pos => "empty optional group at position " ++ toString pos
  | .missingType name => "missing type after '" ++ name ++ ":'"
  | .unquotedChoice choices => "enum choices must be quoted: " ++ choices
  | .unclosedChoice choices => "unclosed quote in choices: " ++ choices
  | .unexpectedInChoices c choices =>
    "unexpected '" ++ c.toString ++ "' in choices: " ++ choices

/-- The text shown for an error in a notation. -/
def Error.message : Error → String
  | .unclosedAngle pos => "unclosed angle bracket at position " ++ toString pos
  | .unclosedSquare pos => "unclosed square bracket at position " ++ toString pos
  | .unclosedParen pos => "unclosed parenthesis at position " ++ toString pos
  | .emptyAlternative => "empty alternative"
  | .invalid fault => "invalid syntax: " ++ fault.message

end Notation

namespace Scheme

/-- Why a scheme cannot be declared. -/
inductive Error where
  | missingKeywordName
  | missingVariableName
  | unsupportedType (name : String)
  | malformed (cause : Notation.Error)
  deriving Repr, DecidableEq

/-- The text shown for a scheme that cannot be declared. -/
def Error.message : Error → String
  | .missingKeywordName => "missing keyword name"
  | .missingVariableName => "missing variable name"
  | .unsupportedType name => "unsupported variable type: " ++ name
  | .malformed cause => "grammar notation error: " ++ cause.message

end Scheme
end CommandGrammar
