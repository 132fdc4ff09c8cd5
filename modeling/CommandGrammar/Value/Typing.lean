import CommandGrammar.Decimal.Reading
import CommandGrammar.Segment.Basic
import CommandGrammar.Text.Blank
import CommandGrammar.Timestamp.Reader

/-!
# `CommandGrammar.Value.Typing` — tokens against declared types

## Contents
- `Value.readNumber`: the number that a token denotes.
- `Variable.accepts`: whether a token fits the declared type of a variable.
- `Variable.coerce`: the value of a token under the declared type.
-/

namespace CommandGrammar
namespace Value

/-- A whole number below 2^64 in the given base, rounded to a double. -/
def readWord (base : Nat) (cs : List Char) : Option Float :=
  match Decimal.natOfChars? base cs with
  | some n => if n < Nat.pow 2 64 then some (Float.ofScientific n false 0) else none
  | none => none

/-- The number that a token denotes: decimal, with an exponent, in base 16, 8 or 2 after `0x`, `0o`
or `0b`, or `Infinity`. Blanks around it do not matter. -/
def readNumber (token : String) : Option Float :=
  match Text.trim token.toList with
  | '0' :: 'x' :: ds | '0' :: 'X' :: ds => readWord 16 ds
  | '0' :: 'o' :: ds | '0' :: 'O' :: ds => readWord 8 ds
  | '0' :: 'b' :: ds | '0' :: 'B' :: ds => readWord 2 ds
  | cs =>
    if cs = "Infinity".toList ∨ cs = "+Infinity".toList then some (1.0 / 0.0)
    else if cs = "-Infinity".toList then some (-1.0 / 0.0)
    else
      match Decimal.Literal.ofChars? cs with
      | some l => if l.toFloat.isFinite then some l.toFloat else none
      | none => none

end Value

namespace Variable

variable {ι : Type}

/-- Whether a token fits the declared type. A flag accepts its own name only. -/
def accepts (v : Variable ι) (token : String) : Bool :=
  match v.type with
  | none | some .any | some .string => true
  | some .number => (Value.readNumber token).isSome
  | some .boolean => token == "true" || token == "false"
  | some .date => (Timestamp.ofText? token).isSome
  | some .flag => token == v.name

/-- The value of a token under the declared type; a number or date that cannot be read stays
text. -/
def coerce (v : Variable ι) (token : String) : Value :=
  match v.type with
  | none | some .any | some .string => .text token
  | some .number =>
    match Value.readNumber token with
    | some x => .number x
    | none => .text token
  | some .boolean => .boolean (token == "true")
  | some .date =>
    match Timestamp.ofText? token with
    | some t => .date t
    | none => .text token
  | some .flag => .boolean true

end Variable
end CommandGrammar
