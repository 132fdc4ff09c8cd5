import CommandGrammar.Json
import CommandGrammar.Timestamp.Printer
import CommandGrammar.Value.Basic

/-!
# `CommandGrammar.Value.Printer` — values as text

## Contents
- `Value.numbers`, `Value.toText`: the text that replies show.
- `Value.toJson`: the value in a document.
-/

namespace CommandGrammar
namespace Value

/-- Numbers in replies are written without an exponent, and whole numbers without a point. -/
def numbers : Decimal.Layout where
  tie := .up
  positional _ := true
  whole := ""
  infinity := "inf"
  negativeInfinity := "-inf"
  notANumber := "NaN"

/-- The text of a value. -/
def toText : Value → String
  | .text s => s
  | .number x => numbers.render x
  | .boolean b => if b then "true" else "false"
  | .date t => t.text

/-- The value in a document. -/
def toJson : Value → Json
  | .text s => .string s
  | .number x => .number x
  | .boolean b => .bool b
  | .date t => .string t.zuluText

end Value
end CommandGrammar
