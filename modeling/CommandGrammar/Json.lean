import CommandGrammar.Decimal.Layout

/-!
# `CommandGrammar.Json` — documents and their text

## Contents
- `Json`: a document; an object keeps its members in the order given.
- `Json.escape`, `Json.numbers`: texts and numbers in a document.
- `Json.compact`, `Json.pretty`: a document on one line, or indented by two spaces.
-/

namespace CommandGrammar

/-- A document. -/
inductive Json where
  | null
  | bool (b : Bool)
  | number (x : Float)
  | string (s : String)
  | array (items : List Json)
  | object (members : List (String × Json))

namespace Json

/-- A character inside a quoted text. -/
def escapeChar (c : Char) : String :=
  if c = '"' then "\\\""
  else if c = '\\' then "\\\\"
  else if c = '\n' then "\\n"
  else if c = '\r' then "\\r"
  else if c = '\t' then "\\t"
  else if c = '\x08' then "\\b"
  else if c = '\x0c' then "\\f"
  else if c.toNat < 0x20 then
    "\\u00" ++ String.ofList [Nat.digitChar (c.toNat / 16), Nat.digitChar (c.toNat % 16)]
  else c.toString

/-- A quoted text. -/
def escape (s : String) : String :=
  "\"" ++ String.join (s.toList.map escapeChar) ++ "\""

/-- Numbers are written without an exponent from 0.00001 up to sixteen digits before the point, and
then always with a fraction; what is not finite is written as `null`. -/
def numbers : Decimal.Layout where
  tie := .even
  positional p := -5 < p && p ≤ 16
  whole := ".0"
  infinity := "null"
  negativeInfinity := "null"
  notANumber := "null"

mutual

/-- A document on one line, without blanks. -/
def compact : Json → String
  | .null => "null"
  | .bool b => if b then "true" else "false"
  | .number x => numbers.render x
  | .string s => escape s
  | .array items => "[" ++ ",".intercalate (compactItems items) ++ "]"
  | .object members => "\x7b" ++ ",".intercalate (compactMembers members) ++ "\x7d"

/-- The items of an array, each on one line. -/
def compactItems : List Json → List String
  | [] => []
  | j :: rest => j.compact :: compactItems rest

/-- The members of an object, each on one line. -/
def compactMembers : List (String × Json) → List String
  | [] => []
  | (k, j) :: rest => (escape k ++ ":" ++ j.compact) :: compactMembers rest

end

/-- The line break and the blanks before an item at the given depth. -/
def indent (depth : Nat) : String :=
  "\n" ++ String.ofList (List.replicate (2 * depth) ' ')

/-- Items in brackets, each on a line of its own; nothing stands between the brackets if there are
no items. -/
def bracketed (opening closing : String) (depth : Nat) (items : List String) : String :=
  if items.isEmpty then opening ++ closing
  else
    let lines := items.map fun i => indent (depth + 1) ++ i
    opening ++ ",".intercalate lines ++ indent depth ++ closing

mutual

/-- A document at the given depth, with items and members on lines of their own. -/
def prettyAt (depth : Nat) : Json → String
  | .null => "null"
  | .bool b => if b then "true" else "false"
  | .number x => numbers.render x
  | .string s => escape s
  | .array items => bracketed "[" "]" depth (prettyItems (depth + 1) items)
  | .object members => bracketed "\x7b" "\x7d" depth (prettyMembers (depth + 1) members)

/-- The items of an array, without their indentation. -/
def prettyItems (depth : Nat) : List Json → List String
  | [] => []
  | j :: rest => j.prettyAt depth :: prettyItems depth rest

/-- The members of an object, without their indentation. -/
def prettyMembers (depth : Nat) : List (String × Json) → List String
  | [] => []
  | (k, j) :: rest => (escape k ++ ": " ++ j.prettyAt depth) :: prettyMembers depth rest

end

/-- A document with items and members on lines of their own, indented by two spaces. -/
def pretty (j : Json) : String := j.prettyAt 0

end Json
end CommandGrammar
