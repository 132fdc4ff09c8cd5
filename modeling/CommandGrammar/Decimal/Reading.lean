/-!
# `CommandGrammar.Decimal.Reading` — numbers from text

## Contents
- `Literal`, `Literal.ofChars?`: the parts of a decimal literal.
- `Literal.toFloat`: the double nearest to it.
- `natOfChars?`: a whole number in a given base.
- `floatOfChars?`: a literal, an infinity or a NaN.
-/

namespace CommandGrammar
namespace Decimal

/-- A decimal literal `± mantissa · 10^exponent`. -/
structure Literal where
  negative : Bool
  mantissa : Nat
  exponent : Int
  deriving Repr, DecidableEq

/-- The value of a list of decimal digits. -/
def natOfDigits (ds : List Char) : Nat :=
  ds.foldl (fun n d => 10 * n + (d.toNat - '0'.toNat)) 0

/-- Split off an optional sign. -/
def splitSign : List Char → Bool × List Char
  | '-' :: rest => (true, rest)
  | '+' :: rest => (false, rest)
  | cs => (false, cs)

/-- What follows the mantissa: nothing, or `e`, an optional sign and at least one digit. -/
def readExponent : List Char → Option Int
  | [] => some 0
  | c :: rest =>
    if c = 'e' ∨ c = 'E' then
      let (negative, ds) := splitSign rest
      if ds.isEmpty ∨ !ds.all Char.isDigit then none
      else some (if negative then -(natOfDigits ds : Int) else natOfDigits ds)
    else none

/-- An optional sign, digits with an optional point among or beside them, and an optional
exponent. -/
def Literal.ofChars? (cs : List Char) : Option Literal :=
  let (negative, body) := splitSign cs
  let whole := body.takeWhile Char.isDigit
  let (fraction, tail) :=
    match body.dropWhile Char.isDigit with
    | '.' :: rest => (rest.takeWhile Char.isDigit, rest.dropWhile Char.isDigit)
    | rest => ([], rest)
  if whole.isEmpty ∧ fraction.isEmpty then none
  else
    (readExponent tail).map fun e =>
      ⟨negative, natOfDigits (whole ++ fraction), e - fraction.length⟩

/-- The double nearest to a literal, ties to even; what is far out of range is infinite or zero. -/
def Literal.toFloat (l : Literal) : Float :=
  let size := (Nat.toDigits 10 l.mantissa).length + l.exponent
  let magnitude : Float :=
    if l.mantissa = 0 ∨ size < -400 then 0.0
    else if 400 < size then 1.0 / 0.0
    else Float.ofScientific l.mantissa (l.exponent < 0) l.exponent.natAbs
  if l.negative then -magnitude else magnitude

/-- The value of a digit, of either case above nine. -/
def digitValue (c : Char) : Option Nat :=
  if c.isDigit then some (c.toNat - '0'.toNat)
  else if 'a' ≤ c ∧ c ≤ 'z' then some (c.toNat - 'a'.toNat + 10)
  else if 'A' ≤ c ∧ c ≤ 'Z' then some (c.toNat - 'A'.toNat + 10)
  else none

/-- A whole number in the given base, at least one digit, with an optional plus before it. -/
def natOfChars? (base : Nat) (cs : List Char) : Option Nat :=
  let ds := match cs with
    | '+' :: rest => rest
    | cs => cs
  if ds.isEmpty then none
  else
    ds.foldlM (fun n c =>
      match digitValue c with
      | some d => if d < base then some (base * n + d) else none
      | none => none) 0

/-- The double that a text denotes: a literal, or `inf`, `infinity` or `nan` in any case. -/
def floatOfChars? (cs : List Char) : Option Float :=
  match Literal.ofChars? cs with
  | some l => some l.toFloat
  | none =>
    let (negative, body) := splitSign cs
    let word := String.ofList (body.map Char.toLower)
    let magnitude : Option Float :=
      if word = "inf" ∨ word = "infinity" then some (1.0 / 0.0)
      else if word = "nan" then some (0.0 / 0.0)
      else none
    magnitude.map fun x => if negative then -x else x

end Decimal
end CommandGrammar
