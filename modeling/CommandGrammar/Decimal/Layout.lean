import CommandGrammar.Decimal.Shortest

/-!
# `CommandGrammar.Decimal.Layout` — numbers as text

## Contents
- `Layout`: what a format decides about the text of a number.
- `Layout.render`: the text of a double.
-/

namespace CommandGrammar
namespace Decimal

/-- What a format decides about the text of a number. -/
structure Layout where
  /-- Which of two equally near shortest decimals is written. -/
  tie : Tie
  /-- Whether a number whose point stands after `p` digits is written without an exponent. -/
  positional : Int → Bool
  /-- What follows a whole number that is written without an exponent. -/
  whole : String
  infinity : String
  negativeInfinity : String
  notANumber : String

/-- `n` zeros. -/
def zeros (n : Nat) : String :=
  String.ofList (List.replicate n '0')

/-- The digits of a decimal without the zeros at their end, and the number of digits before the
point. -/
def digits (d : Decimal) : String × Int :=
  let ds := Nat.toDigits 10 d.coefficient
  (String.ofList (ds.reverse.dropWhile (· == '0')).reverse, ds.length + d.exponent)

/-- Digits with the point after `p` of them, without an exponent. -/
def Layout.point (l : Layout) (ds : String) (p : Int) : String :=
  if p ≤ 0 then "0." ++ zeros (-p).toNat ++ ds
  else if ds.length ≤ p.toNat then ds ++ zeros (p.toNat - ds.length) ++ l.whole
  else String.ofList (ds.toList.take p.toNat) ++ "." ++ String.ofList (ds.toList.drop p.toNat)

/-- Digits with an exponent that says where the point belongs. -/
def scientific (ds : String) (p : Int) : String :=
  let e := p - 1
  let exponent := (if e < 0 then "e-" else "e+") ++ toString e.natAbs
  match ds.toList with
  | [] => "0" ++ exponent
  | [d] => d.toString ++ exponent
  | d :: rest => d.toString ++ "." ++ String.ofList rest ++ exponent

/-- The text of a double. -/
def Layout.render (l : Layout) (x : Float) : String :=
  let bits := x.toBits.toNat
  let exponent := bits / Nat.pow 2 52 % Nat.pow 2 11
  let fraction := bits % Nat.pow 2 52
  let negative := bits / Nat.pow 2 63 = 1
  if exponent = 2047 then
    if fraction ≠ 0 then l.notANumber else if negative then l.negativeInfinity else l.infinity
  else
    let sign := if negative then "-" else ""
    if exponent = 0 ∧ fraction = 0 then sign ++ "0" ++ l.whole
    else
      let (ds, p) := ((Magnitude.ofFields exponent fraction).shortest l.tie).digits
      sign ++ if l.positional p then l.point ds p else scientific ds p

end Decimal
end CommandGrammar
