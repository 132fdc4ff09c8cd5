/-!
# `CommandGrammar.Decimal.Shortest` — the fewest digits that read back

The reals that round to a given double form an interval. Among the decimals in it, those with the
fewest digits are wanted, and of these the nearest to the double. The search is exact: it walks the
decimal grids from coarse to fine and asks, on each, whether one of the double's two neighbours on
the grid lies in the interval.

## Contents
- `Decimal`: a finite decimal.
- `Magnitude`, `Magnitude.ofFields`: a positive double as `m · 2^q`.
- `Magnitude.Holds`: the interval of the decimals that read back.
- `Magnitude.shortest`: the search.
-/

namespace CommandGrammar

/-- The decimal `coefficient · 10^exponent`. -/
structure Decimal where
  coefficient : Nat
  exponent : Int
  deriving Repr, DecidableEq

namespace Decimal

/-- A positive finite double `m · 2^q`. -/
structure Magnitude where
  m : Nat
  q : Int
  /-- The double below is only half as far away as the double above. -/
  narrow : Bool
  deriving Repr, DecidableEq

/-- Which of two equally near decimals is taken. -/
inductive Tie where
  /-- The larger one. -/
  | up
  /-- The one with an even last digit. -/
  | even
  deriving Repr, DecidableEq

/-- The magnitude of a finite double, given by its exponent and fraction fields. -/
def Magnitude.ofFields (exponent fraction : Nat) : Magnitude :=
  if exponent = 0 then ⟨fraction, -1074, false⟩
  else ⟨fraction + Nat.pow 2 52, exponent - 1075, fraction = 0 && 1 < exponent⟩

/-- The two factors that compare `m · 2^q` with multiples of `10^k`: a multiple `d · 10^k` is below
`m · 2^q` iff `d · B < m · A`. -/
def factors (q k : Int) : Nat × Nat :=
  (Nat.pow 2 q.toNat * Nat.pow 10 (-k).toNat, Nat.pow 2 (-q).toNat * Nat.pow 10 k.toNat)

/-- Whether `d · 10^k` reads back as the double: it lies between the middles to the two
neighbours, the middles themselves included iff `m` is even. -/
def Magnitude.Holds (x : Magnitude) (d : Nat) (k : Int) : Prop :=
  let (a, b) := factors x.q k
  let lo := (if x.narrow then 4 * x.m - 1 else 4 * x.m - 2) * a
  let hi := (4 * x.m + 2) * a
  if x.m % 2 = 0 then lo ≤ 4 * d * b ∧ 4 * d * b ≤ hi else lo < 4 * d * b ∧ 4 * d * b < hi

instance (x : Magnitude) (d : Nat) (k : Int) : Decidable (x.Holds d k) := by
  unfold Magnitude.Holds
  exact inferInstance

/-- The coefficient on the grid `10^k` that reads back and is nearest, if there is one. -/
def Magnitude.onGrid (x : Magnitude) (tie : Tie) (k : Int) : Option Nat :=
  let (a, b) := factors x.q k
  let low := x.m * a / b
  if x.Holds low k then
    if x.Holds (low + 1) k then
      let twice := 2 * (x.m * a)
      let middle := (2 * low + 1) * b
      if twice < middle then some low
      else if middle < twice then some (low + 1)
      else match tie with
        | .up => some (low + 1)
        | .even => some (if low % 2 = 0 then low else low + 1)
    else some low
  else if x.Holds (low + 1) k then some (low + 1)
  else none

/-- Search `fuel` grids, from `10^k` to finer ones; the exact value if none of them has a hit. -/
def Magnitude.search (x : Magnitude) (tie : Tie) : Nat → Int → Decimal
  | 0, _ =>
    if 0 ≤ x.q then ⟨x.m * Nat.pow 2 x.q.toNat, 0⟩ else ⟨x.m * Nat.pow 5 (-x.q).toNat, x.q⟩
  | fuel + 1, k =>
    match x.onGrid tie k with
    | some d => ⟨d, k⟩
    | none => x.search tie fuel (k - 1)

/-- The decimal with the fewest digits that reads back. The search begins at a grid coarser than
the double itself; seventeen digits are always enough. -/
def Magnitude.shortest (x : Magnitude) (tie : Tie) : Decimal :=
  x.search tie 24 ((x.m.log2 + x.q) * 30103 / 100000 + 2)

end Decimal
end CommandGrammar
