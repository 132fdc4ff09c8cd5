import CommandGrammar.Timestamp.Basic
import CommandGrammar.Timestamp.Calendar

/-!
# `CommandGrammar.Timestamp.Printer` — moments as text

## Contents
- `Timestamp.civilText`: date and time, without a zone.
- `Timestamp.text`, `Timestamp.zuluText`: with the zone as an offset or as a letter.
-/

namespace CommandGrammar
namespace Timestamp

/-- A number with zeros before it, up to the given width. -/
def padded (width n : Nat) : String :=
  let ds := Nat.toDigits 10 n
  String.ofList (List.replicate (width - ds.length) '0' ++ ds)

/-- A year in four digits; one that needs more of them, or precedes year 0, carries a sign. -/
def yearText (year : Int) : String :=
  if 0 ≤ year ∧ year ≤ 9999 then padded 4 year.toNat
  else (if year < 0 then "-" else "+") ++ padded 4 year.natAbs

/-- A fraction of a second in as many groups of three digits as it needs. -/
def fractionText (nano : Nat) : String :=
  if nano = 0 then ""
  else if nano % 1000000 = 0 then "." ++ padded 3 (nano / 1000000)
  else if nano % 1000 = 0 then "." ++ padded 6 (nano / 1000)
  else "." ++ padded 9 nano

/-- Date and time with `T` between them; a leap second is second 60. -/
def civilText (t : Timestamp) : String :=
  let date := Calendar.Date.ofDay t.day
  let leap := t.nano / 1000000000
  yearText date.year ++ "-" ++ padded 2 date.month ++ "-" ++ padded 2 date.day ++ "T" ++
    padded 2 (t.second / 3600) ++ ":" ++ padded 2 (t.second / 60 % 60) ++ ":" ++
    padded 2 (t.second % 60 + leap) ++ fractionText (t.nano % 1000000000)

/-- The moment with the offset of UTC. -/
def text (t : Timestamp) : String := t.civilText ++ "+00:00"

/-- The moment with the letter of UTC. -/
def zuluText (t : Timestamp) : String := t.civilText ++ "Z"

end Timestamp
end CommandGrammar
