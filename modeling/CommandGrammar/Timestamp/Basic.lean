/-!
# `CommandGrammar.Timestamp.Basic` — moments in UTC

## Contents
- `Timestamp`: a UTC day, a second of that day and a fraction, leap seconds included.
-/

namespace CommandGrammar

/-- A moment in UTC. A leap second is the second before it with a fraction of a whole second or
more, so it is written with second `60`. -/
structure Timestamp where
  /-- Days since 1970-01-01. -/
  day : Int
  /-- Seconds since midnight, less than 86400. -/
  second : Nat
  /-- Nanoseconds, less than 10^9, or less than 2 · 10^9 within a leap second. -/
  nano : Nat
  deriving Repr, DecidableEq

end CommandGrammar
