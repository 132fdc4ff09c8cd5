import CommandGrammar.Text.Blank
import CommandGrammar.Decimal.Reading
import CommandGrammar.Timestamp.Basic
import CommandGrammar.Timestamp.Calendar

/-!
# `CommandGrammar.Timestamp.Reader` — moments from text

Three families of texts denote a moment:

* internet time, `2024-03-01T12:30:00.5+01:00`: fixed widths, an offset is required;
* mail time, `Fri, 01 Mar 2024 12:30:00 +0100`: a zone is required, comments may follow;
* plain dates and date-times, `2024-3-1` or `2024-03-01 12:30`: no offset, taken as UTC.

## Contents
- `Scanner`: reading off the front of a text; `blanks`, `digits`, `fraction`, `offset`.
- `Civil`: the fields of a moment; `Civil.toTimestamp?` checks them.
- `internetTime`, `mailTime`, `plainTime`: the three families.
- `Timestamp.ofText?`: the first family that reads the whole text.
-/

namespace CommandGrammar
namespace Timestamp

/-! ## Reading off the front -/

/-- Reads a value off the front of a text, or fails. -/
abbrev Scanner := StateT (List Char) Option

/-- Read the given character. -/
def exactly (c : Char) : Scanner Unit := fun
  | d :: rest => if c = d then some ((), rest) else none
  | [] => none

/-- Read one character of the given kind. -/
def oneOf (p : Char → Bool) : Scanner Char := fun
  | c :: rest => if p c then some (c, rest) else none
  | [] => none

/-- Read any number of blanks. -/
def blanks : Scanner Unit := fun cs => some ((), Text.dropBlank cs)

/-- Read at least one blank. -/
def someBlanks : Scanner Unit := do
  let _ ← oneOf Text.isBlank
  blanks

/-- Read at least `least` digits, at most `most`: their value and their number. -/
def digits (least most : Nat) : Scanner (Nat × Nat) := fun cs =>
  let ds := (cs.take most).takeWhile Char.isDigit
  if ds.length < least then none
  else some ((Decimal.natOfDigits ds, ds.length), cs.drop ds.length)

/-- Read all digits at the front, at least `least`: their value and their number. -/
def allDigits (least : Nat) : Scanner (Nat × Nat) := fun cs => digits least cs.length cs

/-- Read exactly two digits. -/
def twoDigits : Scanner Nat := do
  return (← digits 2 2).1

/-- Read a point and digits, if there is a point: nanoseconds, further digits cut off. -/
def fraction : Scanner Nat := do
  match ← get with
  | '.' :: rest =>
    set rest
    let (value, count) ← digits 1 9
    let _ ← allDigits 0
    return value * Nat.pow 10 (9 - count)
  | _ => return 0

/-- Read a sign, two digits of hours, a separator and two digits of minutes: an offset in
seconds, less than a day. -/
def offset (minus : List Char) (separator : Scanner Unit) : Scanner Int := do
  let sign ← oneOf fun c => c == '+' || minus.contains c
  let hours ← twoDigits
  separator
  let minutes ← twoDigits
  if hours ≤ 23 ∧ minutes ≤ 59 then
    let seconds : Int := hours * 3600 + minutes * 60
    return if sign = '+' then seconds else -seconds
  else failure

/-! ## Fields -/

/-- The fields of a moment, local to an offset from UTC in seconds. -/
structure Civil where
  date : Calendar.Date
  hour : Nat
  minute : Nat
  /-- 60 within a leap second. -/
  second : Nat
  nano : Nat
  offset : Int

/-- The moment of fields that exist. -/
def Civil.toTimestamp? (c : Civil) : Option Timestamp :=
  if c.date.Exists ∧ c.hour ≤ 23 ∧ c.minute ≤ 59 ∧ c.second ≤ 60 then
    let leap := c.second = 60
    let second : Int := if leap then 59 else c.second
    let utc := 86400 * c.date.toDay + 3600 * c.hour + 60 * c.minute + second - c.offset
    let t : Timestamp :=
      ⟨utc / 86400, (utc % 86400).toNat, if leap then c.nano + 1000000000 else c.nano⟩
    if (Calendar.Date.ofDay t.day).Exists then some t else none
  else none

/-- The moment read from a whole text. -/
def whole (s : Scanner Civil) (cs : List Char) : Option Timestamp :=
  match s cs with
  | some (c, []) => c.toTimestamp?
  | _ => none

/-! ## Internet time -/

/-- A date and a time in fixed widths, an optional fraction, and `Z` or an offset with a colon. -/
def internetTime : Scanner Civil := do
  let year := (← digits 4 4).1
  exactly '-'
  let month ← twoDigits
  exactly '-'
  let day ← twoDigits
  let _ ← oneOf fun c => c == 'T' || c == 't' || c == ' '
  let hour ← twoDigits
  exactly ':'
  let minute ← twoDigits
  exactly ':'
  let second ← twoDigits
  let nano ← fraction
  let zone ← (do let _ ← oneOf (fun c => c == 'Z' || c == 'z'); return 0)
    <|> offset ['-', '\u2212'] (exactly ':')
  return ⟨⟨year, month, day⟩, hour, minute, second, nano, zone⟩

/-! ## Mail time -/

/-- The short names of the days of the week, from Sunday. -/
def weekdayNames : List String := ["sun", "mon", "tue", "wed", "thu", "fri", "sat"]

/-- The short names of the months. -/
def monthNames : List String :=
  ["jan", "feb", "mar", "apr", "may", "jun", "jul", "aug", "sep", "oct", "nov", "dec"]

/-- Read one of the given three-letter names in any case: its place in the list. -/
def shortName (names : List String) : Scanner Nat := fun cs =>
  (names.idxOf? (String.ofList ((cs.take 3).map Char.toLower))).map fun i => (i, cs.drop 3)

/-- The zones with a name, and their offsets in hours. -/
def zoneNames : List (String × Int) :=
  [("gmt", 0), ("ut", 0), ("z", 0), ("edt", -4), ("est", -5), ("cdt", -5), ("cst", -6),
   ("mdt", -6), ("mst", -7), ("pdt", -7), ("pst", -8)]

/-- The offset of a zone's name, in lower case; single letters but `j` say nothing about it. -/
def namedOffset (name : String) : Option Int :=
  match zoneNames.lookup name with
  | some hours => some (hours * 3600)
  | none => if name.length = 1 ∧ name ≠ "j" then some 0 else none

/-- Read a zone: a name, or an offset without a colon. -/
def zone : Scanner Int := fun cs =>
  let name := cs.takeWhile Char.isAlpha
  if name.isEmpty then offset ['-'] (pure ()) cs
  else
    (namedOffset (String.ofList (name.map Char.toLower))).map fun o => (o, cs.drop name.length)

/-- Skip the rest of a comment that is open `depth + 1` deep; a backslash takes the next character
as it is. -/
def commentTail : Nat → List Char → Option (List Char)
  | _, [] => none
  | depth, '\\' :: rest =>
    match rest with
    | [] => none
    | _ :: rest => commentTail depth rest
  | depth, '(' :: rest => commentTail (depth + 1) rest
  | 0, ')' :: rest => some rest
  | depth + 1, ')' :: rest => commentTail depth rest
  | depth, _ :: rest => commentTail depth rest

/-- Skip as many comments in parentheses as there are, at most `fuel`. -/
def dropComments : Nat → List Char → List Char
  | 0, cs => cs
  | fuel + 1, cs =>
    match Text.dropBlank cs with
    | '(' :: rest =>
      match commentTail 0 rest with
      | some rest => dropComments fuel rest
      | none => cs
    | _ => cs

/-- The year meant by so many digits: two of them lie between 1950 and 2049, three count from
1900. -/
def mailYear (value count : Nat) : Nat :=
  if count = 2 then if value ≤ 49 then value + 2000 else value + 1900
  else if count = 3 then value + 1900
  else value

/-- Read a colon and two digits, if there is a colon, perhaps after blanks. -/
def mailSecond : Scanner Nat := do
  match Text.dropBlank (← get) with
  | ':' :: rest =>
    set rest
    twoDigits
  | _ => return 0

/-- An optional day of the week, which must be the right one, day, month, year, time, zone and
comments. -/
def mailTime : Scanner Civil := do
  blanks
  let named ← (some <$> shortName weekdayNames) <|> pure none
  if named.isSome then exactly ','
  blanks
  let day := (← digits 1 2).1
  someBlanks
  let month := (← shortName monthNames) + 1
  someBlanks
  let (value, count) ← allDigits 2
  let date : Calendar.Date := ⟨mailYear value count, month, day⟩
  someBlanks
  let hour ← twoDigits
  blanks
  exactly ':'
  blanks
  let minute ← twoDigits
  let second ← mailSecond
  someBlanks
  let offset ← zone
  modify fun cs => dropComments cs.length cs
  match named with
  | some d => if Calendar.weekday date.toDay ≠ d then failure
  | none => pure ()
  return ⟨date, hour, minute, second, 0, offset⟩

/-! ## Plain dates and date-times -/

/-- Read a year: one to four digits, or a sign and digits. Blanks may stand before it. -/
def plainYear : Scanner Int := do
  blanks
  match ← get with
  | '-' :: rest =>
    set rest
    return -((← allDigits 1).1 : Int)
  | '+' :: rest =>
    set rest
    return (← allDigits 1).1
  | _ => return (← digits 1 4).1

/-- Read a field of one or two digits. Blanks may stand before it. -/
def plainField : Scanner Nat := do
  blanks
  return (← digits 1 2).1

/-- A year, a month and a day with hyphens between them. -/
def plainDate : Scanner Calendar.Date := do
  let year ← plainYear
  exactly '-'
  let month ← plainField
  exactly '-'
  let day ← plainField
  return ⟨year, month, day⟩

/-- A date, something that separates it from the time, hours and minutes, and what follows them. -/
def plainTime (separator : Scanner Unit) (seconds : Scanner (Nat × Nat)) : Scanner Civil := do
  let date ← plainDate
  separator
  let hour ← plainField
  exactly ':'
  let minute ← plainField
  let (second, nano) ← seconds
  return ⟨date, hour, minute, second, nano, 0⟩

/-- Seconds and an optional fraction. -/
def plainSeconds : Scanner (Nat × Nat) := do
  exactly ':'
  let second ← plainField
  return (second, ← fraction)

/-- Midnight of a plain date. -/
def plainDay : Scanner Civil := do
  return ⟨← plainDate, 0, 0, 0, 0, 0⟩

/-! ## All families -/

/-- The forms in the order in which they are tried. -/
def forms : List (Scanner Civil) :=
  [internetTime, mailTime, plainTime (exactly 'T') plainSeconds,
   plainTime (exactly 'T') (pure (0, 0)), plainTime blanks plainSeconds,
   plainTime blanks (pure (0, 0)), plainDay]

/-- The moment that a text denotes; blanks around it do not matter. -/
def ofText? (s : String) : Option Timestamp :=
  let cs := Text.trim s.toList
  forms.findSome? fun f => whole f cs

end Timestamp
end CommandGrammar
