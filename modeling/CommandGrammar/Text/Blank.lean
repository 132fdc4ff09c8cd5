/-!
# `CommandGrammar.Text.Blank` — blank characters

The characters that separate words everywhere in this library: in a submitted line, in a grammar
notation, around a number or a date, inside a placeholder's braces.

## Contents
- `isBlank`: membership in the Unicode property `White_Space`, as a table of ranges.
- `dropBlank`, `dropBlankEnd`, `trim`: cutting blanks off the ends of a text.
-/

namespace CommandGrammar
namespace Text

/-- The ranges of the Unicode property `White_Space`, in code point order. -/
def blankRanges : List (Nat × Nat) :=
  [(0x09, 0x0D), (0x20, 0x20), (0x85, 0x85), (0xA0, 0xA0), (0x1680, 0x1680), (0x2000, 0x200A),
   (0x2028, 0x2029), (0x202F, 0x202F), (0x205F, 0x205F), (0x3000, 0x3000)]

/-- A character is blank iff it has the Unicode property `White_Space`. -/
def isBlank (c : Char) : Bool :=
  blankRanges.any fun (lo, hi) => lo ≤ c.toNat && c.toNat ≤ hi

/-- The text without its leading blanks. -/
def dropBlank (cs : List Char) : List Char :=
  cs.dropWhile isBlank

/-- The text without its trailing blanks. -/
def dropBlankEnd (cs : List Char) : List Char :=
  (cs.reverse.dropWhile isBlank).reverse

/-- The text without blanks at either end. -/
def trim (cs : List Char) : List Char :=
  dropBlankEnd (dropBlank cs)

/-- Every white-space character of the core library is blank. -/
theorem isBlank_of_isWhitespace {c : Char} (h : c.isWhitespace = true) : isBlank c = true := by
  simp only [Char.isWhitespace, Bool.or_eq_true, decide_eq_true_eq] at h
  rcases h with ((h | h) | h) | h <;> subst h <;> decide

end Text
end CommandGrammar
