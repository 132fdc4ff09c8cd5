import CommandGrammar.Value.Typing

/-!
# `CommandGrammar.Matching.Check` — one token against one segment

## Contents
- `startsWith`: beginnings of texts.
- `Check`, `Variable.check`: a token against a variable and its candidates.
-/

namespace CommandGrammar

/-- Whether `t` begins with `s`. -/
def startsWith (t s : String) : Bool :=
  s.toList.isPrefixOf t.toList

/-- What a token is for a variable. -/
structure Check where
  /-- The token may be the beginning of an accepted one. -/
  isPartial : Bool
  /-- The token is accepted. -/
  isFull : Bool
  /-- The candidates that begin with the token. -/
  candidates : List String
  deriving Repr, DecidableEq

variable {ι : Type}

/-- Check a token against a variable. An enumerated variable accepts its candidates only, and of
those the ones of its declared type; a flag's name is always accepted. -/
def Variable.check (v : Variable ι) (token : String) (candidates : List String) : Check :=
  let matching := candidates.filter fun c => startsWith c token
  let isFlag := v.type == some .flag
  let accepted :=
    if v.isEnumerated then matching.contains token && (v.type.isNone || v.accepts token)
    else v.accepts token
  { isPartial := (token.isEmpty && v.type != some .string) || !matching.isEmpty ||
      (isFlag && startsWith v.name token && token != v.name)
    isFull := accepted || (isFlag && token == v.name)
    candidates := matching }

end CommandGrammar
