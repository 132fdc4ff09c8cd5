import CommandGrammar.Timestamp.Basic

/-!
# `CommandGrammar.Value.Basic` — what a token stands for

## Contents
- `Value`: a token read by the type of its variable.
-/

namespace CommandGrammar

/-- A token read by the type of its variable. -/
inductive Value where
  | text (s : String)
  | number (x : Float)
  | boolean (b : Bool)
  | date (t : Timestamp)
  deriving Repr

end CommandGrammar
