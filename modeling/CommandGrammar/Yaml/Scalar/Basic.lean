import CommandGrammar.Yaml.Cursor

/-!
# `CommandGrammar.Yaml.Scalar.Basic` — styles of scalars

## Contents
- `Style`: how a scalar is written.
- `folded`: what line breaks within a scalar stand for.
-/

namespace CommandGrammar
namespace Yaml

/-- How a scalar is written. -/
inductive Style where
  /-- Without quotes; only such a scalar can stand for nothing. -/
  | plain
  | quoted
  /-- As lines after a bar or an angle bracket. -/
  | block
  deriving Repr, DecidableEq

/-- What stands for line breaks between words, the blanks around them left out: a single one is a
space, and of several the first one is dropped. -/
def folded : Nat → List Char
  | 0 => []
  | 1 => [' ']
  | n + 2 => List.replicate (n + 1) '\n'

end Yaml
end CommandGrammar
