import CommandGrammar.Notation.Token
import CommandGrammar.Segment.Basic

/-!
# `CommandGrammar.Notation.Reader` — schemes from their notation

A scheme is written as

* `word` or `'quoted words'` — a keyword;
* `<name>`, `<name:type>`, `<name:"a"|"b">` — a variable, typed or with choices; `...` before the
  closing bracket makes it a rest variable;
* `[ … ]` — an optional group, not empty;
* `( … | … )` — a union, no branch of it empty.

The reader is a left fold over the lexemes with a stack of the groups that are open, so each error
is raised at the first lexeme that cannot follow, or at the end by the innermost open group.

## Contents
- `readChoices`, `readVariable`: the inside of angle brackets.
- `Opened`, `Reading`, `Reading.step`, `Reading.finish`: the stack, one lexeme, and the end.
- `parse`: the scheme of a text, still without identities.
-/

namespace CommandGrammar
namespace Notation

/-! ## Placeholders -/

/-- Where the reader of choices stands. -/
inductive ChoiceState where
  /-- A choice must begin here. -/
  | before
  /-- In a choice, with its quote and its characters so far, newest first. -/
  | inside (quote : Char) (acc : List Char)
  /-- A choice has ended. -/
  | after

/-- Read one character of the choices `all`; `done` holds the finished ones, newest first. -/
def choiceStep (all : String) :
    ChoiceState × List String → Char → Except Error (ChoiceState × List String)
  | (.before, done), c =>
    if isQuote c then .ok (.inside c [], done) else .error (.invalid (.unquotedChoice all))
  | (.inside q acc, done), c =>
    if c = q then
      if acc.isEmpty then .error .emptyAlternative
      else .ok (.after, String.ofList acc.reverse :: done)
    else .ok (.inside q (c :: acc), done)
  | (.after, done), c =>
    if c = '|' then .ok (.before, done) else .error (.invalid (.unexpectedInChoices c all))

/-- Quoted choices with a bar between neighbours. -/
def readChoices (cs : List Char) : Except Error (List String) := do
  let all := String.ofList cs
  match ← cs.foldlM (choiceStep all) (.before, []) with
  | (.after, done) => return done.reverse
  | (.before, _) => throw (.invalid (.unquotedChoice all))
  | (.inside _ _, _) => throw (.invalid (.unclosedChoice all))

/-- Split off three dots at the end. -/
def splitRest (cs : List Char) : List Char × Bool :=
  match cs.reverse with
  | '.' :: '.' :: '.' :: body => (body.reverse, true)
  | _ => (cs, false)

/-- Split at the first colon. -/
def splitName (cs : List Char) : List Char × Option (List Char) :=
  match cs.dropWhile (· != ':') with
  | [] => (cs, none)
  | _ :: after => (cs.takeWhile (· != ':'), some after)

/-- Declare what follows the colon: a type, or choices. -/
def annotate (v : Variable Unit) (declared : List Char) :
    Except Scheme.Error (Variable Unit) :=
  match declared with
  | [] => .error (.malformed (.invalid (.missingType v.name)))
  | c :: _ =>
    if isQuote c then
      match readChoices declared with
      | .ok choices => .ok (v.withChoices choices)
      | .error e => .error (.malformed e)
    else
      match VariableType.ofName? (String.ofList declared) with
      | some t => .ok { v with type := some t }
      | none => .error (.unsupportedType (String.ofList declared))

/-- The variable declared by the inside of angle brackets. -/
def readVariable (content : List Char) : Except Scheme.Error (Variable Unit) := do
  let (body, isRest) := splitRest content
  let (name, declared) := splitName body
  match Variable.named () (String.ofList name) with
  | none => throw .missingVariableName
  | some v =>
    let v ←
      match declared with
      | none => pure v
      | some declared => annotate v declared
    return { v with isRest }

/-! ## Groups -/

/-- A group that is open, with the position of its opening mark. -/
inductive Opened where
  | optional (pos : Nat)
  /-- With the finished branches, newest first. -/
  | union (pos : Nat) (branches : List (Scheme Unit))

/-- The state between two lexemes: the sequence being read and, for each open group from the
innermost out, the group and the sequence it stands in. Sequences are newest first. -/
structure Reading where
  items : Scheme Unit
  outer : List (Opened × Scheme Unit)

/-- The state before the first lexeme. -/
def Reading.start : Reading := ⟨[], []⟩

/-- Add a finished segment to the sequence being read. -/
def Reading.add (r : Reading) (s : Segment Unit) : Reading :=
  { r with items := s :: r.items }

/-- The refusal of a mark that cannot stand where it does. -/
def unexpected (c : Char) (pos : Nat) : Scheme.Error :=
  .malformed (.invalid (.unexpected c pos))

/-- Read one lexeme. A union looks at its last branch before it looks at the mark that ends it. -/
def Reading.step (r : Reading) : Token → Except Scheme.Error Reading
  | .word w | .quoted w =>
    match Keyword.named () (String.ofList w) with
    | some k => .ok (r.add (.keyword k))
    | none => .error .missingKeywordName
  | .placeholder content _ => (readVariable content).map fun v => r.add (.var v)
  | .openSquare pos => .ok ⟨[], (.optional pos, r.items) :: r.outer⟩
  | .openParen pos => .ok ⟨[], (.union pos [], r.items) :: r.outer⟩
  | .closeSquare pos =>
    match r.outer with
    | (.optional start, items) :: outer =>
      if r.items.isEmpty then .error (.malformed (.invalid (.emptyOptional start)))
      else .ok ⟨.optional r.items.reverse :: items, outer⟩
    | (.union _ _, _) :: _ =>
      if r.items.isEmpty then .error (.malformed .emptyAlternative)
      else .error (unexpected ']' pos)
    | [] => .error (unexpected ']' pos)
  | .closeParen pos =>
    match r.outer with
    | (.union _ branches, items) :: outer =>
      if r.items.isEmpty then .error (.malformed .emptyAlternative)
      else .ok ⟨.union (r.items.reverse :: branches).reverse :: items, outer⟩
    | _ => .error (unexpected ')' pos)
  | .bar pos =>
    match r.outer with
    | (.union start branches, items) :: outer =>
      if r.items.isEmpty then .error (.malformed .emptyAlternative)
      else .ok ⟨[], (.union start (r.items.reverse :: branches), items) :: outer⟩
    | _ => .error (unexpected '|' pos)

/-- The scheme at the end of the lexemes. -/
def Reading.finish (r : Reading) : Except Scheme.Error (Scheme Unit) :=
  match r.outer with
  | [] => .ok r.items.reverse
  | (.optional start, _) :: _ => .error (.malformed (.unclosedSquare start))
  | (.union start _, _) :: _ =>
    if r.items.isEmpty then .error (.malformed .emptyAlternative)
    else .error (.malformed (.unclosedParen start))

/-- The scheme of a list of lexemes. -/
def ofTokens (ts : List Token) : Except Scheme.Error (Scheme Unit) := do
  (← ts.foldlM Reading.step Reading.start).finish

/-- The scheme that a text denotes. -/
def parse (source : String) : Except Scheme.Error (Scheme Unit) :=
  match tokens source with
  | .ok ts => ofTokens ts
  | .error e => .error (.malformed e)

end Notation
end CommandGrammar
