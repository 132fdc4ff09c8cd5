import CommandGrammar.Value.Basic

/-!
# `CommandGrammar.Segment.Basic` — schemes of commands

A scheme is a list of segments. Keywords and variables are *solid*: each takes one token (a rest
variable one or more). Optional groups and unions only say how solid segments follow one another.

Every type here carries an identity type `ι`. A scheme that was only written down has no identities
yet (`ι := Unit`); `Scheme.number` gives each solid segment its own. Segments with the same identity
are one segment standing in several places.

## Contents
- `VariableType`, `Keyword`, `Variable`, `Segment`, `Scheme`.
- `Keyword.named`, `Variable.named`: solid segments with a checked name.
- `Scheme.variables`: all declared variables.
- `Scheme.mapVariables`, `Scheme.number`: changing every variable; giving identities.
-/

namespace CommandGrammar

/-- What a variable's tokens must look like. -/
inductive VariableType where
  | any
  | number
  | string
  | boolean
  | date
  | flag
  deriving Repr, DecidableEq

namespace VariableType

/-- The type's name in the notation and in usage texts. -/
def name : VariableType → String
  | .any => "any"
  | .number => "number"
  | .string => "string"
  | .boolean => "boolean"
  | .date => "date"
  | .flag => "flag"

/-- Every type, once. -/
def all : List VariableType := [.any, .number, .string, .boolean, .date, .flag]

/-- The type with the given name. -/
def ofName? (s : String) : Option VariableType :=
  all.find? fun t => t.name == s

@[simp] theorem ofName?_name (t : VariableType) : ofName? t.name = some t := by
  cases t <;> decide

end VariableType

/-- The identity of a solid segment. -/
abbrev SegmentId := Nat

/-- Candidates that are asked for when they are needed: the answer to the `k`-th question, counted
from zero. -/
abbrev Provider := Nat → List String

/-- A token that must appear as it is. -/
structure Keyword (ι : Type) where
  id : ι
  name : String
  comment : Option String

/-- A named place for one token, or for every token up to the next segment. -/
structure Variable (ι : Type) where
  id : ι
  name : String
  /-- The declared type; an undeclared one is no restriction. -/
  type : Option VariableType
  /-- The fixed candidates, without repetitions. -/
  choices : List String
  provider : Option Provider
  /-- Takes one or more tokens. -/
  isRest : Bool
  default : Option Value
  comment : Option String

variable {ι κ : Type}

/-- A keyword must have a name. -/
def Keyword.named (id : ι) (name : String) : Option (Keyword ι) :=
  if name.isEmpty then none else some ⟨id, name, none⟩

namespace Variable

/-- A variable must have a name; everything else is undeclared at first. -/
def named (id : ι) (name : String) : Option (Variable ι) :=
  if name.isEmpty then none else some ⟨id, name, none, [], none, false, none, none⟩

/-- Restrict to fixed candidates; the first of equal ones stays. -/
def withChoices (v : Variable ι) (choices : List String) : Variable ι :=
  { v with choices := choices.eraseDups }

/-- A variable with candidates, fixed or asked for. -/
def isEnumerated (v : Variable ι) : Bool :=
  !v.choices.isEmpty || v.provider.isSome

end Variable

/-- One element of a scheme. -/
inductive Segment (ι : Type) where
  | keyword (k : Keyword ι)
  | var (v : Variable ι)
  /-- The inner segments, or nothing. -/
  | optional (inner : List (Segment ι))
  /-- Exactly one of the branches. -/
  | union (branches : List (List (Segment ι)))

/-- Segments in the order of their tokens. -/
abbrev Scheme (ι : Type) := List (Segment ι)

/-! ## Declared variables -/

mutual

/-- The variables declared in a segment, outer before inner, left to right. -/
def Segment.variables : Segment ι → List (Variable ι)
  | .keyword _ => []
  | .var v => [v]
  | .optional inner => Scheme.variables inner
  | .union branches => Scheme.branchVariables branches

/-- The variables declared in a scheme, in order of declaration. -/
def Scheme.variables : Scheme ι → List (Variable ι)
  | [] => []
  | s :: rest => s.variables ++ Scheme.variables rest

/-- The variables declared in the branches of a union. -/
def Scheme.branchVariables : List (Scheme ι) → List (Variable ι)
  | [] => []
  | b :: rest => Scheme.variables b ++ Scheme.branchVariables rest

end

/-! ## Changing every variable -/

mutual

/-- The segment with every variable replaced. -/
def Segment.mapVariables (f : Variable ι → Variable ι) : Segment ι → Segment ι
  | .keyword k => .keyword k
  | .var v => .var (f v)
  | .optional inner => .optional (Scheme.mapVariables f inner)
  | .union branches => .union (Scheme.mapBranches f branches)

/-- The scheme with every variable replaced. -/
def Scheme.mapVariables (f : Variable ι → Variable ι) : Scheme ι → Scheme ι
  | [] => []
  | s :: rest => s.mapVariables f :: Scheme.mapVariables f rest

/-- The branches with every variable replaced. -/
def Scheme.mapBranches (f : Variable ι → Variable ι) : List (Scheme ι) → List (Scheme ι)
  | [] => []
  | b :: rest => Scheme.mapVariables f b :: Scheme.mapBranches f rest

end

/-! ## Identities -/

mutual

/-- Number the solid parts of a segment from `next` on; also the first number not used. -/
def Segment.number (next : SegmentId) : Segment ι → Segment SegmentId × SegmentId
  | .keyword k => (.keyword { k with id := next }, next + 1)
  | .var v => (.var { v with id := next }, next + 1)
  | .optional inner =>
    let (inner, next) := Scheme.number next inner
    (.optional inner, next)
  | .union branches =>
    let (branches, next) := Scheme.numberBranches next branches
    (.union branches, next)

/-- Number the solid segments of a scheme from `next` on; also the first number not used. -/
def Scheme.number (next : SegmentId) : Scheme ι → Scheme SegmentId × SegmentId
  | [] => ([], next)
  | s :: rest =>
    let (s, next) := s.number next
    let (rest, next) := Scheme.number next rest
    (s :: rest, next)

/-- Number the branches of a union from `next` on; also the first number not used. -/
def Scheme.numberBranches (next : SegmentId) :
    List (Scheme ι) → List (Scheme SegmentId) × SegmentId
  | [] => ([], next)
  | b :: rest =>
    let (b, next) := Scheme.number next b
    let (rest, next) := Scheme.numberBranches next rest
    (b :: rest, next)

end

end CommandGrammar
