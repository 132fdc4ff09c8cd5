import CommandGrammar.Segment.Basic

/-!
# `CommandGrammar.Segment.Printer` — usage texts

The usage text of a scheme, as help and hints show it. What it shows of a scheme without providers
and with plain names is the scheme again in the notation of `CommandGrammar.Notation`.

## Contents
- `Variable.render`, `Segment.render`, `Scheme.render`.
-/

namespace CommandGrammar

variable {ι : Type}

/-- A variable in angle brackets: its name, what it accepts, and dots if it takes several tokens. -/
def Variable.render (v : Variable ι) : String :=
  let rest := if v.isRest then "..." else ""
  if !v.choices.isEmpty then
    "<" ++ v.name ++ ": " ++ "|".intercalate (v.choices.map fun c => "\"" ++ c ++ "\"") ++ rest
      ++ ">"
  else if v.provider.isSome then "<" ++ v.name ++ ": <provider>" ++ rest ++ ">"
  else
    match v.type with
    | some t => "<" ++ v.name ++ ": " ++ t.name ++ rest ++ ">"
    | none => "<" ++ v.name ++ rest ++ ">"

mutual

/-- A segment as it is shown in a usage text. -/
def Segment.render : Segment ι → String
  | .keyword k => k.name
  | .var v => v.render
  | .optional inner => "[" ++ " ".intercalate (Scheme.renderEach inner) ++ "]"
  | .union branches => "(" ++ " | ".intercalate (Scheme.renderBranches branches) ++ ")"

/-- The segments of a scheme, each as it is shown. -/
def Scheme.renderEach : Scheme ι → List String
  | [] => []
  | s :: rest => s.render :: Scheme.renderEach rest

/-- The branches of a union, each as it is shown. -/
def Scheme.renderBranches : List (Scheme ι) → List String
  | [] => []
  | b :: rest => " ".intercalate (Scheme.renderEach b) :: Scheme.renderBranches rest

end

/-- The usage text of a scheme: its segments with one space between neighbours. -/
def Scheme.render (s : Scheme ι) : String :=
  " ".intercalate (Scheme.renderEach s)

end CommandGrammar
