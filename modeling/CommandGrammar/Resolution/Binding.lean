import CommandGrammar.Graph.Basic
import CommandGrammar.Matching.Walk
import CommandGrammar.NameMap
import CommandGrammar.Value.Printer

/-!
# `CommandGrammar.Resolution.Binding` — what a match binds

## Contents
- `Binding`, `Bindings`: values of variables, by name.
- `Bindings.visit`: the binding of one node on a match.
- `Scheme.addDefaults`: declared defaults for names that are not bound.
- `Bindings.ofMatch`: the bindings of a match.
-/

namespace CommandGrammar

/-- The value of a variable, or one value per token of a rest variable. -/
inductive Binding where
  | single (value : Value)
  | list (values : List Value)
  deriving Repr

namespace Binding

/-- The text of a binding; several values have one space between neighbours. -/
def toText : Binding → String
  | .single v => v.toText
  | .list vs => " ".intercalate (vs.map Value.toText)

/-- The binding in a document. -/
def toJson : Binding → Json
  | .single v => v.toJson
  | .list vs => .array (vs.map Value.toJson)

end Binding

/-- Bindings by name. -/
abbrev Bindings := NameMap Binding

namespace Bindings

/-- Bind what a variable took: a rest variable adds to the values of its name, any other variable
replaces them. -/
def take (b : Bindings) (v : Variable SegmentId) (value : Value) : Bindings :=
  if v.isRest then
    match b.find? v.name with
    | some (.list values) => b.insert v.name (.list (values ++ [value]))
    | _ => b.insert v.name (.list [value])
  else b.insert v.name (.single value)

/-- Bind what a node on a match took; what has no value is bound as it was typed. -/
def visit (g : Graph) (b : Bindings) (x : Visit) : Bindings :=
  match g.kind? x.node with
  | some (.var v) => b.take v (x.value.getD (.text x.raw))
  | _ => b

/-- Bind a variable's default unless its name is bound. -/
def addDefault (b : Bindings) (v : Variable SegmentId) : Bindings :=
  match v.default with
  | none => b
  | some value =>
    if b.contains v.name then b
    else b.insert v.name (if v.isRest then .list [value] else .single value)

end Bindings

mutual

/-- Bind the defaults that are declared in a segment. -/
def Segment.addDefaults (b : Bindings) : Segment SegmentId → Bindings
  | .keyword _ => b
  | .var v => b.addDefault v
  | .optional inner => Scheme.addDefaults b inner
  | .union branches => Scheme.addBranchDefaults b branches

/-- Bind the defaults that are declared in a scheme, the first of a name in order of declaration. -/
def Scheme.addDefaults (b : Bindings) : Scheme SegmentId → Bindings
  | [] => b
  | x :: rest => Scheme.addDefaults (x.addDefaults b) rest

/-- Bind the defaults that are declared in the branches of a union. -/
def Scheme.addBranchDefaults (b : Bindings) : List (Scheme SegmentId) → Bindings
  | [] => b
  | branch :: rest => Scheme.addBranchDefaults (Scheme.addDefaults b branch) rest

end

/-- The bindings of a match of a scheme's graph. -/
def Bindings.ofMatch (scheme : Scheme SegmentId) (g : Graph) (m : Match) : Bindings :=
  Scheme.addDefaults (m.path.foldl (visit g) NameMap.empty) scheme

end CommandGrammar
