import CommandGrammar.Segment.Basic

/-!
# `CommandGrammar.Graph.Basic` — graphs of solid segments and markers

Nodes stand in an arena and name each other by their places in it. Solid nodes consume tokens;
markers bound the scopes of a scheme and consume nothing.

## Contents
- `NodeKind`, `Node`, `Graph`.
- `NodeKind.id?`: the identity of a solid node.
- `Graph.kind?`, `Graph.successors`: looking at the arena.
-/

namespace CommandGrammar

/-- What a node stands for. -/
inductive NodeKind where
  | keyword (k : Keyword SegmentId)
  | var (v : Variable SegmentId)
  /-- The entry or the exit of a scope. -/
  | marker (scope : Nat) (isEntry : Bool)

/-- The identity of a solid node. -/
def NodeKind.id? : NodeKind → Option SegmentId
  | .keyword k => some k.id
  | .var v => some v.id
  | .marker _ _ => none

/-- A node with its successors, in the order in which they were linked. -/
structure Node where
  kind : NodeKind
  edges : List Nat

/-- A compiled scheme. -/
structure Graph where
  nodes : Array Node
  /-- The entry of the whole scheme. -/
  entry : Nat
  /-- The exit of the whole scheme; a line can end nowhere else. -/
  exit : Nat

namespace Graph

/-- What the node at a place stands for. -/
def kind? (g : Graph) (i : Nat) : Option NodeKind :=
  g.nodes[i]?.map Node.kind

/-- The successors of the node at a place. -/
def successors (g : Graph) (i : Nat) : List Nat :=
  match g.nodes[i]? with
  | some n => n.edges
  | none => []

/-- A number that no node has more successors than. -/
def maxDegree (g : Graph) : Nat :=
  g.nodes.foldl (fun d n => max d n.edges.length) 0

end Graph
end CommandGrammar
