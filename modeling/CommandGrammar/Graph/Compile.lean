import CommandGrammar.Graph.Basic

/-!
# `CommandGrammar.Graph.Compile` — schemes to graphs

Each scope of a scheme (the scheme itself, an optional group, a union, a branch of one) becomes a
pair of markers around its segments. A solid segment becomes one node, wherever it stands; a rest
variable's node follows itself.

Optional groups in a row stay *pending* until something that must be there, or the end of the scope,
follows them. Then the exit of each is linked to the entries of all later ones and to what follows,
so that any of them can be left out while their order stays.

## Contents
- `Builder`: the arena under construction; `push`, `scope`, `link`, `solid`.
- `Scope`: a scope under construction; `Scope.settle`, `Scope.close`.
- `Segment.compile`, `Scheme.compile`, `Scheme.compileBranches`: one step per segment.
- `Graph.compile`: the graph of a scheme.
-/

namespace CommandGrammar

/-! ## The arena under construction -/

/-- The arena and the next number of a scope. -/
structure Builder where
  nodes : Array Node
  nextScope : Nat

namespace Builder

/-- Add a node without successors: its place. -/
def push (b : Builder) (kind : NodeKind) : Nat × Builder :=
  (b.nodes.size, { b with nodes := b.nodes.push ⟨kind, []⟩ })

/-- Add the markers of a new scope: the places of its entry and its exit. -/
def scope (b : Builder) : (Nat × Nat) × Builder :=
  let n := b.nextScope
  let (entry, b) := { b with nextScope := n + 1 }.push (.marker n true)
  let (exit, b) := b.push (.marker n false)
  ((entry, exit), b)

/-- Let `target` follow `source`, once. -/
def link (b : Builder) (source target : Nat) : Builder :=
  { b with
    nodes := b.nodes.modify source fun n =>
      if n.edges.contains target then n else { n with edges := n.edges ++ [target] } }

/-- Let each of the given places follow `source`, in their order. -/
def linkAll (b : Builder) (source : Nat) (targets : List Nat) : Builder :=
  targets.foldl (fun b target => b.link source target) b

/-- The place of a solid node; a new one is added unless its identity is in the arena. -/
def solid (b : Builder) (kind : NodeKind) : Nat × Builder :=
  match b.nodes.findIdx? fun n => n.kind.id? == kind.id? with
  | some i => (i, b)
  | none => b.push kind

end Builder

/-! ## A scope under construction -/

/-- A scope under construction: the arena, the place that the next segment follows, and the pending
optional groups, each by its entry and its exit, in order. -/
structure Scope where
  builder : Builder
  current : Nat
  pending : List (Nat × Nat)

namespace Scope

/-- Link the exit of each pending group to the entries of the later ones and to `anchor`. -/
def linkPending (anchor : Nat) : List (Nat × Nat) → Builder → Builder
  | [], b => b
  | (_, exit) :: later, b => linkPending anchor later (b.linkAll exit (later.map (·.1) ++ [anchor]))

/-- Let `anchor` follow the pending groups; none is pending any more. -/
def settle (s : Scope) (anchor : Nat) : Scope :=
  { s with builder := linkPending anchor s.pending s.builder, pending := [] }

/-- End the scope at the given exit. -/
def close (s : Scope) (exit : Nat) : Builder :=
  (s.settle exit).builder.link s.current exit

/-- Let a solid node follow: go on from it, and settle the pending groups with it. -/
def solid (s : Scope) (kind : NodeKind) (repeats : Bool) : Scope :=
  let (node, b) := s.builder.solid kind
  let b := b.link s.current node
  let b := if repeats then b.link node node else b
  { s with builder := b, current := node }.settle node

end Scope

mutual

/-- Let a segment follow in a scope. -/
def Segment.compile (s : Scope) : Segment SegmentId → Scope
  | .keyword k => s.solid (.keyword k) false
  | .var v => s.solid (.var v) v.isRest
  | .optional inner =>
    let ((entry, exit), b) := s.builder.scope
    let b := (Scheme.compile ⟨b, entry, []⟩ inner).close exit
    { s with builder := b.link s.current entry, pending := s.pending ++ [(entry, exit)] }
  | .union branches =>
    let ((entry, exit), b) := s.builder.scope
    let s := { s with builder := b.link s.current entry }.settle entry
    { s with builder := Scheme.compileBranches entry exit s.builder branches, current := exit }

/-- Let segments follow in a scope. -/
def Scheme.compile (s : Scope) : Scheme SegmentId → Scope
  | [] => s
  | x :: rest => Scheme.compile (x.compile s) rest

/-- Put branches between the markers of a union. -/
def Scheme.compileBranches (unionEntry unionExit : Nat) (b : Builder) :
    List (Scheme SegmentId) → Builder
  | [] => b
  | branch :: rest =>
    let ((entry, exit), b) := b.scope
    let b := (Scheme.compile ⟨b, entry, []⟩ branch).close exit
    Scheme.compileBranches unionEntry unionExit
      ((b.link unionEntry entry).link exit unionExit) rest

end

/-- The graph of a scheme whose scopes are numbered from `nextScope` on; also the next number. -/
def Graph.compile (nextScope : Nat) (scheme : Scheme SegmentId) : Graph × Nat :=
  let ((entry, exit), b) := (⟨#[], nextScope⟩ : Builder).scope
  let b := (Scheme.compile ⟨b, entry, []⟩ scheme).close exit
  (⟨b.nodes, entry, exit⟩, b.nextScope)

end CommandGrammar
