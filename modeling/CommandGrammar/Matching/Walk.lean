import CommandGrammar.Graph.Basic
import CommandGrammar.Matching.Check
import CommandGrammar.Matching.Session
import Std.Data.HashSet.Lemmas

/-!
# `CommandGrammar.Matching.Walk` — tokens against a graph

A match is a walk through the graph from its entry. Markers are passed for free, a keyword or
variable consumes a token. The walk ends when tokens and graph end together, when a segment is
pending after the last token, or at a token that is only the beginning of an accepted one.

All walks are found by a worklist of frames, taken from the top of a stack; the successors of a node
are pushed so that the first one is taken first.

## Contents
- `Visit`, `Match`: a node on a walk; a walk that ended.
- `Match.distinct`: matches without repetitions.
- `Frame`, `Walk`, `Walk.step`: the worklist and one step of it.
- `Walk.run`: steps until the stack is empty, bounded by fuel.
- `Session.matches`: all matches of a line, each once.
-/

namespace CommandGrammar

/-- A node on a walk. -/
structure Visit where
  /-- The node's place in the arena. -/
  node : Nat
  /-- The token consumed there; empty if the node is pending. -/
  raw : String
  /-- The token's value, if a variable accepted it. -/
  value : Option Value
  /-- The candidates that begin with the token. -/
  candidates : List String

/-- A walk that ended. -/
structure Match where
  path : List Visit
  /-- It ended before the line can be invoked. -/
  isPartial : Bool
  /-- It is of a whole line. -/
  isInvokable : Bool

namespace Match

/-- A walk, the newest node first, that ended before the line can be invoked. -/
def waiting (trail : List Visit) : Match := ⟨trail.reverse, true, false⟩

/-- A walk, the newest node first, of a whole line. -/
def whole (trail : List Visit) : Match := ⟨trail.reverse, false, true⟩

/-- The node that the line ended on. -/
def last? (m : Match) : Option Visit := m.path.getLast?

/-- Two matches are the same if they visit the same nodes with the same tokens and end alike. -/
def key (m : Match) : List (Nat × String) × Bool × Bool :=
  (m.path.map fun v => (v.node, v.raw), m.isPartial, m.isInvokable)

/-- Leave out matches whose keys were seen before; `kept` holds the others so far, newest first. -/
def distinctFrom (seen : Std.HashSet (List (Nat × String) × Bool × Bool)) (kept : List Match) :
    List Match → List Match
  | [] => kept.reverse
  | m :: ms =>
    if seen.contains m.key then distinctFrom seen kept ms
    else distinctFrom (seen.insert m.key) (m :: kept) ms

/-- The first of all matches that are the same. -/
def distinct (ms : List Match) : List Match := distinctFrom ∅ [] ms

theorem distinctFrom_eq_loop (seen : Std.HashSet (List (Nat × String) × Bool × Bool))
    (kept ms : List Match) (h : ∀ m : Match, seen.contains m.key = kept.any (m.key == ·.key)) :
    distinctFrom seen kept ms = List.eraseDupsBy.loop (fun a b => a.key == b.key) ms kept := by
  induction ms generalizing seen kept with
  | nil => rfl
  | cons m ms ih =>
    unfold distinctFrom List.eraseDupsBy.loop
    rw [h m]
    cases hm : kept.any (m.key == ·.key) with
    | true => simpa using ih seen kept h
    | false =>
      refine ih _ _ fun n => ?_
      rw [Std.HashSet.contains_insert, h n, List.any_cons, BEq.comm]

/-- Keeping the first of all matches that are the same compares each match with those before it. -/
theorem distinct_eq_eraseDupsBy (ms : List Match) :
    distinct ms = ms.eraseDupsBy fun a b => a.key == b.key :=
  distinctFrom_eq_loop ∅ [] ms fun _ => by simp

end Match

/-! ## The worklist -/

/-- A walk to be continued at a node: the nodes before it (newest first) and the tokens left. -/
structure Frame where
  node : Nat
  trail : List Visit
  rest : List String

/-- The worklist: frames still to be taken (the next one first) and matches found (the last one
first). -/
structure Walk where
  session : Session
  stack : List Frame
  found : List Match

namespace Walk

/-- The worklist before the first step. -/
def start (session : Session) (g : Graph) (argv : List String) : Walk :=
  ⟨session, [⟨g.entry, [], argv⟩], []⟩

/-- Continue at the successors of a node. -/
def advance (g : Graph) (node : Nat) (trail : List Visit) (rest : List String) : List Frame :=
  (g.successors node).map fun n => ⟨n, trail, rest⟩

/-- What comes of a token at a keyword: frames to go on with, or a partial match. A beginning of the
keyword counts only as the last token. -/
def atKeyword (g : Graph) (f : Frame) (k : Keyword SegmentId) : List Frame × List Match :=
  match f.rest with
  | [] => ([], [.waiting (⟨f.node, "", none, [k.name]⟩ :: f.trail)])
  | token :: rest =>
    if token = k.name then (advance g f.node (⟨f.node, token, none, []⟩ :: f.trail) rest, [])
    else if startsWith k.name token && rest.isEmpty then
      ([], [.waiting (⟨f.node, token, none, [k.name]⟩ :: f.trail)])
    else ([], [])

/-- What comes of a token at a variable with the given candidates: frames to go on with, or a
partial match. -/
def atVariable (g : Graph) (f : Frame) (v : Variable SegmentId) (candidates : List String) :
    List Frame × List Match :=
  match f.rest with
  | [] => ([], [.waiting (⟨f.node, "", none, candidates⟩ :: f.trail)])
  | token :: rest =>
    let check := v.check token candidates
    if check.isFull then
      (advance g f.node (⟨f.node, token, some (v.coerce token), check.candidates⟩ :: f.trail) rest,
        [])
    else if check.isPartial then
      ([], [.waiting (⟨f.node, token, none, check.candidates⟩ :: f.trail)])
    else ([], [])

/-- What comes of a marker: frames to go on with, or at the exit of the whole scheme a match, if no
token is left. -/
def atMarker (g : Graph) (f : Frame) (isEntry : Bool) : List Frame × List Match :=
  if !isEntry && f.node == g.exit then
    ([], if f.rest.isEmpty then [.whole f.trail] else [])
  else (advance g f.node f.trail f.rest, [])

/-- Take the next frame. -/
def step (g : Graph) (w : Walk) : Walk :=
  match w.stack with
  | [] => w
  | f :: stack =>
    match g.kind? f.node with
    | none => { w with stack }
    | some (.marker _ isEntry) =>
      let (frames, found) := atMarker g f isEntry
      { w with stack := frames ++ stack, found := found ++ w.found }
    | some (.keyword k) =>
      let (frames, found) := atKeyword g f k
      { w with stack := frames ++ stack, found := found ++ w.found }
    | some (.var v) =>
      let (candidates, session) := w.session.candidates v
      let (frames, found) := atVariable g f v candidates
      ⟨session, frames ++ stack, found ++ w.found⟩

/-- Take frames until none is left, at most `fuel` of them. -/
def run (g : Graph) : Nat → Walk → Walk
  | 0, w => w
  | fuel + 1, w => if w.stack.isEmpty then w else run g fuel (w.step g)

/-- A bound on the number of steps: no walk passes a node twice without consuming a token, and each
of its nodes has at most `maxDegree` successors. -/
def fuel (g : Graph) (argv : List String) : Nat :=
  Nat.pow (g.maxDegree + 1) ((argv.length + 1) * (g.nodes.size + 1))

end Walk

/-- All matches of a line in a graph, each once, in the order in which they are found; and the
session after them. -/
def Session.matches (s : Session) (g : Graph) (argv : List String) : List Match × Session :=
  let w := (Walk.start s g argv).run g (Walk.fuel g argv)
  (Match.distinct w.found.reverse, w.session)

end CommandGrammar
