import CommandGrammar.Proofs.Graph.Wiring
import CommandGrammar.Proofs.Matching.Walks
import Mathlib.Data.List.Find

/-!
# `Proofs.Matching.Backtracking` — matches in the order of the scheme

A parser that knows nothing of graphs goes through the scheme with the tokens left, and what comes
behind a segment is handed to it (`Scheme.search`). It enters an optional group and then skips it,
takes the branches of a union in their order, and lets a rest variable that has taken a token take
another one before it goes on. It repeats itself where groups are nested, so its results may too.

Where no segment stands twice, the worklist finds the same matches in the same order. The graph is
laid out along the scheme with the links in the order in which they are tried (`Scheme.Laid`), so
by induction on the scheme a search is the exploration of the nodes at which the scheme begins.

## Contents
- `Search`, `Solid.search`, `Scheme.search`: backtracking over the scheme.
- `explore_behind`: the trail of a frame only stands before what is found.
- `Graph.found`: an exploration as a search, with one equation for each kind of node.
- `Graph.nodeOf`: the place of a segment.
- `Scheme.Laid.found_eq`, `Session.matches_eq_search`: both find the same.
- `Match.find?_distinct`: the first match of a kind is not a repetition.
-/

namespace CommandGrammar

/-! ## Backtracking over the scheme -/

/-- What is found for the tokens left. -/
abbrev Search := List String → List Match

/-- The match with other visits before it. -/
def Match.behind (vs : List Visit) (m : Match) : Match :=
  { m with path := vs ++ m.path }

/-- Behind the whole scheme: a match that can be invoked, if no token is left. -/
def Search.finish : Search
  | [] => [.ofWalk [] true]
  | _ :: _ => []

section

variable (c : Variable SegmentId → List String) (place : Solid → Nat)

/-- A segment that is left pending or stops at a token ends a match. If it takes the token, it first
tries to take another one, provided it repeats, and then what comes next. -/
def Solid.search (t : Solid) (next : Search) : List String → List Match
  | [] => [.ofWalk [t.pendingVisit c (place t)] false]
  | token :: rest =>
    if t.accepts c token then
      ((if t.repeats then t.search next rest else []) ++ next rest).map
        (.behind [t.acceptedVisit c (place t) token])
    else if t.stops c token rest.isEmpty then [.ofWalk [t.stoppedVisit c (place t) token] false]
    else []

mutual

/-- A group is entered before it is skipped. -/
def Segment.search : Segment SegmentId → Search → Search
  | .keyword k, next => (Solid.keyword k).search c place next
  | .var v, next => (Solid.var v).search c place next
  | .optional inner, next => fun argv => Scheme.search inner next argv ++ next argv
  | .union branches, next => Scheme.branchSearch branches next

/-- The segments one after the other, and then what comes behind the scheme. -/
def Scheme.search : Scheme SegmentId → Search → Search
  | [], next => next
  | x :: rest, next => x.search (Scheme.search rest next)

/-- The branches in their order. -/
def Scheme.branchSearch : List (Scheme SegmentId) → Search → Search
  | [], _ => fun _ => []
  | branch :: rest, next => fun argv =>
    Scheme.search branch next argv ++ Scheme.branchSearch rest next argv

end

theorem Scheme.search_solid (t : Solid) (rest : Scheme SegmentId) (next : Search) :
    Scheme.search c place (t.segment :: rest) next
      = t.search c place (Scheme.search c place rest next) := by
  cases t <;> rfl

end

section

variable {g : Graph} {c : Variable SegmentId → List String} {rank : Nat → Nat}

/-! ## Explorations behind a trail -/

/-- The frame with a longer trail. -/
def Frame.behind (trail : List Visit) (f : Frame) : Frame :=
  { f with trail := f.trail ++ trail }

theorem Walk.advance_behind (g : Graph) (node : Nat) (vs trail : List Visit) (rest : List String) :
    advance g node (vs ++ trail) rest = (advance g node vs rest).map (.behind trail) := by
  unfold advance
  rw [List.map_map]
  rfl

/-- **What comes of a frame does not depend on its trail.** -/
theorem Frame.outcome_behind (trail : List Visit) (f : Frame) :
    (f.behind trail).outcome g c
      = ((f.outcome g c).1.map (.behind trail), (f.outcome g c).2.map (.behind trail.reverse)) := by
  have hends : ∀ (vs : List Visit) (b : Bool), Match.ofWalk (vs ++ trail).reverse b
      = .behind trail.reverse (.ofWalk vs.reverse b) := by
    intro vs b
    rw [List.reverse_append]
    rfl
  have hcomes := f.outcome_comes (g := g) (c := c)
  generalize (f.outcome g c).1 = frames at *
  generalize (f.outcome g c).2 = found at *
  cases hcomes with
  | absent hk =>
      rw [outcome_absent (f := f.behind trail) hk]
      rfl
  | whole scope hk he hr =>
      rw [outcome_whole (f := f.behind trail) hk he hr]
      exact congrArg (fun m => ([], [m])) (hends f.trail true)
  | surplus scope hk he hr =>
      rw [outcome_surplus (f := f.behind trail) hk he hr]
      rfl
  | through scope isEntry hk he =>
      rw [outcome_through (f := f.behind trail) hk he]
      exact congrArg (fun frames => (frames, []))
        (Walk.advance_behind g f.node f.trail trail f.rest)
  | pending t ht hr =>
      rw [outcome_pending (f := f.behind trail) ht hr]
      exact congrArg (fun m => ([], [m])) (hends (t.pendingVisit c f.node :: f.trail) false)
  | accepted t token rest ht hr ha =>
      rw [outcome_accepted (f := f.behind trail) ht hr ha]
      exact congrArg (fun frames => (frames, []))
        (Walk.advance_behind g f.node (t.acceptedVisit c f.node token :: f.trail) trail rest)
  | stopped t token rest ht hr hs =>
      rw [outcome_stopped (f := f.behind trail) ht hr hs]
      exact congrArg (fun m => ([], [m])) (hends (t.stoppedVisit c f.node token :: f.trail) false)
  | refused t token rest ht hr ha hs =>
      rw [outcome_refused (f := f.behind trail) ht hr ha hs]
      rfl

/-- **The trail of a frame stands before everything that is found from it.** -/
theorem explore_behind (trail : List Visit) (depth : Nat) (f : Frame) :
    explore g c depth (f.behind trail) = (explore g c depth f).map (.behind trail.reverse) := by
  induction depth generalizing f with
  | zero => rfl
  | succ depth ih =>
      have hlater : (explore g c depth ∘ Frame.behind trail)
          = fun f' => (explore g c depth f').map (.behind trail.reverse) := funext ih
      show _ ++ ((f.behind trail).outcome g c).1.flatMap (explore g c depth) = List.map _ (_ ++ _)
      rw [Frame.outcome_behind, List.map_append, List.map_flatMap, List.flatMap_map]
      exact congrArg _ (congrArg (List.flatMap · (f.outcome g c).1) hlater)

/-! ## Explorations as searches -/

/-- What is found from a node. -/
def Graph.found (g : Graph) (c : Variable SegmentId → List String) (i : Nat) : Search :=
  fun argv => explore g c (g.depth argv) ⟨i, [], argv⟩

/-- What is found from nodes that are taken in their order. -/
def Graph.foundAll (g : Graph) (c : Variable SegmentId → List String) (js : List Nat) : Search :=
  fun argv => js.flatMap fun j => g.found c j argv

namespace Graph

@[simp] theorem foundAll_nil (argv : List String) : g.foundAll c [] argv = [] := rfl

theorem foundAll_cons (i : Nat) (js : List Nat) (argv : List String) :
    g.foundAll c (i :: js) argv = g.found c i argv ++ g.foundAll c js argv :=
  List.flatMap_cons

theorem foundAll_singleton (i : Nat) : g.foundAll c [i] = g.found c i := by
  funext argv
  rw [foundAll_cons, foundAll_nil, List.append_nil]

theorem found_eq (hr : g.Ranked rank) (i : Nat) (argv : List String) :
    g.found c i argv
      = (Frame.outcome g c ⟨i, [], argv⟩).2
        ++ (Frame.outcome g c ⟨i, [], argv⟩).1.flatMap (explore g c (g.depth argv)) :=
  explore_eq hr (Frame.height_lt_depth hr _)

/-- At the exit of the whole scheme a line ends. -/
theorem found_exit (hr : g.Ranked rank) (hg : g.Framed) : g.found c g.exit = Search.finish := by
  obtain ⟨scope, hk⟩ := hg.kind?_exit
  funext argv
  rw [found_eq hr]
  cases argv with
  | nil =>
      rw [Frame.outcome_whole hk rfl rfl]
      rfl
  | cons token rest =>
      rw [Frame.outcome_surplus hk rfl (List.cons_ne_nil token rest)]
      rfl

/-- A marker inside is passed. -/
theorem found_inner (hr : g.Ranked rank) {i : Nat} (hi : g.Inner i) :
    g.found c i = g.foundAll c (g.successors i) := by
  obtain ⟨⟨scope, isEntry, hk⟩, hne⟩ := hi
  funext argv
  rw [found_eq hr, Frame.outcome_through hk (Or.inr hne), List.nil_append]
  exact List.flatMap_map _ _ (g.successors i)

/-- What is found behind a node that took a token stands behind its visit. -/
theorem flatMap_advance (hr : g.Ranked rank) (i : Nat) (v : Visit) {token : String}
    {rest : List String} :
    (Walk.advance g i [v] rest).flatMap (explore g c (g.depth (token :: rest)))
      = (g.foundAll c (g.successors i) rest).map (.behind [v]) := by
  have hone : ∀ j, explore g c (g.depth (token :: rest)) ⟨j, [v], rest⟩
      = (g.found c j rest).map (.behind [v]) := by
    intro j
    have hlt := Frame.height_lt_depth hr ⟨j, [v], rest⟩
    have hle : g.depth rest ≤ g.depth (token :: rest) :=
      Nat.mul_le_mul_right _ (Nat.le_succ (rest.length + 1))
    rw [explore_stable hr (Nat.lt_of_lt_of_le hlt hle) hlt]
    exact explore_behind [v] (g.depth rest) ⟨j, [], rest⟩
  unfold Walk.advance foundAll
  rw [List.flatMap_map, List.map_flatMap]
  exact congrArg (List.flatMap · (g.successors i)) (funext hone)

variable {i : Nat} {t : Solid} {token : String} {rest : List String}

theorem found_pending (hr : g.Ranked rank) (ht : g.solid? i = some t) :
    g.found c i [] = [.ofWalk [t.pendingVisit c i] false] := by
  rw [found_eq hr, Frame.outcome_pending ht rfl]
  rfl

theorem found_accepted (hr : g.Ranked rank) (ht : g.solid? i = some t)
    (ha : t.accepts c token = true) :
    g.found c i (token :: rest)
      = (g.foundAll c (g.successors i) rest).map (.behind [t.acceptedVisit c i token]) := by
  rw [found_eq hr, Frame.outcome_accepted ht rfl ha]
  exact flatMap_advance hr i _

theorem found_not_accepted (hr : g.Ranked rank) (ht : g.solid? i = some t)
    (ha : t.accepts c token = false) :
    g.found c i (token :: rest)
      = if t.stops c token rest.isEmpty then [.ofWalk [t.stoppedVisit c i token] false]
        else [] := by
  rw [found_eq hr]
  cases hs : t.stops c token rest.isEmpty with
  | true =>
      rw [Frame.outcome_stopped ht rfl hs]
      rfl
  | false =>
      rw [Frame.outcome_refused ht rfl ha hs]
      rfl

end Graph

/-! ## Both find the same -/

/-- The place of the node for a segment. -/
def Graph.nodeOf (g : Graph) (t : Solid) : Nat :=
  g.nodes.findIdx fun n => n.kind.id? == some t.id

theorem Graph.UniqueIds.nodeOf_eq (h : g.UniqueIds) {n : Nat} {t : Solid}
    (ht : g.solid? n = some t) : g.nodeOf t = n := by
  have hk := Graph.solid?_eq_some.mp ht
  have hn := Graph.lt_size_of_kind? hk
  rw [Graph.kind?_of_lt_size hn] at hk
  have hlt : g.nodeOf t < g.nodes.size := by
    apply Array.findIdx_lt_size_of_exists
    refine ⟨g.nodes[n], Array.getElem_mem hn, ?_⟩
    rw [Option.some.inj hk, Solid.kind_id?, beq_self_eq_true]
  have hid : g.nodes[g.nodeOf t].kind.id? = some t.id :=
    beq_iff_eq.mp (Array.findIdx_getElem (w := hlt))
  obtain ⟨t', hk', hid'⟩ := NodeKind.id?_eq_some.mp hid
  refine h _ _ t' t (Graph.solid?_eq_some.mpr ?_) ht hid'
  rw [Graph.kind?_of_lt_size hlt, hk']

theorem Scheme.BranchesLaid.exists_solid? {branches : List (Scheme SegmentId)} {exit : Nat}
    {first : List Nat}
    (hbranches : ∀ branch ∈ branches, ∀ next first, Scheme.Laid g next first branch →
      ∀ t ∈ Scheme.solids branch, ∃ n, g.solid? n = some t)
    (h : Scheme.BranchesLaid g exit first branches) :
    ∀ t ∈ Scheme.branchSolids branches, ∃ n, g.solid? n = some t := by
  induction branches generalizing first with
  | nil =>
      intro t ht
      exact absurd ht List.not_mem_nil
  | cons branch rest ih =>
      intro t ht
      obtain ⟨entry, out, others, -, -, -, -, hbranch, hrest⟩ := h
      rcases List.mem_append.mp ht with ht | ht
      · exact hbranches branch (by simp) _ _ hbranch t ht
      · exact ih (fun c hc => hbranches c (List.mem_cons_of_mem branch hc)) hrest t ht

/-- Every segment of the scheme has a node. -/
theorem Scheme.Laid.exists_solid? {scheme : Scheme SegmentId} {next first : List Nat}
    (h : Scheme.Laid g next first scheme) :
    ∀ t ∈ Scheme.solids scheme, ∃ n, g.solid? n = some t := by
  induction scheme using Scheme.induct generalizing next first with
  | nil =>
      intro t ht
      exact absurd ht List.not_mem_nil
  | solid u rest ih =>
      obtain ⟨middle, ⟨n, hn, -, -⟩, hrest⟩ := Scheme.laid_solid.mp h
      intro t ht
      rw [Scheme.solids, Solid.solids_segment] at ht
      rcases List.mem_cons.mp ht with rfl | ht
      · exact ⟨n, hn⟩
      · exact ih hrest t ht
  | optional inner rest ihinner ihrest =>
      obtain ⟨middle, ⟨entry, exit, -, -, -, -, hinner⟩, hrest⟩ := h
      intro t ht
      rcases List.mem_append.mp ht with ht | ht
      · exact ihinner hinner t ht
      · exact ihrest hrest t ht
  | union branches rest ihbranches ihrest =>
      obtain ⟨middle, ⟨entry, exit, -, -, -, -, hbranches⟩, hrest⟩ := h
      intro t ht
      rcases List.mem_append.mp ht with ht | ht
      · exact hbranches.exists_solid? (fun branch hb _ _ hlaid => ihbranches branch hb hlaid) t ht
      · exact ihrest hrest t ht

/-- **In the graph of a scheme without repetitions, the place of a segment holds the segment.** -/
theorem Graph.solid?_nodeOf (nextScope : Nat) {scheme : Scheme SegmentId}
    (h : Scheme.Distinct scheme) {t : Solid} (ht : t ∈ Scheme.solids scheme) :
    let g := (Graph.compile nextScope scheme).1
    g.solid? (g.nodeOf t) = some t := by
  intro g
  obtain ⟨n, hn⟩ := (Graph.compile_laid nextScope h).exists_solid? t ht
  rw [(Graph.compile_uniqueIds nextScope scheme).nodeOf_eq hn]
  exact hn

/-- A segment in the graph is searched as its node is explored. -/
theorem Solid.Laid.found_eq (hr : g.Ranked rank) (hu : g.UniqueIds) {t : Solid}
    {next first : List Nat} (h : t.Laid g next first) :
    g.foundAll c first = t.search c g.nodeOf (g.foundAll c next) := by
  obtain ⟨n, ht, rfl, hnext⟩ := h
  have hplace := hu.nodeOf_eq ht
  funext argv
  induction argv with
  | nil =>
      rw [Graph.foundAll_singleton, Graph.found_pending hr ht, Solid.search, hplace]
  | cons token rest ih =>
      rw [Graph.foundAll_singleton, Solid.search, hplace]
      cases ha : t.accepts c token with
      | false => exact Graph.found_not_accepted hr ht ha
      | true =>
          rw [Graph.found_accepted hr ht ha, hnext, if_pos rfl]
          cases t.repeats with
          | false => rfl
          | true =>
              -- What the node leads to first is itself, with the tokens left.
              rw [if_pos rfl, if_pos rfl, ← ih, Graph.foundAll_singleton, Graph.foundAll_cons]

theorem Scheme.BranchesLaid.found_eq (hr : g.Ranked rank) {branches : List (Scheme SegmentId)}
    {exit : Nat} {first : List Nat}
    (hbranches : ∀ branch ∈ branches, ∀ next first, Scheme.Laid g next first branch →
      g.foundAll c first = Scheme.search c g.nodeOf branch (g.foundAll c next))
    (h : Scheme.BranchesLaid g exit first branches) :
    g.foundAll c first = Scheme.branchSearch c g.nodeOf branches (g.found c exit) := by
  induction branches generalizing first with
  | nil =>
      rw [show first = [] from h]
      rfl
  | cons branch rest ih =>
      obtain ⟨entry, out, others, hentry, hout, rfl, hnext, hbranch, hrest⟩ := h
      have hfirst := hbranches branch (by simp) _ _ hbranch
      rw [Graph.foundAll_singleton, Graph.found_inner hr hout, hnext,
        Graph.foundAll_singleton] at hfirst
      have hothers := ih (fun c hc => hbranches c (List.mem_cons_of_mem branch hc)) hrest
      funext argv
      rw [Graph.foundAll_cons, Graph.found_inner hr hentry, hfirst, hothers]
      rfl

/-- **A scheme in the graph is searched as the nodes are explored at which it begins.** -/
theorem Scheme.Laid.found_eq (hr : g.Ranked rank) (hu : g.UniqueIds) {scheme : Scheme SegmentId}
    {next first : List Nat} (h : Scheme.Laid g next first scheme) :
    g.foundAll c first = Scheme.search c g.nodeOf scheme (g.foundAll c next) := by
  induction scheme using Scheme.induct generalizing next first with
  | nil =>
      rw [show first = next from h]
      rfl
  | solid t rest ih =>
      obtain ⟨middle, ht, hrest⟩ := Scheme.laid_solid.mp h
      rw [Scheme.search_solid, ← ih hrest]
      exact ht.found_eq hr hu
  | optional inner rest ihinner ihrest =>
      obtain ⟨middle, ⟨entry, exit, hentry, hexit, rfl, hnext, hinner⟩, hrest⟩ := h
      have hin := ihinner hinner
      rw [Graph.foundAll_singleton, Graph.found_inner hr hexit, hnext, ihrest hrest] at hin
      funext argv
      rw [Graph.foundAll_cons, Graph.found_inner hr hentry, hin, ihrest hrest]
      rfl
  | union branches rest ihbranches ihrest =>
      obtain ⟨middle, ⟨entry, exit, hentry, hexit, rfl, hnext, hbranches⟩, hrest⟩ := h
      have hin := hbranches.found_eq (c := c) hr
        fun branch hb _ _ hlaid => ihbranches branch hb hlaid
      rw [Graph.found_inner hr hexit, hnext, ihrest hrest] at hin
      rw [Graph.foundAll_singleton, Graph.found_inner hr hentry, hin]
      rfl

end

/-- **The matches of a line are those of a search through the scheme, each kept where it is found
first.** -/
theorem Session.matches_eq_search (nextScope : Nat) {scheme : Scheme SegmentId}
    (h : Scheme.Distinct scheme) (s : Session) (argv : List String) :
    let g := (Graph.compile nextScope scheme).1
    (s.matches g argv).1
      = Match.distinct (Scheme.search s.answers g.nodeOf scheme Search.finish argv) := by
  intro g
  obtain ⟨rank, hr⟩ := Graph.compile_ranked nextScope scheme
  have hu : g.UniqueIds := Graph.compile_uniqueIds nextScope scheme
  have hg : g.Framed := Graph.compile_framed nextScope scheme
  have hlaid := (Graph.compile_laid nextScope h).found_eq (c := s.answers) hr hu
  rw [Graph.foundAll_singleton, Graph.found_exit hr hg] at hlaid
  have hentry : g.found s.answers g.entry = Scheme.search s.answers g.nodeOf scheme Search.finish :=
    (Graph.found_inner hr ⟨hg.isMarker_entry, hg.entry_ne_exit⟩).trans hlaid
  rw [Session.matches_eq hr hu, ← hentry]
  rfl

/-! ## The first match of a kind -/

namespace Match

theorem distinct_cons (m : Match) (ms : List Match) :
    distinct (m :: ms) = m :: distinct (ms.filter fun n => (n.key == m.key) = false) := by
  rw [distinct_eq_eraseDupsBy, distinct_eq_eraseDupsBy]
  exact List.eraseDupsBy_cons

/-- **The first match of a kind is not a repetition**, if the kind of a match depends on what tells
matches apart. -/
theorem find?_distinct {p : Match → Bool} (hp : ∀ m n : Match, m.key = n.key → p m = p n)
    (ms : List Match) : (distinct ms).find? p = ms.find? p := by
  -- The repetitions of the first match are left out at once, so fewer matches are left.
  match ms with
  | [] => rfl
  | m :: ms =>
      rw [distinct_cons, List.find?_cons, List.find?_cons, find?_distinct hp, List.find?_filter]
      cases hm : p m with
      | true => rfl
      | false =>
          apply List.find?_congr
          intro n hn
          by_cases hkey : n.key = m.key
          · simp [hkey, hp n m hkey, hm]
          · simp [hkey]
termination_by ms.length
decreasing_by exact Nat.lt_succ_of_le (List.length_filter_le _ _)

end Match
end CommandGrammar
