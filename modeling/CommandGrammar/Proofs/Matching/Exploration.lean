import CommandGrammar.Proofs.Graph.Order
import CommandGrammar.Proofs.Matching.Outcome
import Mathlib.Logic.Function.Iterate

/-!
# `Proofs.Matching.Exploration` — the worklist explores depth first, and it ends

The loop keeps no set of visited nodes and the graph has cycles, so neither the number of nodes nor
their places bound it. What does is the height of a frame: the tokens left, and among frames with
the same tokens the rank of the node, which falls along every link out of a marker. All frames that
come of a frame are lower than it, and there are at most `Graph.maxDegree` of them; the weight of a
stack turns this into a number that every step lowers.

Hence the worklist empties its stack within `Walk.fuel` steps, and what it found by then is the
depth-first exploration of its stack.

## Contents
- `Frame.height`, `Walk.weight`, `Walk.weight_step_lt`: why it ends.
- `explore`, `Walk.run_found`: what it finds.
- `Session.matches_eq`: the matches of a line as an exploration.
- Matching ends on every compiled graph.
-/

namespace CommandGrammar

section

variable {g : Graph} {c : Variable SegmentId → List String} {rank : Nat → Nat}

/-! ## Heights -/

/-- The tokens left, then the rank of the node. -/
def Frame.height (g : Graph) (rank : Nat → Nat) (f : Frame) : Nat :=
  f.rest.length * (g.nodes.size + 1) + rank f.node

/-- Heights stay below this for a whole line. -/
def Graph.depth (g : Graph) (argv : List String) : Nat :=
  (argv.length + 1) * (g.nodes.size + 1)

theorem Frame.height_lt_depth (hr : g.Ranked rank) (f : Frame) :
    f.height g rank < g.depth f.rest := by
  have hle := hr.le_size f.node
  unfold Frame.height Graph.depth
  rw [Nat.succ_mul]
  omega

/-- **Every frame that comes of a frame is lower.** -/
theorem Frame.height_lt (hr : g.Ranked rank) {f f' : Frame} (h : f' ∈ (f.outcome g c).1) :
    f'.height g rank < f.height g rank := by
  -- Past a marker the rank falls and the tokens stay; a token taken outweighs any rank.
  cases Frame.next_of_mem h with
  | @through scope j isEntry hk he hj =>
      exact Nat.add_lt_add_left (hr.falls f.node ⟨scope, isEntry, hk⟩ j hj) _
  | @accepted t token rest j ht hrest ha hj =>
      have hle := hr.le_size j
      unfold Frame.height
      rw [hrest, List.length_cons, Nat.succ_mul]
      show rest.length * (g.nodes.size + 1) + rank j < _
      omega

/-! ## Weights -/

theorem Graph.length_successors_le (g : Graph) (i : Nat) :
    (g.successors i).length ≤ g.maxDegree := by
  have hmax : ∀ (nodes : List Node) (d : Nat),
      d ≤ nodes.foldl (fun d n => max d n.edges.length) d ∧
        ∀ n ∈ nodes, n.edges.length ≤ nodes.foldl (fun d n => max d n.edges.length) d := by
    intro nodes
    induction nodes with
    | nil => exact fun d => ⟨Nat.le_refl _, fun n hn => absurd hn (by simp)⟩
    | cons n rest ih =>
        intro d
        obtain ⟨hd, hrest⟩ := ih (max d n.edges.length)
        refine ⟨Nat.le_trans (Nat.le_max_left _ _) hd, ?_⟩
        intro m hm
        rcases List.mem_cons.mp hm with h | h
        · rw [h]
          exact Nat.le_trans (Nat.le_max_right _ _) hd
        · exact hrest m h
  unfold Graph.successors Graph.maxDegree
  cases hn : g.nodes[i]? with
  | none => exact Nat.zero_le _
  | some n =>
      rw [← Array.foldl_toList]
      exact (hmax g.nodes.toList 0).2 n (Array.mem_toList_iff.mpr (Array.mem_of_getElem? hn))

theorem Frame.length_outcome_le (f : Frame) : (f.outcome g c).1.length ≤ g.maxDegree := by
  have hcomes := f.outcome_comes (g := g) (c := c)
  generalize (f.outcome g c).1 = frames at *
  generalize (f.outcome g c).2 = found at *
  cases hcomes with
  | through scope isEntry hk he =>
      unfold Walk.advance
      rw [List.length_map]
      exact g.length_successors_le f.node
  | accepted t token rest ht hrest ha =>
      unfold Walk.advance
      rw [List.length_map]
      exact g.length_successors_le f.node
  | absent hk => exact Nat.zero_le _
  | whole scope hk he hrest => exact Nat.zero_le _
  | surplus scope hk he hrest => exact Nat.zero_le _
  | pending t ht hrest => exact Nat.zero_le _
  | stopped t token rest ht hrest hs => exact Nat.zero_le _
  | refused t token rest ht hrest ha hs => exact Nat.zero_le _

/-- A bound on the steps that a stack still takes. -/
def Walk.weight (g : Graph) (rank : Nat → Nat) : List Frame → Nat
  | [] => 0
  | f :: stack => Nat.pow (g.maxDegree + 1) (f.height g rank) + Walk.weight g rank stack

theorem Walk.weight_append (fs stack : List Frame) :
    Walk.weight g rank (fs ++ stack) = Walk.weight g rank fs + Walk.weight g rank stack := by
  induction fs with
  | nil => exact (Nat.zero_add _).symm
  | cons f fs ih =>
      show _ + Walk.weight g rank (fs ++ stack) = (_ + Walk.weight g rank fs) + _
      rw [ih, Nat.add_assoc]

/-- Frames below a height weigh at most their number times the weight of one frame just below it. -/
theorem Walk.weight_mul_le {fs : List Frame} {n : Nat} (h : ∀ f ∈ fs, f.height g rank < n) :
    Walk.weight g rank fs * (g.maxDegree + 1) ≤ fs.length * Nat.pow (g.maxDegree + 1) n := by
  induction fs with
  | nil => simp [Walk.weight]
  | cons f fs ih =>
      have hrest := ih fun f' hf' => h f' (List.mem_cons_of_mem f hf')
      have hfirst : Nat.pow (g.maxDegree + 1) (f.height g rank) * (g.maxDegree + 1)
          ≤ Nat.pow (g.maxDegree + 1) n :=
        Nat.pow_le_pow_right (Nat.succ_pos _) (h f (by simp))
      show (_ + Walk.weight g rank fs) * _ ≤ (fs.length + 1) * _
      rw [Nat.add_mul, Nat.succ_mul]
      omega

/-- What comes of a frame weighs less than the frame. -/
theorem Frame.weight_outcome_lt (hr : g.Ranked rank) (f : Frame) :
    Walk.weight g rank (f.outcome g c).1 < Nat.pow (g.maxDegree + 1) (f.height g rank) := by
  have hmul := Walk.weight_mul_le fun f' hf' => Frame.height_lt (c := c) hr (f := f) hf'
  have hlen := f.length_outcome_le (g := g) (c := c)
  have hpos : 0 < Nat.pow (g.maxDegree + 1) (f.height g rank) := Nat.pow_pos (Nat.succ_pos _)
  have hle := Nat.mul_le_mul_right (Nat.pow (g.maxDegree + 1) (f.height g rank)) hlen
  have hlt : Walk.weight g rank (f.outcome g c).1 * (g.maxDegree + 1)
      < Nat.pow (g.maxDegree + 1) (f.height g rank) * (g.maxDegree + 1) := by
    rw [Nat.mul_succ (Nat.pow _ _), Nat.mul_comm (Nat.pow _ _) g.maxDegree]
    omega
  exact Nat.lt_of_mul_lt_mul_right hlt

/-- **Every step lowers the weight of the stack.** -/
theorem Walk.weight_step_lt (hr : g.Ranked rank) (f : Frame) (stack : List Frame) :
    Walk.weight g rank ((f.outcome g c).1 ++ stack) < Walk.weight g rank (f :: stack) := by
  rw [Walk.weight_append]
  exact Nat.add_lt_add_right (f.weight_outcome_lt hr) _

/-! ## Exploration -/

/-- The matches that come of a frame, the first branch first, down to a depth. -/
def explore (g : Graph) (c : Variable SegmentId → List String) : Nat → Frame → List Match
  | 0, _ => []
  | depth + 1, f => (f.outcome g c).2 ++ (f.outcome g c).1.flatMap (explore g c depth)

/-- A depth above the height of the frame is as good as any other. -/
theorem explore_stable (hr : g.Ranked rank) {depth depth' : Nat} {f : Frame}
    (h : f.height g rank < depth) (h' : f.height g rank < depth') :
    explore g c depth f = explore g c depth' f := by
  induction depth generalizing depth' f with
  | zero => exact absurd h (Nat.not_lt_zero _)
  | succ depth ih =>
      cases depth' with
      | zero => exact absurd h' (Nat.not_lt_zero _)
      | succ depth' =>
          have hframes : ∀ f' ∈ (f.outcome g c).1,
              explore g c depth f' = explore g c depth' f' := by
            intro f' hf'
            have hlt := Frame.height_lt hr hf'
            exact ih (by omega) (by omega)
          show _ ++ (f.outcome g c).1.flatMap _ = _ ++ (f.outcome g c).1.flatMap _
          rw [List.flatMap_congr hframes]

/-- A frame is explored by its outcome, then by what comes of it. -/
theorem explore_eq (hr : g.Ranked rank) {depth : Nat} {f : Frame} (h : f.height g rank < depth) :
    explore g c depth f
      = (f.outcome g c).2 ++ (f.outcome g c).1.flatMap (explore g c depth) := by
  rw [explore_stable hr h (Nat.lt_succ_of_lt h)]
  rfl

/-! ## The worklist -/

/-- **The worklist ends, and it has explored its stack depth first.** -/
theorem Walk.run_found (hr : g.Ranked rank) (hu : g.UniqueIds) {depth : Nat} :
    ∀ (fuel : Nat) (w : Walk), w.session.Answers g c → Walk.weight g rank w.stack ≤ fuel →
      (∀ f ∈ w.stack, f.height g rank < depth) →
      (w.run g fuel).stack = [] ∧
        (w.run g fuel).found.reverse = w.found.reverse ++ w.stack.flatMap (explore g c depth) := by
  -- On the fuel. A step puts what comes of the top frame in its place, so what has been found and
  -- what the stack still explores make up the same list before and after it.
  intro fuel
  induction fuel with
  | zero =>
      intro w _ hfuel _
      cases hw : w.stack with
      | nil => exact ⟨hw, by simp [Walk.run]⟩
      | cons f stack =>
          have hpos : 0 < Nat.pow (g.maxDegree + 1) (f.height g rank) :=
            Nat.pow_pos (Nat.succ_pos _)
          rw [hw] at hfuel
          have hle : Nat.pow (g.maxDegree + 1) (f.height g rank) + Walk.weight g rank stack ≤ 0 :=
            hfuel
          omega
  | succ fuel ih =>
      intro w hs hfuel hdepth
      cases hw : w.stack with
      | nil => exact ⟨by simp [Walk.run, hw], by simp [Walk.run, hw]⟩
      | cons f stack =>
          obtain ⟨session, hs', hstep⟩ := Walk.step_eq hu hw hs
          have hf : f.height g rank < depth := hdepth f (by simp [hw])
          have hlt := Walk.weight_step_lt (c := c) hr f stack
          have hrun : w.run g (fuel + 1) = (w.step g).run g fuel := by
            simp [Walk.run, hw]
          have hstack : ∀ f' ∈ (f.outcome g c).1 ++ stack, f'.height g rank < depth := by
            intro f' hf'
            rcases List.mem_append.mp hf' with h | h
            · exact Nat.lt_trans (Frame.height_lt hr h) hf
            · exact hdepth f' (by simp [hw, h])
          rw [hw] at hfuel
          have hweight : Walk.weight g rank ((f.outcome g c).1 ++ stack) ≤ fuel := by omega
          rw [hrun, hstep]
          obtain ⟨hempty, hfound⟩ := ih ⟨session, (f.outcome g c).1 ++ stack,
            (f.outcome g c).2 ++ w.found⟩ hs' hweight hstack
          refine ⟨hempty, ?_⟩
          rw [hfound, List.reverse_append, Frame.reverse_outcome_found, List.flatMap_append,
            List.flatMap_cons, explore_eq hr hf]
          simp only [List.append_assoc]

/-- Running takes steps, at most as many as there is fuel. -/
theorem Walk.run_eq_iterate (g : Graph) (fuel : Nat) (w : Walk) :
    ∃ n ≤ fuel, w.run g fuel = (Walk.step g)^[n] w := by
  induction fuel generalizing w with
  | zero => exact ⟨0, Nat.le_refl _, rfl⟩
  | succ fuel ih =>
      unfold Walk.run
      by_cases hw : w.stack.isEmpty = true
      · rw [if_pos hw]
        exact ⟨0, Nat.zero_le _, rfl⟩
      · rw [if_neg hw]
        obtain ⟨n, hn, hrun⟩ := ih (w.step g)
        refine ⟨n + 1, Nat.succ_le_succ hn, ?_⟩
        rw [hrun, Function.iterate_succ_apply]

/-- The fuel for a line covers the frame at the entry. -/
theorem Walk.weight_start_le (hr : g.Ranked rank) (argv : List String) :
    Walk.weight g rank [⟨g.entry, [], argv⟩] ≤ Walk.fuel g argv := by
  have hlt := Frame.height_lt_depth hr ⟨g.entry, [], argv⟩
  have hpow : Nat.pow (g.maxDegree + 1) (Frame.height g rank ⟨g.entry, [], argv⟩)
      ≤ Nat.pow (g.maxDegree + 1) (g.depth argv) :=
    Nat.pow_le_pow_right (Nat.succ_pos _) (Nat.le_of_lt hlt)
  exact hpow

/-- The fuel for a line is enough: the stack is empty in the end, and all that comes of the entry
has been explored. -/
theorem Walk.run_start (hr : g.Ranked rank) (hu : g.UniqueIds) (s : Session)
    (argv : List String) :
    ((Walk.start s g argv).run g (Walk.fuel g argv)).stack = [] ∧
      ((Walk.start s g argv).run g (Walk.fuel g argv)).found.reverse
        = explore g s.answers (g.depth argv) ⟨g.entry, [], argv⟩ := by
  have hstart : ∀ f ∈ (Walk.start s g argv).stack, f.height g rank < g.depth argv := by
    intro f hf
    rw [List.mem_singleton.mp hf]
    exact Frame.height_lt_depth hr ⟨g.entry, [], argv⟩
  obtain ⟨hempty, hfound⟩ := Walk.run_found hr hu _ (Walk.start s g argv) (s.answers_self g)
    (Walk.weight_start_le hr argv) hstart
  refine ⟨hempty, ?_⟩
  rw [hfound]
  simp [Walk.start]

/-- The matches of a line are the exploration of the graph from its entry, each kept once. -/
theorem Session.matches_eq (hr : g.Ranked rank) (hu : g.UniqueIds) (s : Session)
    (argv : List String) :
    (s.matches g argv).1
      = Match.distinct (explore g s.answers (g.depth argv) ⟨g.entry, [], argv⟩) := by
  rw [← (Walk.run_start hr hu s argv).2]
  rfl

end

/-- **Matching ends on every compiled graph**, whatever the scheme, the session and the line. No
cycle of the graph consists of markers only, so every cycle takes a token; the worklist empties its
stack within `Walk.fuel` steps, and so `Walk.run` never stops for want of fuel. -/
theorem matching_terminates (nextScope : Nat) (scheme : Scheme SegmentId) (s : Session)
    (argv : List String) :
    let g := (Graph.compile nextScope scheme).1
    (∀ i, ¬ Relation.TransGen g.MarkerStep i i) ∧
    ∃ n ≤ Walk.fuel g argv,
      ((Walk.step g)^[n] (Walk.start s g argv)).stack = [] ∧
      (Walk.start s g argv).run g (Walk.fuel g argv) = (Walk.step g)^[n] (Walk.start s g argv) := by
  intro g
  obtain ⟨rank, hr⟩ := Graph.compile_ranked nextScope scheme
  refine ⟨hr.acyclic, ?_⟩
  obtain ⟨n, hn, hrun⟩ := Walk.run_eq_iterate g (Walk.fuel g argv) (Walk.start s g argv)
  obtain ⟨hempty, -⟩ := Walk.run_start hr (Graph.compile_uniqueIds nextScope scheme) s argv
  refine ⟨n, hn, ?_, hrun⟩
  rw [← hrun]
  exact hempty

end CommandGrammar
