import CommandGrammar.Proofs.Matching.Exploration
import Mathlib.Data.List.Chain
import Mathlib.Data.List.Forall2

/-!
# `Proofs.Matching.Walks` — the matches of a line are walks of the graph

A walk is a list of solid nodes, each led to from the one before it (the first from the entry) by
links that pass markers only. With the candidates of a session fixed, a line is matched by exactly
those walks whose nodes take its tokens and which then leave the graph, wait for another token, or
stop at one. Nothing here assumes that a segment stands in one place of the scheme; the graph may
have cycles.

The proof goes through two judgements. `Graph.Ends` follows the exploration node by node, markers
included; `Graph.Walks` forgets the markers. Several routes through markers give the same walk, so
the two agree on which walks there are and not on how often each is found.

## Contents
- `Graph.Leads`: from one node to the next, through markers.
- `Graph.Ends`, `ends_of_mem_explore`, `mem_explore_of_ends`: what an exploration finds.
- `Graph.Walks`, `Graph.WholeWalk`, `Graph.PartialWalk`: walks.
- `Graph.Walks.eq_of_nodes`: the nodes of a walk decide all of it.
- `Match.distinct_spec`: each match is kept once.
- `Session.definite_of_mem_matches`: each match is either partial or invokable.
- `Session.mem_matches_iff`, `Session.invokable_iff`, `Session.partial_iff`, `Session.nodup_nodes`:
  the matches of a line, put together for compiled graphs.
-/

namespace CommandGrammar

/-! ## Links through markers -/

/-- A node is reached from another one by at least one link; all nodes in between are markers. -/
inductive Graph.Leads (g : Graph) : Nat → Nat → Prop
  | link {i j : Nat} (hj : j ∈ g.successors i) : Leads g i j
  | through {i m j : Nat} (hm : m ∈ g.successors i) (hmarker : g.IsMarker m) (h : Leads g m j) :
      Leads g i j

/-- The entry of the graph is a marker, and nothing follows its exit, which is another marker. -/
structure Graph.Framed (g : Graph) : Prop where
  isMarker_entry : g.IsMarker g.entry
  entry_ne_exit : g.entry ≠ g.exit
  kind?_exit : ∃ scope, g.kind? g.exit = some (.marker scope false)
  successors_exit : g.successors g.exit = []

theorem Graph.compile_framed (nextScope : Nat) (scheme : Scheme SegmentId) :
    (Graph.compile nextScope scheme).1.Framed where
  isMarker_entry := Graph.compile_isMarker_entry nextScope scheme
  entry_ne_exit := by
    rw [Graph.compile_eq]
    exact Nat.zero_ne_one
  kind?_exit := ⟨nextScope, Graph.compile_kind?_exit nextScope scheme⟩
  successors_exit := Graph.compile_successors_exit nextScope scheme

section

variable {g : Graph} {c : Variable SegmentId → List String} {rank : Nat → Nat}

/-- Something follows every node but the exit. -/
theorem Graph.Framed.ne_exit (hg : g.Framed) {i j : Nat} (h : g.Leads i j) : i ≠ g.exit := by
  intro he
  subst he
  cases h with
  | link hj =>
      rw [hg.successors_exit] at hj
      exact absurd hj (by simp)
  | through hm hmarker h =>
      rw [hg.successors_exit] at hm
      exact absurd hm (by simp)

/-! ## What an exploration finds -/

/-- What comes of a node and the tokens left: the visits from there on, and whether the line can be
invoked after them. -/
inductive Graph.Ends (g : Graph) (c : Variable SegmentId → List String) :
    Nat → List String → List Visit → Bool → Prop
  | whole {scope : Nat} (hk : g.kind? g.exit = some (.marker scope false)) :
      Ends g c g.exit [] [] true
  | through {i j scope : Nat} {isEntry : Bool} {rest : List String} {vs : List Visit} {b : Bool}
      (hk : g.kind? i = some (.marker scope isEntry)) (he : isEntry = true ∨ i ≠ g.exit)
      (hj : j ∈ g.successors i) (h : Ends g c j rest vs b) : Ends g c i rest vs b
  | pending {i : Nat} {t : Solid} (ht : g.solid? i = some t) :
      Ends g c i [] [t.pendingVisit c i] false
  | stopped {i : Nat} {t : Solid} {token : String} {rest : List String} (ht : g.solid? i = some t)
      (hs : t.stops c token rest.isEmpty = true) :
      Ends g c i (token :: rest) [t.stoppedVisit c i token] false
  | accepted {i j : Nat} {t : Solid} {token : String} {rest : List String} {vs : List Visit}
      {b : Bool} (ht : g.solid? i = some t) (ha : t.accepts c token = true)
      (hj : j ∈ g.successors i) (h : Ends g c j rest vs b) :
      Ends g c i (token :: rest) (t.acceptedVisit c i token :: vs) b

/-- Whatever an exploration finds continues the trail of its frame. -/
theorem ends_of_mem_explore {depth : Nat} {f : Frame} {m : Match}
    (h : m ∈ explore g c depth f) :
    ∃ vs, g.Ends c f.node f.rest vs m.isInvokable ∧ m.path = f.trail.reverse ++ vs := by
  induction depth generalizing f with
  | zero => exact absurd h (by simp [explore])
  | succ depth ih =>
      rcases List.mem_append.mp h with hfound | hlater
      · cases Frame.last_of_mem hfound with
        | whole hk he hr =>
            rw [he, hr]
            rw [he] at hk
            exact ⟨[], .whole hk, by simp⟩
        | pending ht hr =>
            rw [hr]
            exact ⟨_, .pending ht, by simp⟩
        | stopped ht hr hs =>
            rw [hr]
            exact ⟨_, .stopped ht hs, by simp⟩
      · obtain ⟨f', hf', hm⟩ := List.mem_flatMap.mp hlater
        obtain ⟨vs, hends, hpath⟩ := ih hm
        cases Frame.next_of_mem hf' with
        | through hk he hj => exact ⟨vs, .through hk he hj hends, hpath⟩
        | accepted ht hr ha hj =>
            rw [hr]
            exact ⟨_, .accepted ht ha hj hends, by simpa using hpath⟩

/-- An exploration that goes deep enough misses nothing. -/
theorem mem_explore_of_ends (hr : g.Ranked rank) {depth i : Nat} {rest : List String}
    {vs : List Visit} {b : Bool} (h : g.Ends c i rest vs b) (trail : List Visit)
    (hdepth : Frame.height g rank ⟨i, trail, rest⟩ < depth) :
    Match.ofWalk (trail.reverse ++ vs) b ∈ explore g c depth ⟨i, trail, rest⟩ := by
  -- On the judgement: each case is one equation of `Frame.outcome`, and the frames that go on are
  -- lower, so they are explored to the same depth.
  have step : ∀ {f e : Frame} {m : Match}, f.height g rank < depth → e ∈ (f.outcome g c).1 →
      (e.height g rank < depth → m ∈ explore g c depth e) → m ∈ explore g c depth f := by
    intro f e m hf he hm
    rw [explore_eq hr hf]
    have hlt := Nat.lt_trans (Frame.height_lt hr he) hf
    exact List.mem_append_right _ (List.mem_flatMap.mpr ⟨e, he, hm hlt⟩)
  induction h generalizing trail with
  | whole hk =>
      rw [explore_eq hr hdepth, Frame.outcome_whole hk rfl rfl]
      simp
  | pending ht =>
      rw [explore_eq hr hdepth, Frame.outcome_pending ht rfl]
      simp
  | stopped ht hs =>
      rw [explore_eq hr hdepth, Frame.outcome_stopped ht rfl hs]
      simp
  | @through i j scope isEntry rest vs b hk he hj _ ih =>
      refine step (e := ⟨j, trail, rest⟩) hdepth ?_ (ih trail)
      rw [Frame.outcome_through hk he]
      exact List.mem_map.mpr ⟨j, hj, rfl⟩
  | @accepted i j t token rest vs b ht ha hj _ ih =>
      have hpath : trail.reverse ++ t.acceptedVisit c i token :: vs
          = (t.acceptedVisit c i token :: trail).reverse ++ vs := by simp
      rw [hpath]
      refine step (e := ⟨j, t.acceptedVisit c i token :: trail, rest⟩) hdepth ?_ (ih _)
      rw [Frame.outcome_accepted ht rfl ha]
      exact List.mem_map.mpr ⟨j, hj, rfl⟩

/-! ## Walks without markers -/

/-- What follows a node, markers left out: the visits that take the tokens left, and whether the
line can be invoked after them. -/
inductive Graph.Walks (g : Graph) (c : Variable SegmentId → List String) :
    Nat → List String → List Visit → Bool → Prop
  | whole {i : Nat} (h : g.Leads i g.exit) : Walks g c i [] [] true
  | pending {i n : Nat} {t : Solid} (h : g.Leads i n) (ht : g.solid? n = some t) :
      Walks g c i [] [t.pendingVisit c n] false
  | stopped {i n : Nat} {t : Solid} {token : String} {rest : List String} (h : g.Leads i n)
      (ht : g.solid? n = some t) (hs : t.stops c token rest.isEmpty = true) :
      Walks g c i (token :: rest) [t.stoppedVisit c n token] false
  | accepted {i n : Nat} {t : Solid} {token : String} {rest : List String} {vs : List Visit}
      {b : Bool} (h : g.Leads i n) (ht : g.solid? n = some t) (ha : t.accepts c token = true)
      (hw : Walks g c n rest vs b) :
      Walks g c i (token :: rest) (t.acceptedVisit c n token :: vs) b

/-- A marker in front is passed. -/
theorem Graph.Walks.through {i m : Nat} {rest : List String} {vs : List Visit} {b : Bool}
    (hm : m ∈ g.successors i) (hmarker : g.IsMarker m) (h : g.Walks c m rest vs b) :
    g.Walks c i rest vs b := by
  cases h with
  | whole h => exact .whole (.through hm hmarker h)
  | pending h ht => exact .pending (.through hm hmarker h) ht
  | stopped h ht hs => exact .stopped (.through hm hmarker h) ht hs
  | accepted h ht ha hw => exact .accepted (.through hm hmarker h) ht ha hw

theorem Graph.Ends.walks {i j : Nat} {rest : List String} {vs : List Visit} {b : Bool}
    (h : g.Ends c j rest vs b) (hj : j ∈ g.successors i) : g.Walks c i rest vs b := by
  induction h generalizing i with
  | whole hk => exact .whole (.link hj)
  | pending ht => exact .pending (.link hj) ht
  | stopped ht hs => exact .stopped (.link hj) ht hs
  | through hk he hj' _ ih => exact .through hj ⟨_, _, hk⟩ (ih hj')
  | accepted ht ha hj' _ ih => exact .accepted (.link hj) ht ha (ih hj')

/-- Past a marker other than the exit, a successor goes on. -/
theorem Graph.Ends.successor {i : Nat} {rest : List String} {vs : List Visit} {b : Bool}
    (h : g.Ends c i rest vs b) (hm : g.IsMarker i) (hi : i ≠ g.exit) :
    ∃ j ∈ g.successors i, g.Ends c j rest vs b := by
  cases h with
  | whole hk => exact absurd rfl hi
  | through hk he hj h => exact ⟨_, hj, h⟩
  | pending ht => exact absurd ht (hm.solid?_ne_some _)
  | stopped ht hs => exact absurd ht (hm.solid?_ne_some _)
  | accepted ht ha hj h => exact absurd ht (hm.solid?_ne_some _)

/-- What ends at a node that is led to, ends at a successor. -/
theorem Graph.Leads.ends (hg : g.Framed) {i n : Nat} {rest : List String} {vs : List Visit}
    {b : Bool} (h : g.Leads i n) (hn : g.Ends c n rest vs b) :
    ∃ j ∈ g.successors i, g.Ends c j rest vs b := by
  induction h with
  | link hj => exact ⟨_, hj, hn⟩
  | through hm hmarker h ih =>
      obtain ⟨scope, isEntry, hk⟩ := hmarker
      obtain ⟨j, hj, hends⟩ := ih hn
      exact ⟨_, hm, .through hk (Or.inr (hg.ne_exit h)) hj hends⟩

theorem Graph.Walks.ends (hg : g.Framed) {i : Nat} {rest : List String} {vs : List Visit}
    {b : Bool} (h : g.Walks c i rest vs b) : ∃ j ∈ g.successors i, g.Ends c j rest vs b := by
  induction h with
  | whole h =>
      obtain ⟨scope, hk⟩ := hg.kind?_exit
      exact h.ends hg (.whole hk)
  | pending h ht => exact h.ends hg (.pending ht)
  | stopped h ht hs => exact h.ends hg (.stopped ht hs)
  | accepted h ht ha _ ih =>
      obtain ⟨j, hj, hends⟩ := ih
      exact h.ends hg (.accepted ht ha hj hends)

/-- **The exploration from the entry finds walks from the entry only.** -/
theorem walks_of_mem_explore (hg : g.Framed) {argv : List String} {m : Match}
    (h : m ∈ explore g c (g.depth argv) ⟨g.entry, [], argv⟩) :
    g.Walks c g.entry argv m.path m.isInvokable := by
  obtain ⟨vs, hends, hpath⟩ := ends_of_mem_explore h
  obtain ⟨j, hj, hends'⟩ := hends.successor hg.isMarker_entry hg.entry_ne_exit
  rw [show m.path = vs from hpath]
  exact hends'.walks hj

/-- **The exploration from the entry finds every walk from the entry**, at least once. -/
theorem mem_explore_of_walks (hr : g.Ranked rank) (hg : g.Framed) {argv : List String}
    {vs : List Visit} {b : Bool} (h : g.Walks c g.entry argv vs b) :
    Match.ofWalk vs b ∈ explore g c (g.depth argv) ⟨g.entry, [], argv⟩ := by
  obtain ⟨scope, isEntry, hk⟩ := hg.isMarker_entry
  obtain ⟨j, hj, hends⟩ := h.ends hg
  exact mem_explore_of_ends hr (.through hk (Or.inr hg.entry_ne_exit) hj hends) []
    (Frame.height_lt_depth hr ⟨g.entry, [], argv⟩)

/-! ## Walks as lists of nodes -/

/-- A node takes a token. -/
def Graph.Takes (g : Graph) (c : Variable SegmentId → List String) (n : Nat) (token : String) :
    Prop :=
  ∃ t, g.solid? n = some t ∧ t.accepts c token = true

/-- A segment is left waiting: for a token when there is none, or at the next token because it
stopped there. -/
inductive Solid.Waits (c : Variable SegmentId → List String) (t : Solid) : List String → Prop
  | pending : Waits c t []
  | stopped {token : String} {rest : List String} (hs : t.stops c token rest.isEmpty = true) :
      Waits c t (token :: rest)

/-- A node is left waiting. -/
def Graph.Waits (g : Graph) (c : Variable SegmentId → List String) (n : Nat) (rest : List String) :
    Prop :=
  ∃ t, g.solid? n = some t ∧ t.Waits c rest

/-- The nodes form a walk from `i` that takes the whole line and leads to the exit. -/
structure Graph.WholeWalk (g : Graph) (c : Variable SegmentId → List String) (i : Nat)
    (argv : List String) (ns : List Nat) : Prop where
  chain : List.IsChain g.Leads (i :: ns)
  takes : List.Forall₂ (g.Takes c) ns argv
  leaves : g.Leads (ns.getLastD i) g.exit

/-- The nodes form a walk from `i` that takes the beginning `used` of the line, up to a last node
that waits with the tokens `rest` left. -/
def Graph.PartialWalk (g : Graph) (c : Variable SegmentId → List String) (i : Nat)
    (argv : List String) (ns : List Nat) : Prop :=
  List.IsChain g.Leads (i :: ns) ∧
  ∃ before n used rest, ns = before ++ [n] ∧ argv = used ++ rest ∧
    List.Forall₂ (g.Takes c) before used ∧ g.Waits c n rest

namespace Graph

variable {i n : Nat} {argv : List String} {ns : List Nat}

theorem wholeWalk_nil : g.WholeWalk c i argv [] ↔ argv = [] ∧ g.Leads i g.exit := by
  constructor
  · intro h
    exact ⟨List.forall₂_nil_left_iff.mp h.takes, h.leaves⟩
  · rintro ⟨rfl, h⟩
    exact ⟨List.isChain_singleton i, .nil, h⟩

theorem wholeWalk_cons : g.WholeWalk c i argv (n :: ns) ↔
    ∃ token rest, argv = token :: rest ∧ g.Leads i n ∧ g.Takes c n token ∧
      g.WholeWalk c n rest ns := by
  constructor
  · intro h
    obtain ⟨token, rest, htoken, hrest, hargv⟩ := List.forall₂_cons_left_iff.mp h.takes
    obtain ⟨hlead, hchain⟩ := List.isChain_cons_cons.mp h.chain
    have hleaves := h.leaves
    rw [List.getLastD_cons] at hleaves
    exact ⟨token, rest, hargv, hlead, htoken, hchain, hrest, hleaves⟩
  · rintro ⟨token, rest, rfl, hlead, htoken, h⟩
    refine ⟨List.isChain_cons_cons.mpr ⟨hlead, h.chain⟩, .cons htoken h.takes, ?_⟩
    rw [List.getLastD_cons]
    exact h.leaves

theorem not_partialWalk_nil : ¬ g.PartialWalk c i argv [] := by
  rintro ⟨-, before, n, used, rest, hns, -⟩
  exact absurd hns (by simp)

theorem partialWalk_cons : g.PartialWalk c i argv (n :: ns) ↔
    g.Leads i n ∧ ((ns = [] ∧ g.Waits c n argv) ∨
      ∃ token rest, argv = token :: rest ∧ g.Takes c n token ∧ g.PartialWalk c n rest ns) := by
  constructor
  · rintro ⟨hchain, before, m, used, rest, hns, hargv, htakes, hwaits⟩
    obtain ⟨hlead, hchain⟩ := List.isChain_cons_cons.mp hchain
    refine ⟨hlead, ?_⟩
    cases htakes with
    | nil =>
        rw [List.nil_append] at hns hargv
        injection hns with hn hns
        rw [hn, hargv]
        exact Or.inl ⟨hns, hwaits⟩
    | cons htoken htakes =>
        rw [List.cons_append] at hns hargv
        injection hns with hn hns
        rw [← hn] at htoken
        exact Or.inr ⟨_, _, hargv, htoken, hchain, _, m, _, rest, hns, rfl, htakes, hwaits⟩
  · rintro ⟨hlead, ⟨rfl, hwaits⟩ | ⟨token, rest, rfl, htoken, hchain, before, m, used, left, rfl,
      rfl, htakes, hwaits⟩⟩
    · exact ⟨by simpa using hlead, [], n, [], argv, rfl, rfl, .nil, hwaits⟩
    · exact ⟨List.isChain_cons_cons.mpr ⟨hlead, hchain⟩, n :: before, m, token :: used, left, rfl,
        rfl, .cons htoken htakes, hwaits⟩

/-- **A whole walk is one in the sense of `WholeWalk`.** -/
theorem exists_walks_true {i : Nat} {argv : List String} {ns : List Nat} :
    (∃ vs, vs.map Visit.node = ns ∧ g.Walks c i argv vs true) ↔ g.WholeWalk c i argv ns := by
  induction ns generalizing i argv with
  | nil =>
      rw [wholeWalk_nil]
      constructor
      · rintro ⟨vs, hvs, hw⟩
        cases List.map_eq_nil_iff.mp hvs
        cases hw with
        | whole h => exact ⟨rfl, h⟩
      · rintro ⟨rfl, h⟩
        exact ⟨[], rfl, .whole h⟩
  | cons n ns ih =>
      rw [wholeWalk_cons]
      constructor
      · rintro ⟨vs, hvs, hw⟩
        cases hw with
        | whole h => exact absurd hvs (by simp)
        | accepted h ht ha hw =>
            rw [List.map_cons, Solid.acceptedVisit_node] at hvs
            injection hvs with hn hns
            subst hn
            exact ⟨_, _, rfl, h, ⟨_, ht, ha⟩, ih.mp ⟨_, hns, hw⟩⟩
      · rintro ⟨token, rest, rfl, hlead, ⟨t, ht, ha⟩, hwhole⟩
        obtain ⟨vs, hvs, hw⟩ := ih.mpr hwhole
        refine ⟨t.acceptedVisit c n token :: vs, ?_, .accepted hlead ht ha hw⟩
        rw [List.map_cons, Solid.acceptedVisit_node, hvs]

/-- **A walk that cannot be invoked is one in the sense of `PartialWalk`.** -/
theorem exists_walks_false {i : Nat} {argv : List String} {ns : List Nat} :
    (∃ vs, vs.map Visit.node = ns ∧ g.Walks c i argv vs false) ↔ g.PartialWalk c i argv ns := by
  induction ns generalizing i argv with
  | nil =>
      constructor
      · rintro ⟨vs, hvs, hw⟩
        cases List.map_eq_nil_iff.mp hvs
        cases hw
      · intro h
        exact absurd h not_partialWalk_nil
  | cons n ns ih =>
      rw [partialWalk_cons]
      constructor
      · rintro ⟨vs, hvs, hw⟩
        cases hw with
        | pending h ht =>
            rw [List.map_cons, Solid.pendingVisit_node] at hvs
            injection hvs with hn hns
            subst hn
            exact ⟨h, Or.inl ⟨hns.symm, _, ht, .pending⟩⟩
        | stopped h ht hs =>
            rw [List.map_cons, Solid.stoppedVisit_node] at hvs
            injection hvs with hn hns
            subst hn
            exact ⟨h, Or.inl ⟨hns.symm, _, ht, .stopped hs⟩⟩
        | accepted h ht ha hw =>
            rw [List.map_cons, Solid.acceptedVisit_node] at hvs
            injection hvs with hn hns
            subst hn
            exact ⟨h, Or.inr ⟨_, _, rfl, ⟨_, ht, ha⟩, ih.mp ⟨_, hns, hw⟩⟩⟩
      · rintro ⟨hlead, ⟨rfl, t, ht, hwaits⟩ | ⟨token, rest, rfl, ⟨t, ht, ha⟩, hpartial⟩⟩
        · cases hwaits with
          | pending => exact ⟨_, by simp, .pending hlead ht⟩
          | stopped hs => exact ⟨_, by simp, .stopped hlead ht hs⟩
        · obtain ⟨vs, hvs, hw⟩ := ih.mpr hpartial
          refine ⟨t.acceptedVisit c n token :: vs, ?_, .accepted hlead ht ha hw⟩
          rw [List.map_cons, Solid.acceptedVisit_node, hvs]

/-- The texts on a walk are the tokens in front, and an empty one for a segment that waits after the
last token. -/
theorem Walks.raws {rest : List String} {vs : List Visit} {b : Bool} (h : g.Walks c i rest vs b) :
    vs.map Visit.raw = (rest ++ [""]).take vs.length := by
  induction h with
  | whole h => rfl
  | pending h ht => simp
  | stopped h ht hs => simp
  | accepted h ht ha _ ih => simp [ih]

/-- The texts on a whole walk are the tokens of the line. -/
theorem Walks.raws_of_whole {rest : List String} {vs : List Visit} (h : g.Walks c i rest vs true) :
    vs.map Visit.raw = rest := by
  generalize hwhole : true = b at h
  induction h with
  | whole h => rfl
  | pending h ht => cases hwhole
  | stopped h ht hs => cases hwhole
  | accepted h ht ha _ ih => simp [ih hwhole]

/-- A walk passes solid nodes only. -/
theorem Walks.solid {rest : List String} {vs : List Visit} {b : Bool}
    (h : g.Walks c i rest vs b) : ∀ v ∈ vs, ∃ t, g.solid? v.node = some t := by
  induction h with
  | whole h => exact fun v hv => absurd hv (by simp)
  | pending h ht =>
      intro v hv
      rw [List.mem_singleton.mp hv]
      exact ⟨_, by simpa using ht⟩
  | stopped h ht hs =>
      intro v hv
      rw [List.mem_singleton.mp hv]
      exact ⟨_, by simpa using ht⟩
  | accepted h ht ha _ ih =>
      intro v hv
      rcases List.mem_cons.mp hv with hv | hv
      · rw [hv]
        exact ⟨_, by simpa using ht⟩
      · exact ih v hv

/-- **The nodes of a walk decide everything about it**: what its visits keep, and how it ends. -/
theorem Walks.eq_of_nodes {rest : List String} {vs vs' : List Visit} {b b' : Bool}
    (h : g.Walks c i rest vs b) (h' : g.Walks c i rest vs' b')
    (hnodes : vs'.map Visit.node = vs.map Visit.node) : vs' = vs ∧ b' = b := by
  -- A segment is the one at its node, and it does not both take a token and stop there.
  induction h generalizing vs' b' with
  | whole h =>
      cases List.map_eq_nil_iff.mp hnodes
      cases h'
      exact ⟨rfl, rfl⟩
  | @pending i n t h ht =>
      cases h' with
      | whole => exact absurd hnodes (by simp)
      | @pending _ n' t' h' ht' =>
          have hn : n' = n := by simpa using hnodes
          subst hn
          cases ht.symm.trans ht'
          exact ⟨rfl, rfl⟩
  | @stopped i n t token rest h ht hs =>
      cases h' with
      | @stopped _ n' t' _ _ h' ht' hs' =>
          have hn : n' = n := by simpa using hnodes
          subst hn
          cases ht.symm.trans ht'
          exact ⟨rfl, rfl⟩
      | @accepted _ n' t' _ _ ws _ h' ht' ha' hw' =>
          have hn : n' = n ∧ ws = [] := by simpa using hnodes
          rw [hn.1] at ht'
          cases ht.symm.trans ht'
          rw [Solid.accepts_eq_false_of_stops c hs] at ha'
          exact absurd ha' (by simp)
  | @accepted i n t token rest vs b h ht ha hw ih =>
      cases h' with
      | @stopped _ n' t' _ _ h' ht' hs' =>
          have hn : n' = n ∧ vs = [] := by simpa using hnodes
          rw [hn.1] at ht'
          cases ht.symm.trans ht'
          rw [Solid.accepts_eq_false_of_stops c hs'] at ha
          exact absurd ha (by simp)
      | @accepted _ n' t' _ _ ws _ h' ht' ha' hw' =>
          have hn : n' = n ∧ ws.map Visit.node = vs.map Visit.node := by simpa using hnodes
          obtain ⟨rfl, hrest⟩ := hn
          cases ht.symm.trans ht'
          obtain ⟨rfl, rfl⟩ := ih hw' hrest
          exact ⟨rfl, rfl⟩

end Graph

/-! ## Each match once -/

namespace Match

/-- The nodes on the way. -/
def nodes (m : Match) : List Nat := m.path.map Visit.node

/-- The tokens on the way, as the visits keep them. -/
def raws (m : Match) : List String := m.path.map Visit.raw

theorem ext {m m' : Match} (h : m.Definite) (h' : m'.Definite) (hpath : m.path = m'.path)
    (hb : m.isInvokable = m'.isInvokable) : m = m' := by
  rw [h.eq_ofWalk, h'.eq_ofWalk, hpath, hb]

/-- What leaving out repetitions preserves: the matches kept have different keys, and every match
looked at has the key of one that was kept. -/
theorem distinctFrom_spec {seen : Std.HashSet (List (Nat × String) × Bool × Bool)}
    {kept ms : List Match}
    (hseen : ∀ k, k ∈ seen ↔ ∃ m ∈ kept, m.key = k) (hkept : (kept.map key).Nodup) :
    ((distinctFrom seen kept ms).map key).Nodup ∧
    (∀ m ∈ distinctFrom seen kept ms, m ∈ kept ∨ m ∈ ms) ∧
    ∀ m, m ∈ kept ∨ m ∈ ms → ∃ n ∈ distinctFrom seen kept ms, n.key = m.key := by
  -- On the matches left; the keys seen are those of the matches kept.
  induction ms generalizing seen kept with
  | nil =>
      unfold distinctFrom
      rw [List.map_reverse, List.nodup_reverse]
      refine ⟨hkept, ?_, ?_⟩
      · intro m hm
        exact Or.inl (List.mem_reverse.mp hm)
      · rintro m (hm | hm)
        · exact ⟨m, List.mem_reverse.mpr hm, rfl⟩
        · exact absurd hm (by simp)
  | cons m ms ih =>
      unfold distinctFrom
      by_cases h : seen.contains m.key = true
      · rw [if_pos h]
        obtain ⟨hnodup, hfrom, hall⟩ := ih hseen hkept
        refine ⟨hnodup, fun n hn => (hfrom n hn).imp_right (List.mem_cons_of_mem m), ?_⟩
        rintro n (hn | hn)
        · exact hall n (Or.inl hn)
        · rcases List.mem_cons.mp hn with rfl | hn
          · obtain ⟨n', hn', hkey⟩ := (hseen _).mp (Std.HashSet.mem_iff_contains.mpr h)
            rw [← hkey]
            exact hall n' (Or.inl hn')
          · exact hall n (Or.inr hn)
      · rw [if_neg h]
        have hnew : ¬ ∃ n ∈ kept, n.key = m.key := by
          rw [← hseen, Std.HashSet.mem_iff_contains]
          exact h
        have hseen' : ∀ k, k ∈ seen.insert m.key ↔ ∃ n ∈ m :: kept, n.key = k := by
          intro k
          rw [Std.HashSet.mem_insert, hseen]
          simp
        have hkept' : ((m :: kept).map key).Nodup := by
          rw [List.map_cons, List.nodup_cons, List.mem_map]
          exact ⟨hnew, hkept⟩
        obtain ⟨hnodup, hfrom, hall⟩ := ih hseen' hkept'
        refine ⟨hnodup, ?_, ?_⟩
        · intro n hn
          rcases hfrom n hn with hn | hn
          · rcases List.mem_cons.mp hn with rfl | hn
            · exact Or.inr (by simp)
            · exact Or.inl hn
          · exact Or.inr (List.mem_cons_of_mem m hn)
        · rintro n (hn | hn)
          · exact hall n (Or.inl (List.mem_cons_of_mem m hn))
          · rcases List.mem_cons.mp hn with rfl | hn
            · exact hall n (Or.inl (by simp))
            · exact hall n (Or.inr hn)

theorem distinct_spec (ms : List Match) :
    ((distinct ms).map key).Nodup ∧ (∀ m ∈ distinct ms, m ∈ ms) ∧
      ∀ m ∈ ms, ∃ n ∈ distinct ms, n.key = m.key := by
  obtain ⟨hnodup, hfrom, hall⟩ := @distinctFrom_spec ∅ [] ms (by simp) .nil
  refine ⟨hnodup, fun m hm => ?_, fun m hm => hall m (Or.inr hm)⟩
  rcases hfrom m hm with h | h
  · exact absurd h (by simp)
  · exact h

end Match

/-! ## The matches of a line -/

/-- **Every match is either partial or invokable**, in whatever graph it is found. -/
theorem Session.definite_of_mem_matches {s : Session} {argv : List String} {m : Match}
    (h : m ∈ (s.matches g argv).1) : m.Definite := by
  have hstart : (Walk.start s g argv).Definite := fun m hm => absurd hm (by simp [Walk.start])
  have hfound := (Match.distinct_spec _).2.1 m h
  exact hstart.run _ m (List.mem_reverse.mp hfound)

section Session

variable (hr : g.Ranked rank) (hu : g.UniqueIds) (hg : g.Framed) (s : Session)
  {argv : List String}

include hr hu hg

theorem Session.walks_of_mem_matches {m : Match} (h : m ∈ (s.matches g argv).1) :
    g.Walks s.answers g.entry argv m.path m.isInvokable := by
  rw [s.matches_eq hr hu argv] at h
  exact walks_of_mem_explore hg ((Match.distinct_spec _).2.1 m h)

/-- Every walk is among the matches, up to what is kept beside nodes and tokens. -/
theorem Session.exists_mem_matches {vs : List Visit} {b : Bool}
    (h : g.Walks s.answers g.entry argv vs b) :
    ∃ m ∈ (s.matches g argv).1, m.isPartial = !b ∧ m.isInvokable = b ∧
      m.nodes = vs.map Visit.node := by
  rw [s.matches_eq hr hu argv]
  obtain ⟨n, hn, hkey⟩ := (Match.distinct_spec _).2.2 _ (mem_explore_of_walks hr hg h)
  unfold Match.key at hkey
  injection hkey with hpath hflags
  injection hflags with hpartial hinvokable
  refine ⟨n, hn, hpartial, hinvokable, ?_⟩
  have hnodes := congrArg (List.map Prod.fst) hpath
  rw [List.map_map, List.map_map] at hnodes
  exact hnodes

/-- **The matches are the walks**, with all that their visits keep. -/
theorem Session.mem_matches_iff {vs : List Visit} {b : Bool} :
    Match.ofWalk vs b ∈ (s.matches g argv).1 ↔ g.Walks s.answers g.entry argv vs b := by
  constructor
  · exact s.walks_of_mem_matches hr hu hg
  · intro hw
    obtain ⟨m, hm, -, hb, hnodes⟩ := s.exists_mem_matches hr hu hg hw
    obtain ⟨hpath, -⟩ := hw.eq_of_nodes (s.walks_of_mem_matches hr hu hg hm) hnodes
    rwa [(definite_of_mem_matches hm).eq_ofWalk, hpath, hb] at hm

/-- **The invokable matches are the whole walks.** -/
theorem Session.invokable_iff (ns : List Nat) :
    (∃ m ∈ (s.matches g argv).1, m.isInvokable = true ∧ m.nodes = ns) ↔
      g.WholeWalk s.answers g.entry argv ns := by
  rw [← Graph.exists_walks_true]
  constructor
  · rintro ⟨m, hm, hb, hns⟩
    have hw := s.walks_of_mem_matches hr hu hg hm
    rw [hb] at hw
    exact ⟨m.path, hns, hw⟩
  · rintro ⟨vs, rfl, hw⟩
    obtain ⟨m, hm, -, hb, hns⟩ := s.exists_mem_matches hr hu hg hw
    exact ⟨m, hm, hb, hns⟩

/-- **The partial matches are the partial walks.** -/
theorem Session.partial_iff (ns : List Nat) :
    (∃ m ∈ (s.matches g argv).1, m.isPartial = true ∧ m.nodes = ns) ↔
      g.PartialWalk s.answers g.entry argv ns := by
  rw [← Graph.exists_walks_false]
  constructor
  · rintro ⟨m, hm, hb, hns⟩
    have hw := s.walks_of_mem_matches hr hu hg hm
    rw [(definite_of_mem_matches hm).isPartial_iff] at hb
    rw [hb] at hw
    exact ⟨m.path, hns, hw⟩
  · rintro ⟨vs, rfl, hw⟩
    obtain ⟨m, hm, hb, -, hns⟩ := s.exists_mem_matches hr hu hg hw
    exact ⟨m, hm, hb, hns⟩

/-- **No walk is found twice.** For a fixed line the nodes of a match decide its tokens and how it
ends, so different matches have different nodes. -/
theorem Session.nodup_nodes : ((s.matches g argv).1.map Match.nodes).Nodup := by
  have hkeys : ((s.matches g argv).1.map Match.key).Nodup := by
    rw [s.matches_eq hr hu argv]
    exact (Match.distinct_spec _).1
  refine List.Nodup.map_on ?_ (List.Nodup.of_map _ hkeys)
  intro m hm m' hm' hnodes
  have hw := s.walks_of_mem_matches hr hu hg hm
  have hw' := s.walks_of_mem_matches hr hu hg hm'
  obtain ⟨hpath, hb⟩ := hw'.eq_of_nodes hw hnodes
  exact Match.ext (definite_of_mem_matches hm) (definite_of_mem_matches hm') hpath hb

end Session
end

/-- **The matches of a line are the walks of the compiled graph**, each exactly once, whatever the
scheme, the session and the line: the invokable ones are the whole walks, the partial ones are the
partial walks. Every match is one or the other, it keeps the tokens that its walk takes (an empty
text for a segment that waits after the last token), and it visits no marker. -/
theorem matches_eq_walks (nextScope : Nat) (scheme : Scheme SegmentId) (s : Session)
    (argv : List String) :
    let g := (Graph.compile nextScope scheme).1
    let found := (s.matches g argv).1
    (found.map Match.nodes).Nodup ∧
    (∀ ns, (∃ m ∈ found, m.isInvokable = true ∧ m.nodes = ns) ↔
      g.WholeWalk s.answers g.entry argv ns) ∧
    (∀ ns, (∃ m ∈ found, m.isPartial = true ∧ m.nodes = ns) ↔
      g.PartialWalk s.answers g.entry argv ns) ∧
    ∀ m ∈ found, (m.isPartial = true ↔ ¬ m.isInvokable = true) ∧
      m.raws = (argv ++ [""]).take m.path.length ∧
      ∀ n ∈ m.nodes, ¬ g.IsMarker n := by
  intro g found
  obtain ⟨rank, hr⟩ := Graph.compile_ranked nextScope scheme
  have hu := Graph.compile_uniqueIds nextScope scheme
  have hg := Graph.compile_framed nextScope scheme
  refine ⟨s.nodup_nodes hr hu hg, s.invokable_iff hr hu hg, s.partial_iff hr hu hg, ?_⟩
  intro m hm
  have hw := s.walks_of_mem_matches hr hu hg hm
  refine ⟨?_, hw.raws, ?_⟩
  · rw [Bool.not_eq_true]
    exact (Session.definite_of_mem_matches hm).isPartial_iff
  · intro n hn hmarker
    obtain ⟨v, hv, rfl⟩ := List.mem_map.mp hn
    obtain ⟨t, ht⟩ := hw.solid v hv
    exact absurd ht (hmarker.solid?_ne_some _)

end CommandGrammar
