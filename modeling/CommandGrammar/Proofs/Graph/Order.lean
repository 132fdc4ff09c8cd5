import CommandGrammar.Proofs.Graph.Growth
import Mathlib.Data.List.Basic
import Mathlib.Logic.Relation

/-!
# `Proofs.Graph.Order` — the markers of a compiled graph in reading order

Places in the arena do not grow along links: the exit of a scope is added right behind its entry and
stands before everything in between. What every link between markers does respect is the order in
which a reader of the scheme passes them. It is kept here as a list of markers: the exit of a scope
is put into it when the scope is closed.

Hence no cycle consists of markers only, however often segments are used again.

## Contents
- `Builder.Sorted`: an arena whose links between markers follow a list.
- `Scope.Sorted`, `Scheme.Sortable`: what one step of the compilation preserves.
- `Graph.Ranked`: a rank that falls along every link out of a marker, and its bound.
- `Graph.compile_ranked`; `Graph.compile_kind?_entry`, `Graph.compile_kind?_exit`,
  `Graph.compile_successors_exit`.
-/

namespace CommandGrammar

/-! ## Positions in a list -/

theorem idxOf_lt_of_mem_of_notMem {order : List Nat} {i x : Nat} (hi : i ∈ order)
    (hx : x ∉ order) : order.idxOf i < order.idxOf x := by
  rw [List.idxOf_eq_length hx]
  exact List.idxOf_lt_length_iff.mpr hi

theorem mem_of_idxOf_lt {order : List Nat} {i j : Nat} (h : order.idxOf i < order.idxOf j) :
    i ∈ order :=
  List.idxOf_lt_length_iff.mp (Nat.lt_of_lt_of_le h List.idxOf_le_length)

/-- Positions keep their order when the list goes on. -/
theorem idxOf_lt_append {order : List Nat} {i j : Nat} (more : List Nat)
    (h : order.idxOf i < order.idxOf j) : (order ++ more).idxOf i < (order ++ more).idxOf j := by
  have hi := mem_of_idxOf_lt h
  rw [List.idxOf_append_of_mem hi]
  by_cases hj : j ∈ order
  · rwa [List.idxOf_append_of_mem hj]
  · rw [List.idxOf_append_of_notMem hj]
    have hlt := List.idxOf_lt_length_iff.mpr hi
    omega

/-! ## Sorted arenas -/

namespace Builder

/-- The list holds markers, none twice, and every link out of a marker leads further down the list
or out of it. -/
structure Sorted (b : Builder) (order : List Nat) : Prop where
  nodup : order.Nodup
  marker : ∀ i ∈ order, b.view.IsMarker i
  link : ∀ i, b.view.IsMarker i → ∀ j ∈ b.view.successors i,
    j < b.size ∧ order.idxOf i < order.idxOf j

namespace Sorted

variable {b : Builder} {order : List Nat}

theorem lt_size (h : b.Sorted order) {i : Nat} (hi : i ∈ order) : i < b.size := by
  obtain ⟨scope, isEntry, hk⟩ := h.marker i hi
  exact Graph.lt_size_of_kind? hk

theorem notMem_of_size_le (h : b.Sorted order) {i : Nat} (hi : b.size ≤ i) : i ∉ order :=
  fun hmem => absurd (h.lt_size hmem) (Nat.not_lt.mpr hi)

theorem notMem_append (h : b.Sorted order) {more : List Nat} {i : Nat} (hi : b.size ≤ i)
    (hmore : i ∉ more) : i ∉ order ++ more := by
  rw [List.mem_append, not_or]
  exact ⟨h.notMem_of_size_le hi, hmore⟩

theorem notMem_of_solid (h : b.Sorted order) {i : Nat} {t : Solid}
    (ht : b.view.solid? i = some t) : i ∉ order := by
  intro hmem
  exact absurd ht ((h.marker i hmem).solid?_ne_some _)

/-- A marker outside the list has no successors yet. -/
theorem successors_of_notMem (h : b.Sorted order) {i : Nat} (hm : b.view.IsMarker i)
    (hi : i ∉ order) : b.view.successors i = [] := by
  rw [List.eq_nil_iff_forall_not_mem]
  intro j hj
  exact hi (mem_of_idxOf_lt (h.link i hm j hj).2)

theorem append (h : b.Sorted order) {x : Nat} (hm : b.view.IsMarker x) (hx : x ∉ order) :
    b.Sorted (order ++ [x]) where
  nodup := by
    rw [List.nodup_append]
    refine ⟨h.nodup, by simp, ?_⟩
    intro i hi y hy
    rw [List.mem_singleton.mp hy]
    exact fun he => hx (he ▸ hi)
  marker := by
    intro i hi
    rcases List.mem_append.mp hi with hi | hi
    · exact h.marker i hi
    · rw [List.mem_singleton.mp hi]
      exact hm
  link := by
    intro i hi j hj
    exact ⟨(h.link i hi j hj).1, idxOf_lt_append [x] (h.link i hi j hj).2⟩

theorem addLink (h : b.Sorted order) (source : Nat) {target : Nat} (htarget : target < b.size)
    (hlt : b.view.IsMarker source → order.idxOf source < order.idxOf target) :
    (b.link source target).Sorted order where
  nodup := h.nodup
  marker := fun i hi => (isMarker_link b source target i).mpr (h.marker i hi)
  link := by
    intro i hi j hj
    rw [isMarker_link] at hi
    rw [size_link]
    by_cases hs : i = source
    · subst hs
      obtain ⟨scope, isEntry, hk⟩ := id hi
      rw [successors_link_self (Graph.lt_size_of_kind? hk)] at hj
      rcases mem_addTarget.mp hj with hj | hj
      · exact h.link i hi j hj
      · rw [hj]
        exact ⟨htarget, hlt hi⟩
    · rw [successors_link_of_ne hs] at hj
      exact h.link i hi j hj

theorem addLinks (h : b.Sorted order) {source : Nat} {targets : List Nat}
    (htargets : ∀ t ∈ targets, t < b.size ∧ order.idxOf source < order.idxOf t) :
    (b.linkAll source targets).Sorted order := by
  induction targets generalizing b with
  | nil => exact h
  | cons t ts ih =>
      have ht := htargets t (by simp)
      refine ih (h.addLink source ht.1 fun _ => ht.2) ?_
      intro u hu
      rw [size_link]
      exact htargets u (List.mem_cons_of_mem t hu)

theorem push (h : b.Sorted order) (kind : NodeKind) : (b.push kind).2.Sorted order where
  nodup := h.nodup
  marker := by
    intro i hi
    obtain ⟨scope, isEntry, hk⟩ := h.marker i hi
    have hlt := Graph.lt_size_of_kind? hk
    rw [size_view] at hlt
    refine ⟨scope, isEntry, ?_⟩
    rw [kind?_push, if_neg (by omega), hk]
  link := by
    intro i hi j hj
    rw [successors_push] at hj
    rw [size_push]
    have hlt : i < b.size := by
      apply Nat.lt_of_not_le
      intro hle
      rw [Graph.successors_of_size_le hle] at hj
      exact absurd hj (by simp)
    obtain ⟨scope, isEntry, hk⟩ := hi
    rw [kind?_push, if_neg (by omega)] at hk
    have hold := h.link i ⟨scope, isEntry, hk⟩ j hj
    exact ⟨by omega, hold.2⟩

theorem marked (h : b.Sorted order) : b.marked.Sorted order := by
  have hscope : ({ b with nextScope := b.nextScope + 1 } : Builder).Sorted order :=
    ⟨h.nodup, h.marker, h.link⟩
  rw [marked_eq]
  exact (hscope.push _).push _

theorem solid (h : b.Sorted order) (t : Solid) : (b.solid t.kind).2.Sorted order := by
  rcases b.solid_cases t with ⟨i, t', -, -, heq⟩ | ⟨-, heq⟩ <;> rw [heq]
  · exact h
  · exact h.push t.kind

end Sorted
end Builder

/-! ## One step of the compilation -/

namespace Scope

/-- A scope under construction whose arena is sorted: the place to go on from and the pending groups
are in the list, and each group leaves before the later ones begin. -/
structure Sorted (s : Scope) (order : List Nat) : Prop where
  inArena : s.InArena
  arena : s.builder.Sorted order
  current : s.builder.view.IsMarker s.current → s.current ∈ order
  pending : ∀ p ∈ s.pending, p.1 ∈ order ∧ p.2 ∈ order
  chain : s.pending.Pairwise fun p q => order.idxOf p.2 < order.idxOf q.1

variable {s : Scope} {order : List Nat}

theorem sorted_linkPending {b : Builder} {pending : List (Nat × Nat)} {node : Nat}
    (hb : b.Sorted order) (hpending : ∀ p ∈ pending, p.1 ∈ order ∧ p.2 ∈ order)
    (hchain : pending.Pairwise fun p q => order.idxOf p.2 < order.idxOf q.1)
    (hnode : node < b.size) (hafter : ∀ p ∈ pending, order.idxOf p.2 < order.idxOf node) :
    (linkPending node pending b).Sorted order := by
  -- On the pending groups: the first one's exit is linked to what the list has behind it only.
  induction pending generalizing b with
  | nil => exact hb
  | cons p later ih =>
      rw [List.pairwise_cons] at hchain
      have htargets : ∀ t ∈ later.map (·.1) ++ [node],
          t < b.size ∧ order.idxOf p.2 < order.idxOf t := by
        intro t ht
        rcases List.mem_append.mp ht with h | h
        · obtain ⟨q, hq, rfl⟩ := List.mem_map.mp h
          exact ⟨hb.lt_size (hpending q (List.mem_cons_of_mem p hq)).1, hchain.1 q hq⟩
        · rw [List.mem_singleton.mp h]
          exact ⟨hnode, hafter p (by simp)⟩
      refine ih (hb.addLinks htargets) ?_ hchain.2 ?_ ?_
      · exact fun q hq => hpending q (List.mem_cons_of_mem p hq)
      · rwa [Builder.size_linkAll]
      · exact fun q hq => hafter q (List.mem_cons_of_mem p hq)

/-- Settling at a node outside the list, a solid node or the marker that comes next. -/
theorem Sorted.settle (h : s.Sorted order) {node : Nat} (hnode : node < s.builder.size)
    (hout : node ∉ order) : (s.settle node).builder.Sorted order :=
  sorted_linkPending h.arena h.pending h.chain hnode
    fun p hp => idxOf_lt_of_mem_of_notMem (h.pending p hp).2 hout

theorem Sorted.close (h : s.Sorted order) {exit : Nat} (hexit : exit < s.builder.size)
    (hout : exit ∉ order) : (s.close exit).Sorted order := by
  refine (h.settle hexit hout).addLink s.current ?_ ?_
  · show exit < (linkPending exit s.pending s.builder).size
    rwa [size_linkPending]
  · intro hm
    have hm' : s.builder.view.IsMarker s.current := by
      obtain ⟨scope, isEntry, hk⟩ := hm
      refine ⟨scope, isEntry, ?_⟩
      rw [← hk]
      exact (kind?_linkPending exit s.pending s.builder _).symm
    exact idxOf_lt_of_mem_of_notMem (h.current hm') hout

/-- The same scope over a larger arena, sorted by a list that goes on. -/
theorem Sorted.grow (h : s.Sorted order) {l : List SegmentId} {b : Builder} {more : List Nat}
    (hgrow : s.builder.Grows l b) (hb : b.Sorted (order ++ more)) :
    ({ s with builder := b } : Scope).Sorted (order ++ more) where
  inArena := h.inArena.grow hgrow
  arena := hb
  current := by
    intro hm
    obtain ⟨scope, isEntry, hk⟩ := hm
    rw [hgrow.kind _ h.inArena.current] at hk
    exact List.mem_append_left more (h.current ⟨scope, isEntry, hk⟩)
  pending := fun p hp =>
    ⟨List.mem_append_left more (h.pending p hp).1, List.mem_append_left more (h.pending p hp).2⟩
  chain := h.chain.imp fun hpq => idxOf_lt_append more hpq

/-- The same scope over a larger arena that is sorted by the same list. -/
theorem Sorted.growSame (h : s.Sorted order) {l : List SegmentId} {b : Builder}
    (hgrow : s.builder.Grows l b) (hb : b.Sorted order) :
    ({ s with builder := b } : Scope).Sorted order := by
  have hb' : b.Sorted (order ++ []) := by rwa [List.append_nil]
  have hgrown := h.grow hgrow hb'
  rwa [List.append_nil] at hgrown

/-- Linking the place to go on from to a node outside the list. -/
theorem Sorted.link (h : s.Sorted order) {node : Nat} (hnode : node < s.builder.size)
    (hout : node ∉ order) :
    ({ s with builder := s.builder.link s.current node } : Scope).Sorted order :=
  h.growSame (l := []) (.link _ hnode)
    (h.arena.addLink s.current hnode fun hm => idxOf_lt_of_mem_of_notMem (h.current hm) hout)

theorem Sorted.anchor (h : s.Sorted order) {node : Nat} (hnode : node < s.builder.size)
    (hout : node ∉ order) : (s.anchor node).builder.Sorted order := by
  refine (h.link hnode hout).settle ?_ hout
  rwa [Builder.size_link]

theorem Sorted.pass (h : s.Sorted order) (t : Solid) : (s.pass t).Sorted order := by
  obtain ⟨t', ht', -⟩ := s.builder.solid_node t
  obtain ⟨u, hu, -⟩ := s.pass_node t
  have hlt := s.builder.solid_lt t
  have hb := h.arena.solid t
  have hlinked := (h.growSame (s.builder.solid_grows t) hb).link hlt (hb.notMem_of_solid ht')
  refine ⟨(Scope.pass_grows h.inArena t).2, ?_, ?_, h.pending, h.chain⟩
  · show ((s.builder.solid t.kind).2.enter s.current _ t.repeats).Sorted order
    unfold Builder.enter
    cases t.repeats with
    | false => exact hlinked.arena
    | true =>
        refine hlinked.arena.addLink _ (by rwa [Builder.size_link]) ?_
        intro hm
        rw [Builder.isMarker_link] at hm
        exact absurd ht' (hm.solid?_ne_some _)
  · intro hm
    exact absurd hu (hm.solid?_ne_some _)

theorem Sorted.solid (h : s.Sorted order) (t : Solid) :
    (s.solid t.kind t.repeats).Sorted order := by
  obtain ⟨u, hu, -⟩ := s.pass_node t
  have hpass := h.pass t
  have hsettle := hpass.settle hpass.inArena.current (hpass.arena.notMem_of_solid hu)
  have hgrown := hpass.growSame (settle_grows (l := []) hpass.inArena hpass.inArena.current) hsettle
  refine ⟨(solid_grows h.inArena t).2, hsettle, hgrown.current, ?_, .nil⟩
  exact fun p hp => absurd hp (by simp [Scope.solid_eq, Scope.settle])

end Scope

/-! ## The whole compilation -/

/-- Every compilation of the scheme keeps the arena sorted; it puts only new markers into the
list. -/
def Scheme.Sortable (scheme : Scheme SegmentId) : Prop :=
  ∀ (s : Scope) (order : List Nat), s.Sorted order →
    ∃ more, (∀ i ∈ more, s.builder.size ≤ i) ∧ (Scheme.compile s scheme).Sorted (order ++ more)

/-- The same for one segment. -/
def Segment.Sortable (x : Segment SegmentId) : Prop :=
  ∀ (s : Scope) (order : List Nat), s.Sorted order →
    ∃ more, (∀ i ∈ more, s.builder.size ≤ i) ∧ (x.compile s).Sorted (order ++ more)

namespace Scheme.Sortable

variable {order : List Nat}

theorem cons {x : Segment SegmentId} {rest : Scheme SegmentId} (hx : x.Sortable)
    (hrest : Scheme.Sortable rest) : Scheme.Sortable (x :: rest) := by
  intro s order hs
  obtain ⟨more, hmore, hs'⟩ := hx s order hs
  obtain ⟨more', hmore', hs''⟩ := hrest _ _ hs'
  have hgrow := (x.compile_grows s hs.inArena).1
  rw [Scheme.compile_cons]
  refine ⟨more ++ more', ?_, by rwa [← List.append_assoc]⟩
  intro i hi
  rcases List.mem_append.mp hi with hi | hi
  · exact hmore i hi
  · exact Nat.le_trans hgrow.size_le (hmore' i hi)

/-- A closed scope: its exit is not in the list yet, so nothing follows it. -/
theorem enclose {inner : Scheme SegmentId} (h : Scheme.Sortable inner) {b : Builder}
    (hb : b.Sorted order) :
    ∃ more, (∀ i ∈ more, b.size + 2 ≤ i) ∧
      (b.enclose inner).Sorted (order ++ b.size :: more) := by
  have hentry : b.size ∉ order := hb.notMem_of_size_le (Nat.le_refl _)
  have hstart : (⟨b.marked, b.size, []⟩ : Scope).Sorted (order ++ [b.size]) :=
    { inArena := Scope.inArena_enclosed b
      arena := hb.marked.append b.isMarker_marked_entry hentry
      current := fun _ => by simp
      pending := fun p hp => absurd hp (by simp)
      chain := .nil }
  obtain ⟨more, hmore, hs⟩ := h _ _ hstart
  -- The exit is not in the list while the scope is open, so it may follow everything in it.
  have hsize := ((Scheme.compile_grows inner) _ hstart.inArena).1.size_le
  rw [show (⟨b.marked, b.size, []⟩ : Scope).builder.size = b.size + 2 from b.size_marked]
    at hmore hsize
  have hassoc : order ++ b.size :: more = (order ++ [b.size]) ++ more := by simp
  rw [← hassoc] at hs
  refine ⟨more, hmore, hs.close (Nat.lt_of_lt_of_le (by omega) hsize) ?_⟩
  refine hb.notMem_append (Nat.le_succ _) ?_
  intro hmem
  rcases List.mem_cons.mp hmem with heq | hmem
  · omega
  · have hle := hmore _ hmem
    omega

/-- A closed scope with its exit in the list: something may follow it. -/
theorem enclose_exit {inner : Scheme SegmentId} (h : Scheme.Sortable inner) {b : Builder}
    (hb : b.Sorted order) :
    ∃ more, (∀ i ∈ more, b.size ≤ i) ∧ b.size ∈ more ∧ b.size + 1 ∈ more ∧
      (b.enclose inner).Sorted (order ++ more) := by
  obtain ⟨more, hmore, hs⟩ := h.enclose hb
  have hexit : (b.enclose inner).view.IsMarker (b.size + 1) :=
    (b.enclose_grows inner).isMarker b.isMarker_marked_exit
  refine ⟨(b.size :: more) ++ [b.size + 1], ?_, by simp, by simp, ?_⟩
  · intro i hi
    simp only [List.mem_append, List.mem_cons, List.not_mem_nil, or_false] at hi
    rcases hi with (hi | hi) | hi
    · omega
    · have hle := hmore i hi
      omega
    · omega
  · rw [← List.append_assoc]
    refine hs.append hexit (hb.notMem_append (Nat.le_succ _) ?_)
    intro hmem
    rcases List.mem_cons.mp hmem with heq | hmem
    · omega
    · have hle := hmore _ hmem
      omega

theorem group {inner : Scheme SegmentId} (h : Scheme.Sortable inner) {s : Scope}
    (hs : s.Sorted order) :
    ∃ more, (∀ i ∈ more, s.builder.size ≤ i) ∧ (s.group inner).Sorted (order ++ more) := by
  obtain ⟨more, hmore, hentry, hexit, hb⟩ := h.enclose_exit hs.arena
  have henclose : s.builder.Grows (Scheme.ids inner) (s.builder.enclose inner) :=
    Builder.Grows.marked.trans (s.builder.enclose_grows inner)
  have hgrown := hs.grow henclose hb
  have hnew : s.builder.size ∉ order := hs.arena.notMem_of_size_le (Nat.le_refl _)
  have hin := (Scheme.Grows.group hs.inArena (Scheme.compile_grows inner)).2
  refine ⟨more, hmore, hin, ?_, ?_, ?_, ?_⟩
  · refine hb.addLink s.current (hb.lt_size (List.mem_append_right _ hentry)) ?_
    intro hm
    obtain ⟨scope, isEntry, hk⟩ := hm
    rw [henclose.kind _ hs.inArena.current] at hk
    exact idxOf_lt_append more (idxOf_lt_of_mem_of_notMem (hs.current ⟨scope, isEntry, hk⟩) hnew)
  · intro hm
    exact hgrown.current ((Builder.isMarker_link _ _ _ _).mp hm)
  · intro p hp
    rcases List.mem_append.mp hp with hp | hp
    · exact hgrown.pending p hp
    · rw [List.mem_singleton.mp hp]
      exact ⟨List.mem_append_right _ hentry, List.mem_append_right _ hexit⟩
  · show (s.pending ++ [_]).Pairwise _
    rw [List.pairwise_append]
    refine ⟨hgrown.chain, List.pairwise_singleton _ _, ?_⟩
    intro p hp q hq
    rw [List.mem_singleton.mp hq]
    exact idxOf_lt_append more (idxOf_lt_of_mem_of_notMem (hs.pending p hp).2 hnew)

/-- Branches between a union's markers; the union's exit is not in the list yet. -/
theorem branches {branches : List (Scheme SegmentId)}
    (h : ∀ branch ∈ branches, Scheme.Sortable branch) {b : Builder} {entry exit : Nat}
    (hb : b.Sorted order) (hentry : entry ∈ order) (hexit : exit < b.size) (hout : exit ∉ order) :
    ∃ more, (∀ i ∈ more, b.size ≤ i) ∧
      (Scheme.compileBranches entry exit b branches).Sorted (order ++ more) := by
  induction branches generalizing b order with
  | nil => exact ⟨[], by simp, by simpa using hb⟩
  | cons branch rest ih =>
      obtain ⟨more, hmore, hstart, hend, hs⟩ := (h branch (by simp)).enclose_exit hb
      have hnew : b.size ∉ order := hb.notMem_of_size_le (Nat.le_refl _)
      -- The union's exit stays out of the list until the last branch leads to it.
      have hout' : exit ∉ order ++ more := by
        intro hmem
        rcases List.mem_append.mp hmem with hmem | hmem
        · exact hout hmem
        · have hle := hmore exit hmem
          omega
      have hgrow : b.Grows (Scheme.ids branch) (b.enclose branch) :=
        Builder.Grows.marked.trans (b.enclose_grows branch)
      have hlt : exit < (b.enclose branch).size := Nat.lt_of_lt_of_le hexit hgrow.size_le
      have hfirst := hs.addLink entry (hs.lt_size (List.mem_append_right _ hstart)) fun _ =>
        idxOf_lt_append more (idxOf_lt_of_mem_of_notMem hentry hnew)
      have hlinked := hfirst.addLink (b.size + 1) (by rwa [Builder.size_link]) fun _ =>
        idxOf_lt_of_mem_of_notMem (List.mem_append_right _ hend) hout'
      obtain ⟨more', hmore', hs'⟩ := ih (fun c hc => h c (List.mem_cons_of_mem branch hc)) hlinked
        (List.mem_append_left _ hentry) (by rwa [Builder.size_link, Builder.size_link]) hout'
      rw [Builder.size_link, Builder.size_link] at hmore'
      refine ⟨more ++ more', ?_, ?_⟩
      · intro i hi
        rcases List.mem_append.mp hi with hi | hi
        · exact hmore i hi
        · exact Nat.le_trans hgrow.size_le (hmore' i hi)
      · rw [Scheme.compileBranches_cons, ← List.append_assoc]
        exact hs'

theorem choice {branches : List (Scheme SegmentId)}
    (h : ∀ branch ∈ branches, Scheme.Sortable branch) {s : Scope} (hs : s.Sorted order) :
    ∃ more, (∀ i ∈ more, s.builder.size ≤ i) ∧ (s.choice branches).Sorted (order ++ more) := by
  have hnew : s.builder.size ∉ order := hs.arena.notMem_of_size_le (Nat.le_refl _)
  have hmarked := hs.growSame (l := []) .marked hs.arena.marked
  have hlt : s.builder.size < s.builder.marked.size := by
    rw [Builder.size_marked]
    omega
  have hanchor : s.choiceStart.Sorted order := hmarked.anchor hlt hnew
  have hgrow : s.builder.marked.Grows [] s.choiceStart := Scope.choiceStart_grows hs.inArena
  have hstart := hanchor.append (hgrow.isMarker s.builder.isMarker_marked_entry) hnew
  have hexit : s.builder.size + 1 < s.choiceStart.size := by
    rw [Scope.size_choiceStart]
    omega
  have hexitMarker := hgrow.isMarker s.builder.isMarker_marked_exit
  have hentry : s.builder.size ∈ order ++ [s.builder.size] := by simp
  have hout : s.builder.size + 1 ∉ order ++ [s.builder.size] :=
    hs.arena.notMem_append (Nat.le_succ _) (by simp)
  obtain ⟨more, hmore, hb⟩ := Scheme.Sortable.branches h hstart hentry hexit hout
  rw [Scope.size_choiceStart] at hmore
  have hbranches := Scheme.compileBranches_grows branches s.builder.size hexit
  have hout' : s.builder.size + 1 ∉ (order ++ [s.builder.size]) ++ more := by
    intro hmem
    rcases List.mem_append.mp hmem with hmem | hmem
    · exact hout hmem
    · have hle := hmore _ hmem
      omega
  -- Only now, with all branches linked to it, the union's exit is put into the list.
  have hdone := hb.append (hbranches.isMarker hexitMarker) hout'
  refine ⟨[s.builder.size] ++ more ++ [s.builder.size + 1], ?_, ?_⟩
  · intro i hi
    simp only [List.mem_append, List.mem_cons, List.not_mem_nil, or_false] at hi
    rcases hi with (hi | hi) | hi
    · omega
    · have hle := hmore i hi
      omega
    · omega
  · rw [← List.append_assoc, ← List.append_assoc]
    exact { inArena := (Scheme.Grows.choice hs.inArena fun c _ => Scheme.compile_grows c).2
            arena := hdone
            current := fun _ => by simp [Scope.choice]
            pending := fun p hp => absurd hp (by simp [Scope.choice])
            chain := .nil }

end Scheme.Sortable

theorem Scheme.compile_sortable (scheme : Scheme SegmentId) : Scheme.Sortable scheme := by
  induction scheme using Scheme.induct with
  | nil =>
      intro s order hs
      exact ⟨[], by simp, by simpa using hs⟩
  | solid t rest ih =>
      refine .cons (fun s order hs => ⟨[], by simp, ?_⟩) ih
      rw [Segment.compile_solid, List.append_nil]
      exact hs.solid t
  | optional inner rest ihinner ihrest =>
      refine .cons (fun s order hs => ?_) ihrest
      rw [Segment.compile_optional]
      exact ihinner.group hs
  | union branches rest ihbranches ihrest =>
      refine .cons (fun s order hs => ?_) ihrest
      rw [Segment.compile_union]
      exact Scheme.Sortable.choice ihbranches hs

/-! ## Compiled graphs -/

theorem Builder.sorted_empty (nextScope : Nat) : (⟨#[], nextScope⟩ : Builder).Sorted [] where
  nodup := .nil
  marker := fun i hi => absurd hi (by simp)
  link := by
    intro i _ j hj
    simp [Builder.view, Graph.successors] at hj

/-- The markers of a compiled graph in reading order, all but the exit of the whole scheme. -/
theorem Graph.compile_sorted (nextScope : Nat) (scheme : Scheme SegmentId) :
    ∃ more, (∀ i ∈ more, 2 ≤ i) ∧
      ((⟨#[], nextScope⟩ : Builder).enclose scheme).Sorted (0 :: more) := by
  obtain ⟨more, hmore, hs⟩ :=
    (Scheme.compile_sortable scheme).enclose (Builder.sorted_empty nextScope)
  exact ⟨more, hmore, hs⟩

/-- One link between markers. -/
def Graph.MarkerStep (g : Graph) (i j : Nat) : Prop :=
  g.IsMarker i ∧ g.IsMarker j ∧ j ∈ g.successors i

/-- A rank that falls along every link out of a marker; no rank exceeds the number of nodes. -/
structure Graph.Ranked (g : Graph) (rank : Nat → Nat) : Prop where
  falls : ∀ i, g.IsMarker i → ∀ j ∈ g.successors i, rank j < rank i
  le_size : ∀ i, rank i ≤ g.nodes.size

/-- **A ranked graph has no cycle of markers**: every cycle passes a solid node. -/
theorem Graph.Ranked.acyclic {g : Graph} {rank : Nat → Nat} (h : g.Ranked rank) (i : Nat) :
    ¬ Relation.TransGen g.MarkerStep i i := by
  have hfall : ∀ j, Relation.TransGen g.MarkerStep i j → rank j < rank i := by
    intro j hj
    induction hj with
    | single hstep => exact h.falls i hstep.1 _ hstep.2.2
    | tail _ hstep ih => exact Nat.lt_trans (h.falls _ hstep.1 _ hstep.2.2) ih
  intro hcycle
  exact Nat.lt_irrefl _ (hfall i hcycle)

/-- Counting a sorted list of markers from its end ranks the arena. -/
theorem Builder.Sorted.ranked {b : Builder} {order : List Nat} (h : b.Sorted order) :
    b.view.Ranked fun i => order.length - order.idxOf i where
  falls := by
    intro i hi j hj
    have hlt := (h.link i hi j hj).2
    have hle : order.idxOf j ≤ order.length := List.idxOf_le_length
    show order.length - order.idxOf j < order.length - order.idxOf i
    omega
  le_size := by
    intro i
    -- A list of different places is no longer than the arena.
    have hsub : order ⊆ List.range b.size := fun x hx => List.mem_range.mpr (h.lt_size hx)
    have hle := (h.nodup.subperm hsub).length_le
    rw [List.length_range] at hle
    show order.length - order.idxOf i ≤ b.size
    omega

/-- **Every compiled graph is ranked**, also where segments are used again. -/
theorem Graph.compile_ranked (nextScope : Nat) (scheme : Scheme SegmentId) :
    ∃ rank, (Graph.compile nextScope scheme).1.Ranked rank := by
  obtain ⟨more, -, hs⟩ := Graph.compile_sorted nextScope scheme
  rw [Graph.compile_eq]
  exact ⟨_, hs.ranked⟩

/-- The entry of the whole scheme is the marker of an entry. -/
theorem Graph.compile_kind?_entry (nextScope : Nat) (scheme : Scheme SegmentId) :
    (Graph.compile nextScope scheme).1.kind? (Graph.compile nextScope scheme).1.entry
      = some (.marker nextScope true) := by
  rw [Graph.compile_eq]
  refine (Builder.enclose_grows _ scheme).kind 0 ?_
  rw [Builder.size_marked]
  exact Nat.succ_pos _

theorem Graph.compile_isMarker_entry (nextScope : Nat) (scheme : Scheme SegmentId) :
    (Graph.compile nextScope scheme).1.IsMarker (Graph.compile nextScope scheme).1.entry :=
  ⟨nextScope, true, Graph.compile_kind?_entry nextScope scheme⟩

/-- The exit of the whole scheme is the marker of an exit. -/
theorem Graph.compile_kind?_exit (nextScope : Nat) (scheme : Scheme SegmentId) :
    (Graph.compile nextScope scheme).1.kind? (Graph.compile nextScope scheme).1.exit
      = some (.marker nextScope false) := by
  rw [Graph.compile_eq]
  refine (Builder.enclose_grows _ scheme).kind 1 ?_
  rw [Builder.size_marked]
  exact Nat.lt_add_one 1

/-- **Nothing follows the exit of the whole scheme.** -/
theorem Graph.compile_successors_exit (nextScope : Nat) (scheme : Scheme SegmentId) :
    (Graph.compile nextScope scheme).1.successors (Graph.compile nextScope scheme).1.exit = [] := by
  have hk := Graph.compile_kind?_exit nextScope scheme
  obtain ⟨more, hmore, hs⟩ := Graph.compile_sorted nextScope scheme
  rw [Graph.compile_eq] at hk ⊢
  refine hs.successors_of_notMem ⟨nextScope, false, hk⟩ ?_
  intro hmem
  rcases List.mem_cons.mp hmem with heq | hmem
  · exact absurd heq Nat.one_ne_zero
  · have hle := hmore 1 hmem
    omega

end CommandGrammar
