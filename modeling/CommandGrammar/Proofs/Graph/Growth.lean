import CommandGrammar.Proofs.Graph.Arena

/-!
# `Proofs.Graph.Growth` — compiling a scheme, one equation per segment

`Scheme.compile` is a left fold with three kinds of steps: a solid segment, an optional group, a
union. Here each gets a name and an equation in terms of `Builder.enclose`, the arena with a whole
scheme between new markers. Proofs about the compilation go by `Scheme.induct` along these
equations.

The first such proof is that every step only adds to the arena (`Scheme.compile_grows`), for every
scheme, also one that uses a segment in several places.

## Contents
- `Builder.enclose`, `Scope.group`, `Scope.choice`, and the equations of `Segment.compile`.
- `Builder.solid_cases`: a solid node is the one with that identity, or a new one.
- `Scope.InArena`, `Scheme.compile_grows`, `Builder.enclose_grows`.
- `Graph.compile_uniqueIds`, `Graph.compile_closed`.
-/

namespace CommandGrammar

/-! ## The steps of a compilation -/

/-- The arena with a scheme between the markers of a new scope. -/
def Builder.enclose (b : Builder) (scheme : Scheme SegmentId) : Builder :=
  (Scheme.compile ⟨b.marked, b.size, []⟩ scheme).close (b.size + 1)

/-- The arena with one more branch between the markers of a union. -/
def Builder.branch (b : Builder) (unionEntry unionExit : Nat) (branch : Scheme SegmentId) :
    Builder :=
  ((b.enclose branch).link unionEntry b.size).link (b.size + 1) unionExit

/-- Let a node follow another one, and itself if it repeats. -/
def Builder.enter (b : Builder) (source node : Nat) (repeats : Bool) : Builder :=
  if repeats then (b.link source node).link node node else b.link source node

namespace Scope

/-- Let a node follow the segment before it and the pending groups. -/
def anchor (s : Scope) (node : Nat) : Scope :=
  ({ s with builder := s.builder.link s.current node }).settle node

/-- Let an optional group follow. -/
def group (s : Scope) (inner : Scheme SegmentId) : Scope :=
  { s with
    builder := (s.builder.enclose inner).link s.current s.builder.size
    pending := s.pending ++ [(s.builder.size, s.builder.size + 1)] }

/-- The arena in which the branches of a union are put: the markers of the union are there, and its
entry follows the scope. -/
def choiceStart (s : Scope) : Builder :=
  (({ s with builder := s.builder.marked } : Scope).anchor s.builder.size).builder

/-- Let a union follow. -/
def choice (s : Scope) (branches : List (Scheme SegmentId)) : Scope where
  builder := Scheme.compileBranches s.builder.size (s.builder.size + 1) s.choiceStart branches
  current := s.builder.size + 1
  pending := []

/-- Go on from the node of a solid segment; the pending groups do not know it yet. -/
def pass (s : Scope) (t : Solid) : Scope :=
  { s with
    builder := (s.builder.solid t.kind).2.enter s.current (s.builder.solid t.kind).1 t.repeats
    current := (s.builder.solid t.kind).1 }

theorem solid_eq (s : Scope) (t : Solid) :
    s.solid t.kind t.repeats = (s.pass t).settle (s.pass t).current := rfl

end Scope

namespace Segment

theorem compile_solid (s : Scope) (t : Solid) :
    t.segment.compile s = s.solid t.kind t.repeats := by
  cases t <;> rfl

theorem compile_optional (s : Scope) (inner : Scheme SegmentId) :
    (Segment.optional inner).compile s = s.group inner := by
  simp only [Segment.compile, Builder.scope_eq]
  rfl

theorem compile_union (s : Scope) (branches : List (Scheme SegmentId)) :
    (Segment.union branches).compile s = s.choice branches := by
  simp only [Segment.compile, Builder.scope_eq]
  rfl

end Segment

namespace Scheme

@[simp] theorem compile_nil (s : Scope) : Scheme.compile s [] = s := rfl

theorem compile_cons (s : Scope) (x : Segment SegmentId) (rest : Scheme SegmentId) :
    Scheme.compile s (x :: rest) = Scheme.compile (x.compile s) rest := rfl

@[simp] theorem compileBranches_nil (entry exit : Nat) (b : Builder) :
    Scheme.compileBranches entry exit b [] = b := rfl

theorem compileBranches_cons (entry exit : Nat) (b : Builder) (branch : Scheme SegmentId)
    (rest : List (Scheme SegmentId)) :
    Scheme.compileBranches entry exit b (branch :: rest)
      = Scheme.compileBranches entry exit (b.branch entry exit branch) rest := by
  simp only [Scheme.compileBranches, Builder.scope_eq]
  rfl

end Scheme

/-- A compiled graph is a scheme between the first two markers of an empty arena. -/
theorem Graph.compile_eq (nextScope : Nat) (scheme : Scheme SegmentId) :
    (Graph.compile nextScope scheme).1 = ((⟨#[], nextScope⟩ : Builder).enclose scheme).view := rfl

/-! ## Nodes of solid segments -/

namespace Builder

/-- The node of a solid segment is the one that has its identity, else a new one. -/
theorem solid_cases (b : Builder) (t : Solid) :
    (∃ i t', b.view.solid? i = some t' ∧ t'.id = t.id ∧ b.solid t.kind = (i, b)) ∨
    ((∀ i t', b.view.solid? i = some t' → t'.id ≠ t.id) ∧
      b.solid t.kind = (b.size, (b.push t.kind).2)) := by
  unfold Builder.solid
  cases h : b.nodes.findIdx? fun n => n.kind.id? == t.kind.id? with
  | none =>
      right
      refine ⟨?_, rfl⟩
      -- A node with that identity would have been found.
      intro i t' ht' hid
      rw [Array.findIdx?_eq_none_iff] at h
      have hk := Graph.solid?_eq_some.mp ht'
      obtain ⟨n, hn, hkind⟩ := Option.map_eq_some_iff.mp hk
      have hne := h n (Array.mem_of_getElem? hn)
      rw [hkind, Solid.kind_id?, Solid.kind_id?, hid] at hne
      simp at hne
  | some i =>
      left
      obtain ⟨hlt, heq, -⟩ := Array.findIdx?_eq_some_iff_getElem.mp h
      have hkind : b.view.kind? i = some b.nodes[i].kind := Graph.kind?_of_lt_size hlt
      rw [beq_iff_eq, Solid.kind_id?, NodeKind.id?_eq_some] at heq
      obtain ⟨t', hk, hid⟩ := heq
      rw [hk] at hkind
      exact ⟨i, t', Graph.solid?_eq_some.mpr hkind, hid, rfl⟩

theorem solid_grows (b : Builder) (t : Solid) : Grows [t.id] b (b.solid t.kind).2 := by
  rcases b.solid_cases t with ⟨i, t', -, -, h⟩ | ⟨hnew, h⟩
  · rw [h]
    exact .refl
  · rw [h]
    refine .push t.kind (by simp) ?_
    intro i t' id ht' hid
    rw [Solid.kind_id?] at hid
    rw [← Option.some.inj hid]
    exact hnew i t' ht'

/-- The node of a solid segment stands for a segment with its identity. -/
theorem solid_node (b : Builder) (t : Solid) :
    ∃ t', (b.solid t.kind).2.view.solid? (b.solid t.kind).1 = some t' ∧ t'.id = t.id := by
  rcases b.solid_cases t with ⟨i, t', ht', hid, h⟩ | ⟨hnew, h⟩
  · rw [h]
    exact ⟨t', ht', hid⟩
  · rw [h]
    refine ⟨t, Graph.solid?_eq_some.mpr ?_, rfl⟩
    rw [kind?_push, if_pos rfl]

theorem solid_lt (b : Builder) (t : Solid) :
    (b.solid t.kind).1 < (b.solid t.kind).2.size := by
  obtain ⟨t', ht', -⟩ := b.solid_node t
  exact Graph.lt_size_of_kind? (Graph.solid?_eq_some.mp ht')

end Builder

/-! ## Links of a step -/

theorem Builder.Grows.enter {l : List SegmentId} {b : Builder} (source : Nat) {node : Nat}
    (repeats : Bool) (h : node < b.size) : b.Grows l (b.enter source node repeats) := by
  unfold Builder.enter
  cases repeats with
  | false => exact .link source h
  | true => exact (Builder.Grows.link source h).trans (.link node (by rwa [Builder.size_link]))

namespace Scope

@[simp] theorem size_linkPending (node : Nat) (pending : List (Nat × Nat)) (b : Builder) :
    (linkPending node pending b).size = b.size := by
  induction pending generalizing b with
  | nil => rfl
  | cons p later ih => rw [linkPending, ih, Builder.size_linkAll]

@[simp] theorem kind?_linkPending (node : Nat) (pending : List (Nat × Nat)) (b : Builder)
    (i : Nat) : (linkPending node pending b).view.kind? i = b.view.kind? i := by
  induction pending generalizing b with
  | nil => rfl
  | cons p later ih => rw [linkPending, ih, Builder.kind?_linkAll]

theorem linkPending_grows {l : List SegmentId} {node : Nat} {pending : List (Nat × Nat)}
    {b : Builder} (hnode : node < b.size) (hpending : ∀ p ∈ pending, p.1 < b.size) :
    Builder.Grows l b (linkPending node pending b) := by
  induction pending generalizing b with
  | nil => exact .refl
  | cons p later ih =>
      have htargets : ∀ t ∈ later.map (·.1) ++ [node], t < b.size := by
        intro t ht
        rcases List.mem_append.mp ht with h | h
        · obtain ⟨q, hq, rfl⟩ := List.mem_map.mp h
          exact hpending q (List.mem_cons_of_mem p hq)
        · rw [List.mem_singleton.mp h]
          exact hnode
      refine (Builder.Grows.linkAll p.2 htargets).trans (ih ?_ ?_)
      · rwa [Builder.size_linkAll]
      · intro q hq
        rw [Builder.size_linkAll]
        exact hpending q (List.mem_cons_of_mem p hq)

/-! ## Growth of a compilation -/

/-- The nodes that a scope under construction names are in its arena. -/
structure InArena (s : Scope) : Prop where
  current : s.current < s.builder.size
  pending : ∀ p ∈ s.pending, p.1 < s.builder.size ∧ p.2 < s.builder.size

theorem inArena_enclosed (b : Builder) : InArena ⟨b.marked, b.size, []⟩ where
  current := by
    show b.size < b.marked.size
    rw [Builder.size_marked]
    omega
  pending := fun p hp => absurd hp (by simp)

variable {s : Scope} {l : List SegmentId}

/-- The same scope over a larger arena. -/
theorem InArena.grow (h : s.InArena) {b : Builder} (hb : s.builder.Grows l b) :
    ({ s with builder := b } : Scope).InArena where
  current := Nat.lt_of_lt_of_le h.current hb.size_le
  pending := fun p hp =>
    ⟨Nat.lt_of_lt_of_le (h.pending p hp).1 hb.size_le,
      Nat.lt_of_lt_of_le (h.pending p hp).2 hb.size_le⟩

theorem settle_grows (h : s.InArena) {node : Nat} (hnode : node < s.builder.size) :
    s.builder.Grows l (s.settle node).builder :=
  linkPending_grows hnode fun p hp => (h.pending p hp).1

theorem close_grows (h : s.InArena) {exit : Nat} (hexit : exit < s.builder.size) :
    s.builder.Grows l (s.close exit) := by
  refine (settle_grows h hexit).trans (.link _ ?_)
  show exit < (linkPending exit s.pending s.builder).size
  rwa [size_linkPending]

theorem anchor_grows (h : s.InArena) {node : Nat} (hnode : node < s.builder.size) :
    s.builder.Grows l (s.anchor node).builder := by
  have hlink : s.builder.Grows l (s.builder.link s.current node) := .link _ hnode
  refine hlink.trans (settle_grows (h.grow hlink) ?_)
  rwa [Builder.size_link]

@[simp] theorem size_anchor (s : Scope) (node : Nat) :
    (s.anchor node).builder.size = s.builder.size := by
  show (linkPending node s.pending (s.builder.link s.current node)).size = s.builder.size
  rw [size_linkPending, Builder.size_link]

@[simp] theorem size_choiceStart (s : Scope) : s.choiceStart.size = s.builder.size + 2 := by
  unfold choiceStart
  rw [size_anchor, Builder.size_marked]

theorem choiceStart_grows (h : s.InArena) : s.builder.marked.Grows l s.choiceStart := by
  have hmarked : ({ s with builder := s.builder.marked } : Scope).InArena :=
    h.grow (.marked : s.builder.Grows l _)
  refine anchor_grows hmarked ?_
  show s.builder.size < s.builder.marked.size
  rw [Builder.size_marked]
  omega

theorem pass_grows (h : s.InArena) (t : Solid) :
    s.builder.Grows [t.id] (s.pass t).builder ∧ (s.pass t).InArena := by
  have hnode := s.builder.solid_lt t
  have hsolid := s.builder.solid_grows t
  have henter : (s.builder.solid t.kind).2.Grows [t.id] (s.pass t).builder :=
    .enter s.current t.repeats hnode
  refine ⟨hsolid.trans henter, Nat.lt_of_lt_of_le hnode henter.size_le, ?_⟩
  exact (h.grow (hsolid.trans henter)).pending

/-- Having passed a solid segment, the scope goes on from a node with its identity. -/
theorem pass_node (s : Scope) (t : Solid) :
    ∃ t', (s.pass t).builder.view.solid? (s.pass t).current = some t' ∧ t'.id = t.id := by
  obtain ⟨t', ht', hid⟩ := s.builder.solid_node t
  have henter : (s.builder.solid t.kind).2.Grows [] (s.pass t).builder :=
    .enter s.current t.repeats (s.builder.solid_lt t)
  exact ⟨t', (henter.solid? (s.builder.solid_lt t)).trans ht', hid⟩

theorem solid_grows (h : s.InArena) (t : Solid) :
    s.builder.Grows [t.id] (s.solid t.kind t.repeats).builder ∧
      (s.solid t.kind t.repeats).InArena := by
  obtain ⟨hgrow, hin⟩ := pass_grows h t
  have hsettle := settle_grows (l := [t.id]) hin hin.current
  rw [solid_eq]
  exact ⟨hgrow.trans hsettle, (hin.grow hsettle).current, fun p hp => absurd hp (by simp [settle])⟩

end Scope

/-- Every compilation of the scheme only adds to the arena. -/
def Scheme.Grows (scheme : Scheme SegmentId) : Prop :=
  ∀ s : Scope, s.InArena →
    s.builder.Grows (Scheme.ids scheme) (Scheme.compile s scheme).builder ∧
      (Scheme.compile s scheme).InArena

/-- The same for one segment. -/
def Segment.Grows (x : Segment SegmentId) : Prop :=
  ∀ s : Scope, s.InArena →
    s.builder.Grows (Scheme.ids [x]) (x.compile s).builder ∧ (x.compile s).InArena

theorem Scheme.Grows.cons {x : Segment SegmentId} {rest : Scheme SegmentId} (hx : x.Grows)
    (hrest : Scheme.Grows rest) : Scheme.Grows (x :: rest) := by
  intro s hs
  obtain ⟨hgrow, hin⟩ := hx s hs
  obtain ⟨hgrow', hin'⟩ := hrest _ hin
  rw [Scheme.compile_cons, Scheme.ids_cons]
  exact ⟨(hgrow.mono (by simp)).trans (hgrow'.mono (by simp)), hin'⟩

theorem Scheme.Grows.enclose {inner : Scheme SegmentId} (h : Scheme.Grows inner) (b : Builder) :
    b.marked.Grows (Scheme.ids inner) (b.enclose inner) := by
  obtain ⟨hgrow, hin⟩ := h _ (Scope.inArena_enclosed b)
  have hexit : b.size + 1 < b.marked.size := by
    rw [Builder.size_marked]
    omega
  exact hgrow.trans (Scope.close_grows hin (Nat.lt_of_lt_of_le hexit hgrow.size_le))

theorem Scheme.Grows.group {s : Scope} (hs : s.InArena) {inner : Scheme SegmentId}
    (h : Scheme.Grows inner) :
    s.builder.Grows (Scheme.ids inner) (s.group inner).builder ∧ (s.group inner).InArena := by
  have henclose := h.enclose s.builder
  have hsize := henclose.size_le
  rw [Builder.size_marked] at hsize
  have hgrow : s.builder.Grows (Scheme.ids inner) (s.group inner).builder :=
    (Builder.Grows.marked.trans henclose).trans (.link _ (by omega))
  have hsize' : s.builder.size + 2 ≤ (s.group inner).builder.size := by
    show _ ≤ ((s.builder.enclose inner).link s.current s.builder.size).size
    rw [Builder.size_link]
    exact hsize
  refine ⟨hgrow, (hs.grow hgrow).current, ?_⟩
  intro p hp
  rcases List.mem_append.mp hp with hp | hp
  · exact (hs.grow hgrow).pending p hp
  · rw [List.mem_singleton.mp hp]
    exact ⟨by omega, by omega⟩

/-- Linking the markers of a branch to those of its union. -/
theorem Scheme.Grows.link_branch {l : List SegmentId} {branch : Scheme SegmentId}
    (h : Scheme.Grows branch) {b : Builder} (entry : Nat) {exit : Nat} (hexit : exit < b.size) :
    (b.enclose branch).Grows l (b.branch entry exit branch) := by
  have hsize := (h.enclose b).size_le
  rw [Builder.size_marked] at hsize
  refine (Builder.Grows.link entry (by omega)).trans (.link _ ?_)
  rw [Builder.size_link]
  omega

theorem Scheme.Grows.branches {branches : List (Scheme SegmentId)}
    (h : ∀ branch ∈ branches, Scheme.Grows branch) {b : Builder} (entry : Nat) {exit : Nat}
    (hexit : exit < b.size) :
    b.Grows (Scheme.branchIds branches) (Scheme.compileBranches entry exit b branches) := by
  induction branches generalizing b with
  | nil => exact .refl
  | cons branch rest ih =>
      have hbranch : b.Grows (Scheme.ids branch) (b.branch entry exit branch) :=
        (Builder.Grows.marked.trans ((h branch (by simp)).enclose b)).trans
          ((h branch (by simp)).link_branch entry hexit)
      rw [Scheme.compileBranches_cons, Scheme.branchIds_cons]
      refine (hbranch.mono (List.subset_append_left _ _)).trans ?_
      refine (ih (fun c hc => h c (List.mem_cons_of_mem branch hc)) ?_).mono
        (List.subset_append_right _ _)
      exact Nat.lt_of_lt_of_le hexit hbranch.size_le

theorem Scheme.Grows.choice {s : Scope} (hs : s.InArena) {branches : List (Scheme SegmentId)}
    (h : ∀ branch ∈ branches, Scheme.Grows branch) :
    s.builder.Grows (Scheme.branchIds branches) (s.choice branches).builder ∧
      (s.choice branches).InArena := by
  have hstart : s.builder.marked.Grows (Scheme.branchIds branches) s.choiceStart :=
    Scope.choiceStart_grows hs
  have hexit : s.builder.size + 1 < s.choiceStart.size := by
    rw [Scope.size_choiceStart]
    omega
  have hbranches := Scheme.Grows.branches h s.builder.size hexit
  refine ⟨(Builder.Grows.marked.trans hstart).trans hbranches, ?_, ?_⟩
  · exact Nat.lt_of_lt_of_le hexit hbranches.size_le
  · intro p hp
    exact absurd hp (by simp [Scope.choice])

/-- **Compiling only adds**, whatever the scheme. -/
theorem Scheme.compile_grows (scheme : Scheme SegmentId) : Scheme.Grows scheme := by
  induction scheme using Scheme.induct with
  | nil => exact fun s hs => ⟨.refl, hs⟩
  | solid t rest ih =>
      refine .cons (fun s hs => ?_) ih
      rw [Segment.compile_solid, Scheme.ids_solid]
      exact Scope.solid_grows hs t
  | optional inner rest ihinner ihrest =>
      refine .cons (fun s hs => ?_) ihrest
      rw [Segment.compile_optional, Scheme.ids_optional, Scheme.ids_nil, List.append_nil]
      exact ihinner.group hs
  | union branches rest ihbranches ihrest =>
      refine .cons (fun s hs => ?_) ihrest
      rw [Segment.compile_union, Scheme.ids_union, Scheme.ids_nil, List.append_nil]
      exact Scheme.Grows.choice hs ihbranches

theorem Segment.compile_grows (x : Segment SegmentId) : x.Grows :=
  fun s hs => Scheme.compile_grows [x] s hs

/-! ## Compiled graphs -/

theorem Builder.enclose_grows (b : Builder) (scheme : Scheme SegmentId) :
    b.marked.Grows (Scheme.ids scheme) (b.enclose scheme) :=
  (Scheme.compile_grows scheme).enclose b

/-- The markers of a closed scope are in the arena. -/
theorem Builder.size_add_two_le_enclose (b : Builder) (scheme : Scheme SegmentId) :
    b.size + 2 ≤ (b.enclose scheme).size := by
  rw [← Builder.size_marked]
  exact (b.enclose_grows scheme).size_le

theorem Builder.branch_grows {l : List SegmentId} (b : Builder) (entry : Nat) {exit : Nat}
    (hexit : exit < b.size) (branch : Scheme SegmentId) :
    (b.enclose branch).Grows l (b.branch entry exit branch) :=
  (Scheme.compile_grows branch).link_branch entry hexit

theorem Scheme.compileBranches_grows (branches : List (Scheme SegmentId)) {b : Builder}
    (entry : Nat) {exit : Nat} (hexit : exit < b.size) :
    b.Grows (Scheme.branchIds branches) (Scheme.compileBranches entry exit b branches) :=
  Scheme.Grows.branches (fun c _ => Scheme.compile_grows c) entry hexit

/-- The arena that a compilation starts from. -/
theorem Builder.empty_grows (nextScope : Nat) (scheme : Scheme SegmentId) :
    (⟨#[], nextScope⟩ : Builder).Grows (Scheme.ids scheme)
      ((⟨#[], nextScope⟩ : Builder).enclose scheme) :=
  Builder.Grows.marked.trans (Builder.enclose_grows _ scheme)

/-- **One node per identity**, also where a segment stands in several places. -/
theorem Graph.compile_uniqueIds (nextScope : Nat) (scheme : Scheme SegmentId) :
    (Graph.compile nextScope scheme).1.UniqueIds := by
  rw [Graph.compile_eq]
  refine (Builder.empty_grows nextScope scheme).unique ?_
  intro i j s t hs
  simp [Builder.view, Graph.solid?, Graph.kind?] at hs

/-- **Every link leads into the arena.** -/
theorem Graph.compile_closed (nextScope : Nat) (scheme : Scheme SegmentId) :
    (Graph.compile nextScope scheme).1.Closed := by
  rw [Graph.compile_eq]
  refine (Builder.empty_grows nextScope scheme).closed ?_
  intro i j hj
  simp [Builder.view, Graph.successors] at hj

end CommandGrammar
