import CommandGrammar.Proofs.Graph.Growth
import CommandGrammar.Proofs.Matching.Walks

/-!
# `Proofs.Graph.Entrance` — a leading keyword is the only way in

A link goes out from the node that a scope stands at, from the exit of a pending group, from a
marker of a scope that was just opened, or from the node of a solid segment. A marker that the scope
has left behind is none of these, so its successors stay as they are, whatever follows in the scheme
(`Scheme.compile_leaves`).

The entry of a scheme that begins with a keyword is left behind after the keyword: the keyword is
the only way in, also if later segments are optional, repeated, or the keyword itself once more.

## Contents
- `Builder.Holds`, `Scope.Left`: a marker that was left behind.
- `Scheme.Leaves`, `Scheme.compile_leaves`.
- `Scope.led`: the scope behind a leading keyword.
- `Graph.compile_entrance`, `Graph.Entrance.leads_iff`.
-/

namespace CommandGrammar

/-- The node is a marker, and the given nodes are all that follow it. -/
structure Builder.Holds (i : Nat) (targets : List Nat) (b : Builder) : Prop where
  marker : b.view.IsMarker i
  successors : b.view.successors i = targets

/-- The scope has left the marker behind: nothing that comes in the scope is linked from it. -/
structure Scope.Left (i : Nat) (targets : List Nat) (s : Scope) : Prop where
  holds : s.builder.Holds i targets
  current : s.current ≠ i
  pending : ∀ p ∈ s.pending, p.2 ≠ i

variable {i : Nat} {targets : List Nat}

/-! ## Operations of a builder -/

namespace Builder.Holds

variable {b : Builder}

theorem lt_size (h : b.Holds i targets) : i < b.size := by
  obtain ⟨scope, isEntry, hk⟩ := h.marker
  exact Graph.lt_size_of_kind? hk

theorem link (h : b.Holds i targets) {source : Nat} (hne : source ≠ i) (target : Nat) :
    (b.link source target).Holds i targets where
  marker := (isMarker_link b source target i).mpr h.marker
  successors := by rw [successors_link_of_ne hne.symm, h.successors]

theorem linkAll (h : b.Holds i targets) {source : Nat} (hne : source ≠ i) (ts : List Nat) :
    (b.linkAll source ts).Holds i targets where
  marker := by
    obtain ⟨scope, isEntry, hk⟩ := h.marker
    exact ⟨scope, isEntry, by rw [kind?_linkAll, hk]⟩
  successors := by rw [successors_linkAll_of_ne hne.symm, h.successors]

theorem linkPending (h : b.Holds i targets) {pending : List (Nat × Nat)}
    (hne : ∀ p ∈ pending, p.2 ≠ i) (node : Nat) :
    (Scope.linkPending node pending b).Holds i targets := by
  induction pending generalizing b with
  | nil => exact h
  | cons p later ih =>
      rw [Scope.linkPending]
      exact ih (h.linkAll (hne p (by simp)) _) fun q hq => hne q (List.mem_cons_of_mem p hq)

theorem marked (h : b.Holds i targets) : b.marked.Holds i targets where
  marker := (Grows.marked (l := [])).isMarker h.marker
  successors := by rw [successors_marked, h.successors]

theorem solid (h : b.Holds i targets) (t : Solid) : (b.solid t.kind).2.Holds i targets where
  marker := (b.solid_grows t).isMarker h.marker
  successors := by
    rcases b.solid_cases t with ⟨j, t', -, -, hb⟩ | ⟨-, hb⟩
    · rw [hb, h.successors]
    · rw [hb, successors_push, h.successors]

/-- The node of a solid segment is no marker. -/
theorem solid_ne (h : b.Holds i targets) (t : Solid) : (b.solid t.kind).1 ≠ i := by
  obtain ⟨t', ht', -⟩ := b.solid_node t
  rintro rfl
  exact (h.solid t).marker.solid?_ne_some t' ht'

end Builder.Holds

/-! ## Compilations -/

namespace Scope.Left

variable {s : Scope}

theorem settle (h : s.Left i targets) (anchor : Nat) : (s.settle anchor).Left i targets where
  holds := h.holds.linkPending h.pending anchor
  current := h.current
  pending := fun p hp => absurd hp (by simp [Scope.settle])

theorem close (h : s.Left i targets) (exit : Nat) : (s.close exit).Holds i targets :=
  (h.settle exit).holds.link h.current exit

theorem solid (h : s.Left i targets) (t : Solid) :
    (s.solid t.kind t.repeats).Left i targets := by
  have hnode := h.holds.solid_ne t
  have henter : (s.pass t).builder.Holds i targets := by
    show ((s.builder.solid t.kind).2.enter _ _ _).Holds i targets
    unfold Builder.enter
    cases t.repeats with
    | false => exact (h.holds.solid t).link h.current _
    | true => exact ((h.holds.solid t).link h.current _).link hnode _
  have hpass : (s.pass t).Left i targets := ⟨henter, hnode, h.pending⟩
  rw [solid_eq]
  exact hpass.settle _

theorem choiceStart (h : s.Left i targets) : s.choiceStart.Holds i targets :=
  (h.holds.marked.link h.current s.builder.size).linkPending h.pending s.builder.size

end Scope.Left

/-- Every compilation of the scheme leaves alone the markers that its scope has left behind. -/
def Scheme.Leaves (scheme : Scheme SegmentId) : Prop :=
  ∀ (i : Nat) (targets : List Nat) (s : Scope), s.Left i targets →
    (Scheme.compile s scheme).Left i targets

/-- The markers of a new scope are other ones. -/
theorem Scheme.Leaves.enclose {inner : Scheme SegmentId} (h : Scheme.Leaves inner) {b : Builder}
    (hb : b.Holds i targets) : (b.enclose inner).Holds i targets := by
  have hlt := hb.lt_size
  have hstart : (⟨b.marked, b.size, []⟩ : Scope).Left i targets :=
    ⟨hb.marked, Nat.ne_of_gt hlt, fun p hp => absurd hp (by simp)⟩
  exact (h i targets _ hstart).close (b.size + 1)

theorem Scheme.Leaves.branches {branches : List (Scheme SegmentId)}
    (h : ∀ branch ∈ branches, Scheme.Leaves branch) {entry : Nat} (hentry : entry ≠ i) (exit : Nat)
    {b : Builder} (hb : b.Holds i targets) :
    (Scheme.compileBranches entry exit b branches).Holds i targets := by
  induction branches generalizing b with
  | nil => exact hb
  | cons branch rest ih =>
      have hexit : b.size + 1 ≠ i := Nat.ne_of_gt (Nat.lt_succ_of_lt hb.lt_size)
      rw [Scheme.compileBranches_cons]
      apply ih fun c hc => h c (List.mem_cons_of_mem branch hc)
      exact (((h branch (by simp)).enclose hb).link hentry b.size).link hexit exit

/-- **What a scope has left behind stays as it is**, whatever the scheme. -/
theorem Scheme.compile_leaves (scheme : Scheme SegmentId) : Scheme.Leaves scheme := by
  induction scheme using Scheme.induct with
  | nil => exact fun i targets s hs => hs
  | solid t rest ih =>
      intro i targets s hs
      rw [Scheme.compile_cons, Segment.compile_solid]
      exact ih i targets _ (hs.solid t)
  | optional inner rest ihinner ihrest =>
      intro i targets s hs
      have hlt := hs.holds.lt_size
      rw [Scheme.compile_cons, Segment.compile_optional]
      refine ihrest i targets _ ⟨(ihinner.enclose hs.holds).link hs.current _, hs.current, ?_⟩
      intro p hp
      rcases List.mem_append.mp hp with hp | hp
      · exact hs.pending p hp
      · rw [List.mem_singleton.mp hp]
        exact Nat.ne_of_gt (Nat.lt_succ_of_lt hlt)
  | union branches rest ihbranches ihrest =>
      intro i targets s hs
      have hlt := hs.holds.lt_size
      rw [Scheme.compile_cons, Segment.compile_union]
      refine ihrest i targets _ ⟨?_, Nat.ne_of_gt (Nat.lt_succ_of_lt hlt), ?_⟩
      · exact Scheme.Leaves.branches ihbranches (Nat.ne_of_gt hlt) _ hs.choiceStart
      · exact fun p hp => absurd hp (by simp [Scope.choice])

/-! ## Schemes led by a keyword -/

/-- The keyword is the only way into the graph. -/
structure Graph.Entrance (k : Keyword SegmentId) (lead : Nat) (g : Graph) : Prop where
  successors_entry : g.successors g.entry = [lead]
  keyword : g.solid? lead = some (.keyword k)

/-- The scope behind a keyword that comes first: the keyword got the node behind the two markers,
and follows the entry. -/
def Scope.led (nextScope : Nat) (k : Keyword SegmentId) : Scope :=
  ⟨(((⟨#[], nextScope⟩ : Builder).marked.push (Solid.keyword k).kind).2).link 0 2, 2, []⟩

section

variable (nextScope : Nat) (k : Keyword SegmentId)

theorem Scope.solid_first :
    let b : Builder := ⟨#[], nextScope⟩
    (⟨b.marked, b.size, []⟩ : Scope).solid (Solid.keyword k).kind false = led nextScope k := by
  intro b
  have hsolid : b.marked.solid (Solid.keyword k).kind
      = (2, (b.marked.push (Solid.keyword k).kind).2) := by
    rcases b.marked.solid_cases (.keyword k) with ⟨i, t, ht, -, -⟩ | ⟨-, h⟩
    · -- There are only markers yet.
      rw [Graph.solid?_eq_some, Builder.kind?_marked] at ht
      split_ifs at ht
      · cases t <;> cases ht
      · cases t <;> cases ht
      · simp [b, Builder.view, Graph.kind?] at ht
    · rw [h, Builder.size_marked]
      rfl
  have hpass : (⟨b.marked, b.size, []⟩ : Scope).solid (Solid.keyword k).kind false
      = Scope.settle ⟨((b.marked.solid (Solid.keyword k).kind).2).link b.size
      (b.marked.solid (Solid.keyword k).kind).1, (b.marked.solid (Solid.keyword k).kind).1, []⟩
      (b.marked.solid (Solid.keyword k).kind).1 := rfl
  rw [hpass, hsolid]
  rfl

theorem Scope.size_led : (led nextScope k).builder.size = 3 := by
  rw [led, Builder.size_link, Builder.size_push, Builder.size_marked]
  rfl

theorem Scope.solid?_led : (led nextScope k).builder.view.solid? 2 = some (.keyword k) := by
  rw [led, Graph.solid?_eq_some, Builder.kind?_link, Builder.kind?_push]
  rfl

/-- The entry is left behind, and only the keyword follows it. -/
theorem Scope.led_left : (led nextScope k).Left 0 [2] := by
  refine ⟨⟨⟨nextScope, true, ?_⟩, ?_⟩, Nat.succ_ne_zero 1, fun p hp => absurd hp (by simp [led])⟩
  · rw [led, Builder.kind?_link, Builder.kind?_push]
    rfl
  · have hsource : 0 < ((⟨#[], nextScope⟩ : Builder).marked.push (Solid.keyword k).kind).2.size := by
      rw [Builder.size_push]
      exact Nat.succ_pos _
    rw [led, Builder.successors_link_self hsource, Builder.successors_push]
    rfl

theorem Scope.inArena_led : (led nextScope k).InArena := by
  refine ⟨?_, fun p hp => absurd hp (by simp [led])⟩
  rw [size_led]
  exact Nat.lt_succ_self 2

/-- **A leading keyword is the only way in**, whatever follows it. -/
theorem Graph.compile_entrance (rest : Scheme SegmentId) :
    ∃ lead, (Graph.compile nextScope (.keyword k :: rest)).1.Entrance k lead := by
  have hcompile : (Graph.compile nextScope (.keyword k :: rest)).1
      = ((Scheme.compile (Scope.led nextScope k) rest).close 1).view := by
    have hfirst : (Segment.keyword k).compile ⟨(⟨#[], nextScope⟩ : Builder).marked, 0, []⟩
        = Scope.led nextScope k := Scope.solid_first nextScope k
    rw [← hfirst]
    rfl
  obtain ⟨hgrow, hin⟩ := Scheme.compile_grows rest _ (Scope.inArena_led nextScope k)
  have hexit : 1 < (Scope.led nextScope k).builder.size := by
    rw [Scope.size_led]
    exact Nat.lt_succ_of_lt (Nat.lt_succ_self 1)
  have hclose : (Scheme.compile (Scope.led nextScope k) rest).builder.Grows (Scheme.ids rest)
      ((Scheme.compile (Scope.led nextScope k) rest).close 1) :=
    Scope.close_grows hin (Nat.lt_of_lt_of_le hexit hgrow.size_le)
  refine ⟨2, ?_, ?_⟩
  · rw [hcompile]
    exact ((Scheme.compile_leaves rest 0 [2] _ (Scope.led_left nextScope k)).close 1).successors
  · have hlead : 2 < (Scope.led nextScope k).builder.size :=
      (Scope.inArena_led nextScope k).current
    rw [hcompile, (hgrow.trans hclose).solid? hlead, Scope.solid?_led]

end

/-- From the entry one comes to the keyword, and nowhere else. -/
theorem Graph.Entrance.leads_iff {g : Graph} {k : Keyword SegmentId} {lead n : Nat}
    (h : g.Entrance k lead) : g.Leads g.entry n ↔ n = lead := by
  constructor
  · intro hleads
    cases hleads with
    | link hn =>
        rw [h.successors_entry] at hn
        exact List.mem_singleton.mp hn
    | through hm hmarker _ =>
        rw [h.successors_entry, List.mem_singleton] at hm
        rw [hm] at hmarker
        exact absurd h.keyword (hmarker.solid?_ne_some _)
  · rintro rfl
    refine .link ?_
    rw [h.successors_entry]
    exact List.mem_singleton_self n

end CommandGrammar
