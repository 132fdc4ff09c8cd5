import CommandGrammar.Proofs.Graph.Sources
import CommandGrammar.Proofs.Graph.Words
import Mathlib.Order.CompletePartialOrder

/-!
# `Proofs.Graph.Coverage` — what a graph has, however segments are used again

A segment that stands in several places of a scheme has one node, so the places run into each other:
the graph is a quotient of the scheme with more cycles and more words, and no longer wired in the
sense of `Scheme.Wired`. But sharing only ever adds links. Whatever a scope owes when it is compiled
is paid in every graph that the arena grows into (`Scope.Paid`), and this is enough to find every
word of the scheme again.

## Contents
- `Builder.Within`: a graph that an arena has grown into.
- `Scope.Paid` with one lemma per step of a compilation.
- `Scheme.Cloned`, `Scheme.Covers`, `Graph.compile_covers`: no word of the scheme is lost.
-/

namespace CommandGrammar

open Computability

/-! ## Arenas within a graph -/

/-- The graph has the nodes of the arena, and at least its links. -/
structure Builder.Within (b : Builder) (g : Graph) : Prop where
  kind : ∀ i < b.size, g.kind? i = b.view.kind? i
  successors : ∀ i, b.view.successors i ⊆ g.successors i

namespace Builder.Within

variable {b b' : Builder} {g : Graph} {l : List SegmentId}

theorem refl (b : Builder) : b.Within b.view := ⟨fun _ _ => rfl, fun _ => List.Subset.refl _⟩

/-- An earlier stage of the arena is within the graph, too. -/
theorem earlier (h : b'.Within g) (hgrow : b.Grows l b') : b.Within g where
  kind := by
    intro i hi
    rw [h.kind i (Nat.lt_of_lt_of_le hi hgrow.size_le), hgrow.kind i hi]
  successors := by
    intro i j hj
    apply h.successors i
    exact hgrow.successors i hj

theorem solid? (h : b.Within g) {i : Nat} {t : Solid} (ht : b.view.solid? i = some t) :
    g.solid? i = some t := by
  have hk := Graph.solid?_eq_some.mp ht
  rw [Graph.solid?_eq_some, h.kind i (Graph.lt_size_of_kind? hk), hk]

/-- The markers of a scope are markers of an inner scope. -/
theorem inner (h : b.marked.Within g) (hexit : g.exit < b.size) :
    g.Inner b.size ∧ g.Inner (b.size + 1) := by
  have hinner : ∀ i, b.size ≤ i → b.marked.view.IsMarker i → g.Inner i := by
    intro i hi hm
    obtain ⟨scope, isEntry, hk⟩ := hm
    refine ⟨⟨scope, isEntry, ?_⟩, by omega⟩
    rw [h.kind i (Graph.lt_size_of_kind? hk), hk]
  exact ⟨hinner _ (Nat.le_refl _) b.isMarker_marked_entry,
    hinner _ (Nat.le_succ _) b.isMarker_marked_exit⟩

/-- What the compilation of a scheme grows into, the compilation of its first segment grows into. -/
theorem segment {s : Scope} {exit : Nat} {x : Segment SegmentId} {rest : Scheme SegmentId}
    (hs : s.Tidy) (hexit : exit < s.builder.size)
    (h : ((Scheme.compile s (x :: rest)).close exit).Within g) :
    (x.compile s).Tidy ∧ s.builder.size ≤ (x.compile s).builder.size ∧
      (x.compile s).builder.Within g := by
  have hs' := x.tidy_compile hs
  have hsize := (x.compile_grows s hs.toInArena).1.size_le
  refine ⟨hs', hsize, ?_⟩
  exact h.earlier (Scheme.closed_grows rest hs'.toInArena (Nat.lt_of_lt_of_le hexit hsize))

end Builder.Within

/-! ## Paid scopes -/

/-- In the graph every node leads to its dues, with `first` coming next in the scope. -/
def Scope.Paid (s : Scope) (g : Graph) (first : List Nat) : Prop :=
  ∀ i, s.dues first i ⊆ g.successors i

/-- What has been linked is there. -/
theorem Graph.mem_successors_of_addTargets {g : Graph} {i j : Nat} {edges ts : List Nat}
    (h : addTargets edges ts ⊆ g.successors i) (hj : j ∈ ts) : j ∈ g.successors i :=
  h (mem_addTargets.mpr (Or.inr hj))

namespace Scope

variable {s : Scope} {g : Graph} {first middle : List Nat}

/-- The place to go on from leads to what comes next. -/
theorem Paid.current (h : s.Paid g first) : Graph.members first ⊆ g.targets s.current := by
  intro j hj
  apply h s.current
  unfold dues
  rw [if_pos rfl]
  exact List.mem_append_left _ hj

theorem paid_close (hs : s.Tidy) {exit : Nat} (h : (s.close exit).Within g) :
    s.Paid g [exit] := by
  intro i j hj
  have hnext := h.successors i
  rw [successors_close hs] at hnext
  exact Graph.mem_successors_of_addTargets hnext hj

/-- A solid segment is what comes next, also if it has had its node before. -/
theorem paid_solid (hs : s.InArena) {t : Solid}
    (h : (s.solid t.kind t.repeats).builder.Within g) :
    s.Paid g [(s.builder.solid t.kind).1] := by
  intro i j hj
  have hnext := h.successors i
  rw [successors_solid hs] at hnext
  apply Graph.mem_successors_of_addTargets hnext
  rcases List.mem_append.mp hj with hj | hj
  · exact List.mem_append_left _ (List.mem_append_left _ hj)
  · exact List.mem_append_right _ hj

theorem mem_successors_of_repeats (hs : s.InArena) {t : Solid} (ht : t.repeats = true)
    (h : (s.solid t.kind t.repeats).builder.Within g) :
    (s.builder.solid t.kind).1 ∈ g.successors (s.builder.solid t.kind).1 := by
  have hnext := h.successors (s.builder.solid t.kind).1
  rw [successors_solid hs] at hnext
  apply Graph.mem_successors_of_addTargets hnext
  simp [ht]

/-- Behind a group comes what comes next after it, or the group itself comes first. -/
theorem Paid.group (hs : s.InArena) {inner : Scheme SegmentId}
    (hin : (s.group inner).builder.Within g) (h : (s.group inner).Paid g middle) :
    s.Paid g (s.builder.size :: middle) ∧ middle ⊆ g.successors (s.builder.size + 1) := by
  have hall : ∀ i, s.dues (s.builder.size :: middle) i
      ++ (if i = s.builder.size + 1 then middle else []) ⊆ g.successors i := by
    intro i
    have hnext := hin.successors i
    rw [successors_group hs] at hnext
    rw [← dues_group s inner middle i]
    apply List.append_subset.mpr
    exact ⟨fun j hj => Graph.mem_successors_of_addTargets hnext hj, h i⟩
  constructor
  · intro i
    exact (List.append_subset.mp (hall i)).1
  · have hexit := (List.append_subset.mp (hall (s.builder.size + 1))).2
    rwa [if_pos rfl] at hexit

/-- A union is what comes next. -/
theorem paid_choiceStart (hs : s.InArena) (h : s.choiceStart.Within g) :
    s.Paid g [s.builder.size] := by
  intro i j hj
  have hnext := h.successors i
  rw [successors_choiceStart hs] at hnext
  exact Graph.mem_successors_of_addTargets hnext hj

end Scope

/-- A branch is between the markers of its union. -/
theorem Builder.Within.branch {b : Builder} {g : Graph} {entry exit : Nat}
    {branch : Scheme SegmentId} (hentry : entry < b.size)
    (h : (b.branch entry exit branch).Within g) :
    b.size ∈ g.successors entry ∧ exit ∈ g.successors (b.size + 1) := by
  have hnext := fun i => h.successors i
  simp only [Builder.successors_branch hentry] at hnext
  constructor
  · apply Graph.mem_successors_of_addTargets (hnext entry)
    simp
  · apply Graph.mem_successors_of_addTargets (hnext (b.size + 1))
    simp

/-! ## No word is lost -/

/-- Segments of the scheme that have the same identity are clones of one segment. -/
def Scheme.Cloned (scheme : Scheme SegmentId) : Prop :=
  ∀ t ∈ Scheme.solids scheme, ∀ u ∈ Scheme.solids scheme, t.id = u.id → t = u

/-- A node that has the identity of one of the segments stands for it. -/
def Graph.StandsFor (g : Graph) (l : List Solid) : Prop :=
  ∀ i t, g.solid? i = some t → ∀ u ∈ l, t.id = u.id → t = u

theorem Graph.StandsFor.mono {g : Graph} {l l' : List Solid} (h : g.StandsFor l) (hsub : l' ⊆ l) :
    g.StandsFor l' :=
  fun i t ht u hu => h i t ht u (hsub hu)

/-- In every graph that the compilation of the scheme up to an exit grows into, the scope has been
paid, and from what comes next the words of the scheme are spelled, and then what is spelled from
the exit. -/
def Scheme.Covers (scheme : Scheme SegmentId) : Prop :=
  ∀ (s : Scope) (exit : Nat) (g : Graph), s.Tidy → exit < s.builder.size →
    g.exit < s.builder.size → g.IsMarker g.exit → g.StandsFor (Scheme.solids scheme) →
    ((Scheme.compile s scheme).close exit).Within g →
    ∃ first, s.Paid g first ∧
      Scheme.language scheme * g.words {exit} ≤ g.words (Graph.members first)

section

variable {g : Graph}

theorem Graph.words_mono {starts starts' : Set Nat} (h : starts ⊆ starts') :
    g.words starts ≤ g.words starts' := by
  rintro w ⟨j, hj, hw⟩
  exact ⟨j, h hj, hw⟩

/-- A node that stands for a segment and leads to `middle`, and to itself if the segment repeats,
spells the segment before what is spelled from there. -/
theorem Graph.language_mul_le (hexit : g.IsMarker g.exit) {n : Nat} {t : Solid}
    {middle : Set Nat} (ht : g.solid? n = some t) (hmiddle : middle ⊆ g.targets n)
    (hself : t.repeats = true → n ∈ g.targets n) :
    t.segment.language * g.words middle ≤ g.words {n} := by
  have hnext : g.words middle ≤ g.words (g.targets n) := Graph.words_mono hmiddle
  rw [Solid.language_segment, Graph.words_solid hexit ht]
  cases hr : t.repeats with
  | false =>
      rw [if_neg (by simp)]
      exact mul_le_mul_right hnext _
  | true =>
      -- Since the node leads to itself, what follows it takes in one more copy of the segment.
      have hloop : {[t]} * g.words (g.targets n) ≤ g.words (g.targets n) := by
        rw [← Graph.words_solid hexit ht]
        exact Graph.words_mono (Set.singleton_subset_iff.mpr (hself hr))
      rw [if_pos rfl, mul_assoc]
      exact mul_le_mul_right (kstar_mul_le hnext hloop) _

end

namespace Scheme.Covers

variable {g : Graph}

theorem nil : Scheme.Covers [] := by
  intro s exit g hs _ _ _ _ hin
  refine ⟨[exit], Scope.paid_close hs hin, ?_⟩
  rw [Scheme.language, one_mul, Graph.members_singleton]

theorem solid (t : Solid) {rest : Scheme SegmentId} (h : Scheme.Covers rest) :
    Scheme.Covers (t.segment :: rest) := by
  intro s exit g hs hexit hg hmarker hstands hin
  obtain ⟨hs', hsize, hstep⟩ := hin.segment hs hexit
  rw [Segment.compile_solid] at hs' hsize hstep
  rw [Scheme.compile_cons, Segment.compile_solid] at hin
  rw [Scheme.solids, Solid.solids_segment, List.singleton_append] at hstands
  obtain ⟨middle, hpaid, hle⟩ := h _ exit g hs' (by omega) (by omega) hmarker
    (hstands.mono (List.subset_cons_self _ _)) hin
  -- The node may be an old one, but then it stands for a clone.
  obtain ⟨t', ht', hid⟩ := s.builder.solid_node t
  have hkeeps : (s.builder.solid t.kind).2.Grows [t.id] (s.solid t.kind t.repeats).builder := by
    have henter : (s.builder.solid t.kind).2.Grows [t.id] (s.pass t).builder :=
      .enter s.current t.repeats (s.builder.solid_lt t)
    have hpass := (Scope.pass_grows hs.toInArena t).2
    rw [Scope.solid_eq]
    exact henter.trans (Scope.settle_grows hpass hpass.current)
  have hnode := (hstep.earlier hkeeps).solid? ht'
  rw [hstands _ t' hnode t (by simp) hid] at hnode
  refine ⟨[(s.builder.solid t.kind).1], Scope.paid_solid hs.toInArena hstep, ?_⟩
  rw [Graph.members_singleton]
  calc Scheme.language (t.segment :: rest) * g.words {exit}
      = t.segment.language * (Scheme.language rest * g.words {exit}) := mul_assoc _ _ _
    _ ≤ t.segment.language * g.words (Graph.members middle) := mul_le_mul_right hle _
    _ ≤ g.words {(s.builder.solid t.kind).1} :=
        Graph.language_mul_le hmarker hnode hpaid.current
          fun hr => Scope.mem_successors_of_repeats hs.toInArena hr hstep

/-- A scope between its markers is passed from the entry to the exit. -/
theorem enclosed {inner : Scheme SegmentId} (h : Scheme.Covers inner) {b : Builder}
    {out : Set Nat} (hg : g.exit < b.size) (hmarker : g.IsMarker g.exit)
    (hstands : g.StandsFor (Scheme.solids inner)) (hin : (b.enclose inner).Within g)
    (hout : out ⊆ g.targets (b.size + 1)) :
    Scheme.language inner * g.words out ≤ g.words {b.size} := by
  have hmarked := hin.earlier (b.enclose_grows inner)
  obtain ⟨hentryInner, hexitInner⟩ := hmarked.inner hg
  have hsize := b.size_marked
  have hexit : b.size + 1 < b.marked.size := by omega
  have hg' : g.exit < b.marked.size := by omega
  obtain ⟨first, hpaid, hle⟩ := h ⟨b.marked, b.size, []⟩ (b.size + 1) g
    (Scope.tidy_enclosed b) hexit hg' hmarker hstands hin
  calc Scheme.language inner * g.words out
      ≤ Scheme.language inner * g.words (g.targets (b.size + 1)) :=
        mul_le_mul_right (Graph.words_mono hout) _
    _ = Scheme.language inner * g.words {b.size + 1} := by rw [Graph.words_inner hexitInner]
    _ ≤ g.words (Graph.members first) := hle
    _ ≤ g.words (g.targets b.size) := Graph.words_mono hpaid.current
    _ = g.words {b.size} := (Graph.words_inner hentryInner).symm

theorem optional {inner rest : Scheme SegmentId} (hinner : Scheme.Covers inner)
    (hrest : Scheme.Covers rest) : Scheme.Covers (.optional inner :: rest) := by
  intro s exit g hs hexit hg hmarker hstands hin
  obtain ⟨hs', hsize, hstep⟩ := hin.segment hs hexit
  rw [Segment.compile_optional] at hs' hsize hstep
  rw [Scheme.compile_cons, Segment.compile_optional] at hin
  rw [Scheme.solids, Segment.solids] at hstands
  obtain ⟨middle, hpaid, hle⟩ := hrest _ exit g hs' (by omega) (by omega) hmarker
    (hstands.mono (List.subset_append_right _ _)) hin
  obtain ⟨hfirst, hout⟩ := hpaid.group hs.toInArena hstep
  have henclosed : (s.builder.enclose inner).Within g := by
    have hle := s.builder.size_add_two_le_enclose inner
    exact hstep.earlier (l := []) (.link s.current (by omega))
  have hgroup := hinner.enclosed hg hmarker (hstands.mono (List.subset_append_left _ _)) henclosed
    hout
  refine ⟨s.builder.size :: middle, hfirst, ?_⟩
  calc Scheme.language (.optional inner :: rest) * g.words {exit}
      = (Scheme.language inner + 1) * (Scheme.language rest * g.words {exit}) := mul_assoc _ _ _
    _ ≤ (Scheme.language inner + 1) * g.words (Graph.members middle) := mul_le_mul_right hle _
    _ = Scheme.language inner * g.words (Graph.members middle) + g.words (Graph.members middle) :=
        add_one_mul _ _
    _ ≤ g.words {s.builder.size} + g.words (Graph.members middle) := add_le_add_left hgroup _
    _ = g.words (Graph.members (s.builder.size :: middle)) := by
        rw [Graph.members_cons, Graph.words_insert]

theorem branches {branches : List (Scheme SegmentId)}
    (h : ∀ branch ∈ branches, Scheme.Covers branch) {b : Builder} {entry exit : Nat}
    (hentry : entry < b.size) (hexit : exit < b.size) (hg : g.exit < b.size)
    (hmarker : g.IsMarker g.exit) (hstands : g.StandsFor (Scheme.branchSolids branches))
    (hin : (Scheme.compileBranches entry exit b branches).Within g) :
    Scheme.branchLanguage branches * g.words {exit} ≤ g.words (g.targets entry) := by
  induction branches generalizing b with
  | nil =>
      rw [Scheme.branchLanguage, zero_mul]
      exact bot_le
  | cons branch rest ih =>
      rw [Scheme.compileBranches_cons] at hin
      rw [Scheme.branchSolids] at hstands
      have hgrow := b.branch_grows (l := []) entry hexit branch
      have hsize := hgrow.size_le
      have hle := b.size_add_two_le_enclose branch
      have hstep := hin.earlier (Scheme.compileBranches_grows rest entry (by omega))
      obtain ⟨hmem, hleave⟩ := hstep.branch hentry
      have hout : ({exit} : Set Nat) ⊆ g.targets (b.size + 1) := Set.singleton_subset_iff.mpr hleave
      have hbranch := (h branch (by simp)).enclosed hg hmarker
        (hstands.mono (List.subset_append_left _ _)) (hstep.earlier hgrow) hout
      have hothers := ih (fun c hc => h c (List.mem_cons_of_mem branch hc)) (by omega) (by omega)
        (by omega) (hstands.mono (List.subset_append_right _ _)) hin
      rw [Scheme.branchLanguage, add_mul]
      apply add_le _ hothers
      exact hbranch.trans (Graph.words_mono (Set.singleton_subset_iff.mpr hmem))

theorem union {branches : List (Scheme SegmentId)} {rest : Scheme SegmentId}
    (hbranches : ∀ branch ∈ branches, Scheme.Covers branch) (hrest : Scheme.Covers rest) :
    Scheme.Covers (.union branches :: rest) := by
  intro s exit g hs hexit hg hmarker hstands hin
  obtain ⟨hs', hsize, hstep⟩ := hin.segment hs hexit
  rw [Segment.compile_union] at hs' hsize hstep
  rw [Scheme.compile_cons, Segment.compile_union] at hin
  rw [Scheme.solids, Segment.solids] at hstands
  obtain ⟨middle, hpaid, hle⟩ := hrest _ exit g hs' (by omega) (by omega) hmarker
    (hstands.mono (List.subset_append_right _ _)) hin
  have hstart := s.size_choiceStart
  have hwithin := hstep.earlier
    (Scheme.compileBranches_grows branches s.builder.size (by omega))
  obtain ⟨hentryInner, hexitInner⟩ :=
    (hwithin.earlier (Scope.choiceStart_grows (l := []) hs.toInArena)).inner hg
  have hunion := Scheme.Covers.branches hbranches (by omega) (by omega) (by omega) hmarker
    (hstands.mono (List.subset_append_left _ _)) hstep
  refine ⟨[s.builder.size], Scope.paid_choiceStart hs.toInArena hwithin, ?_⟩
  rw [Graph.members_singleton]
  calc Scheme.language (.union branches :: rest) * g.words {exit}
      = Scheme.branchLanguage branches * (Scheme.language rest * g.words {exit}) :=
        mul_assoc _ _ _
    _ ≤ Scheme.branchLanguage branches * g.words (Graph.members middle) := mul_le_mul_right hle _
    _ ≤ Scheme.branchLanguage branches * g.words (g.targets (s.builder.size + 1)) :=
        mul_le_mul_right (Graph.words_mono hpaid.current) _
    _ = Scheme.branchLanguage branches * g.words {s.builder.size + 1} := by
        rw [Graph.words_inner hexitInner]
    _ ≤ g.words (g.targets s.builder.size) := hunion
    _ = g.words {s.builder.size} := (Graph.words_inner hentryInner).symm

end Scheme.Covers

theorem Scheme.compile_covers (scheme : Scheme SegmentId) : Scheme.Covers scheme := by
  induction scheme using Scheme.induct with
  | nil => exact .nil
  | solid t rest ih => exact .solid t ih
  | optional inner rest ihinner ihrest => exact .optional ihinner ihrest
  | union branches rest ihbranches ihrest => exact .union ihbranches ihrest

/-- **The graph of a scheme spells every word of the scheme**, also where clones of a segment share
a node. -/
theorem Graph.compile_covers (nextScope : Nat) {scheme : Scheme SegmentId}
    (h : Scheme.Cloned scheme) :
    let g := (Graph.compile nextScope scheme).1
    Scheme.language scheme ≤ g.words (g.targets g.entry) := by
  intro g
  have hexit : g.IsMarker g.exit := ⟨nextScope, false, Graph.compile_kind?_exit nextScope scheme⟩
  have hstands : g.StandsFor (Scheme.solids scheme) := by
    intro i t ht u hu hid
    exact h t (Graph.mem_solids_of_compile ht) u hu hid
  obtain ⟨first, hpaid, hle⟩ := Scheme.compile_covers scheme
    ⟨(⟨#[], nextScope⟩ : Builder).marked, 0, []⟩ 1 g (Scope.tidy_enclosed _) Nat.one_lt_two
    Nat.one_lt_two hexit hstands (.refl _)
  rw [show g.words {1} = 1 from Graph.words_exit hexit, mul_one] at hle
  exact hle.trans (Graph.words_mono hpaid.current)

end CommandGrammar
