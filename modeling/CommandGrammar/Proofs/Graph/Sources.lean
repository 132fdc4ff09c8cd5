import CommandGrammar.Proofs.Graph.Growth
import CommandGrammar.Proofs.Segment.Variables

/-!
# `Proofs.Graph.Sources` — where the nodes of a graph come from

A compiled graph has no solid node but those of its scheme. That identities are unique is not
needed: a solid segment whose identity is in the arena gets no node of its own, and any other gets a
node that stands for the segment itself.

## Contents
- `Builder.DrawnFrom`: every solid node of an arena stands for one of the given segments; what the
  operations of a builder and of a scope do to this.
- `Scheme.Draws`, `Scheme.compile_draws`: a compilation adds the segments of its scheme only.
- `Graph.mem_solids_of_compile`, `Graph.mem_variables_of_compile`.
-/

namespace CommandGrammar

/-- Every solid node of the arena stands for one of the given segments. -/
def Builder.DrawnFrom (l : List Solid) (b : Builder) : Prop :=
  ∀ i t, b.view.solid? i = some t → t ∈ l

namespace Builder.DrawnFrom

variable {l : List Solid} {b b' : Builder}

/-- What leaves the nodes as they are leaves their sources as they are. -/
theorem of_kinds (hb : b.DrawnFrom l) (h : ∀ i, b'.view.kind? i = b.view.kind? i) :
    b'.DrawnFrom l := by
  intro i t ht
  apply hb i t
  rw [Graph.solid?_eq_some] at ht ⊢
  rw [← h i]
  exact ht

theorem link (hb : b.DrawnFrom l) (source target : Nat) : (b.link source target).DrawnFrom l :=
  hb.of_kinds (kind?_link b source target)

theorem linkPending (hb : b.DrawnFrom l) (node : Nat) (pending : List (Nat × Nat)) :
    (Scope.linkPending node pending b).DrawnFrom l :=
  hb.of_kinds (Scope.kind?_linkPending node pending b)

theorem push (hb : b.DrawnFrom l) {t : Solid} (ht : t ∈ l) : (b.push t.kind).2.DrawnFrom l := by
  intro i t' ht'
  rw [Graph.solid?_eq_some, kind?_push] at ht'
  by_cases hi : i = b.size
  · rw [if_pos hi, Option.some.injEq] at ht'
    have hsolid : t' = t := by simpa using (NodeKind.solid?_eq_some.mpr ht').symm
    rwa [hsolid]
  · rw [if_neg hi] at ht'
    exact hb i t' (Graph.solid?_eq_some.mpr ht')

/-- Markers stand for no segment. -/
theorem marked (hb : b.DrawnFrom l) : b.marked.DrawnFrom l := by
  intro i t ht
  by_cases hexit : i = b.size + 1
  · rw [hexit] at ht
    exact absurd ht (b.isMarker_marked_exit.solid?_ne_some t)
  · by_cases hentry : i = b.size
    · rw [hentry] at ht
      exact absurd ht (b.isMarker_marked_entry.solid?_ne_some t)
    · rw [Graph.solid?_eq_some, kind?_marked, if_neg hexit, if_neg hentry] at ht
      exact hb i t (Graph.solid?_eq_some.mpr ht)

theorem solid (hb : b.DrawnFrom l) {t : Solid} (ht : t ∈ l) :
    (b.solid t.kind).2.DrawnFrom l := by
  rcases b.solid_cases t with ⟨i, t', -, -, h⟩ | ⟨-, h⟩
  · rw [h]
    exact hb
  · rw [h]
    exact hb.push ht

end Builder.DrawnFrom

namespace Scope

variable {l : List Solid} {s : Scope}

theorem close_drawnFrom (h : s.builder.DrawnFrom l) (exit : Nat) : (s.close exit).DrawnFrom l :=
  (h.linkPending exit s.pending).link s.current exit

theorem solid_drawnFrom (h : s.builder.DrawnFrom l) {t : Solid} (ht : t ∈ l) :
    (s.solid t.kind t.repeats).builder.DrawnFrom l := by
  have henter : (s.pass t).builder.DrawnFrom l := by
    show ((s.builder.solid t.kind).2.enter _ _ _).DrawnFrom l
    unfold Builder.enter
    cases t.repeats with
    | false => exact (h.solid ht).link _ _
    | true => exact ((h.solid ht).link _ _).link _ _
  rw [solid_eq]
  exact henter.linkPending _ _

theorem choiceStart_drawnFrom (h : s.builder.DrawnFrom l) : s.choiceStart.DrawnFrom l :=
  (h.marked.link s.current s.builder.size).linkPending s.builder.size s.pending

end Scope

/-! ## Compilations -/

/-- Every compilation of the scheme adds no segments but those of the scheme. -/
def Scheme.Draws (scheme : Scheme SegmentId) : Prop :=
  ∀ (l : List Solid) (s : Scope), Scheme.solids scheme ⊆ l → s.builder.DrawnFrom l →
    (Scheme.compile s scheme).builder.DrawnFrom l

theorem Scheme.Draws.enclose {inner : Scheme SegmentId} (h : Scheme.Draws inner) {l : List Solid}
    {b : Builder} (hl : Scheme.solids inner ⊆ l) (hb : b.DrawnFrom l) :
    (b.enclose inner).DrawnFrom l := by
  have hinner := h l ⟨b.marked, b.size, []⟩ hl hb.marked
  exact Scope.close_drawnFrom hinner (b.size + 1)

theorem Scheme.Draws.branches {branches : List (Scheme SegmentId)}
    (h : ∀ branch ∈ branches, Scheme.Draws branch) {l : List Solid} {b : Builder}
    (entry exit : Nat) (hl : Scheme.branchSolids branches ⊆ l) (hb : b.DrawnFrom l) :
    (Scheme.compileBranches entry exit b branches).DrawnFrom l := by
  induction branches generalizing b with
  | nil => exact hb
  | cons branch rest ih =>
      rw [Scheme.branchSolids, List.append_subset] at hl
      rw [Scheme.compileBranches_cons]
      apply ih (fun c hc => h c (List.mem_cons_of_mem branch hc)) hl.2
      exact (((h branch (by simp)).enclose hl.1 hb).link entry b.size).link (b.size + 1) exit

/-- **Compiling adds the segments of the scheme only**, whatever the scheme. -/
theorem Scheme.compile_draws (scheme : Scheme SegmentId) : Scheme.Draws scheme := by
  induction scheme using Scheme.induct with
  | nil => exact fun l s hl hs => hs
  | solid t rest ih =>
      intro l s hl hs
      rw [Scheme.solids, Solid.solids_segment, List.singleton_append, List.cons_subset] at hl
      rw [Scheme.compile_cons, Segment.compile_solid]
      exact ih l _ hl.2 (Scope.solid_drawnFrom hs hl.1)
  | optional inner rest ihinner ihrest =>
      intro l s hl hs
      rw [Scheme.solids, List.append_subset] at hl
      rw [Scheme.compile_cons, Segment.compile_optional]
      apply ihrest l _ hl.2
      -- Around the inner segments there are only markers and links.
      exact (ihinner.enclose hl.1 hs).link s.current s.builder.size
  | union branches rest ihbranches ihrest =>
      intro l s hl hs
      rw [Scheme.solids, List.append_subset] at hl
      rw [Scheme.compile_cons, Segment.compile_union]
      apply ihrest l _ hl.2
      exact Scheme.Draws.branches ihbranches _ _ hl.1 (Scope.choiceStart_drawnFrom hs)

/-- **Every solid node of a compiled graph stands for a segment of its scheme.** -/
theorem Graph.mem_solids_of_compile {nextScope : Nat} {scheme : Scheme SegmentId} {i : Nat}
    {t : Solid} (h : (Graph.compile nextScope scheme).1.solid? i = some t) :
    t ∈ Scheme.solids scheme := by
  rw [Graph.compile_eq] at h
  refine (Scheme.compile_draws scheme).enclose (List.Subset.refl _) ?_ i t h
  intro j t' ht'
  simp [Builder.view, Graph.solid?, Graph.kind?] at ht'

/-- A variable that a node of a compiled graph stands for is declared in the scheme. -/
theorem Graph.mem_variables_of_compile {nextScope : Nat} {scheme : Scheme SegmentId} {i : Nat}
    {v : Variable SegmentId}
    (h : (Graph.compile nextScope scheme).1.kind? i = some (.var v)) :
    v ∈ Scheme.variables scheme := by
  rw [Scheme.mem_variables_iff]
  exact Graph.mem_solids_of_compile (Graph.solid?_eq_some.mpr h)

end CommandGrammar
