import CommandGrammar.Proofs.Graph.Coverage

/-!
# `Proofs.Graph.Trim` — every node lies on a way from the entry to the exit

While a scope is under construction its last node and the exits of its pending groups have no
successors yet, so nothing can be said about ways to the exit until the scope is closed. As in
`Proofs.Graph.Coverage` the statement is about every graph that the closed scope grows into: there
the dues of the scope are paid, and every node that the compilation added lies on a way from the
node that the scope stood at to the exit (`Graph.Spans`). That a node is shared by several places of
the scheme only makes for more ways.

A union without branches is a wall. All schemes here offer a branch in every union.

## Contents
- `Graph.Path`: ways along links, and the steps that a compilation makes.
- `Graph.Spans`, `Scheme.Spans`: the nodes between a place and an exit; one lemma per kind of
  segment.
- `Graph.Trim`, `Graph.compile_trim`: every node of a compiled graph.
- `Graph.GoesOn`, `Graph.compile_goesOn`: in particular, every node but the exit has a successor.
-/

namespace CommandGrammar

open Relation (ReflTransGen)

/-! ## Ways along links -/

/-- From one node there are links to the other, none or several. -/
def Graph.Path (g : Graph) : Nat → Nat → Prop :=
  ReflTransGen fun i j => j ∈ g.successors i

namespace Graph

variable {g : Graph} {i j k : Nat}

theorem Path.refl (i : Nat) : g.Path i i := ReflTransGen.refl

theorem Path.link (h : j ∈ g.successors i) : g.Path i j := ReflTransGen.single h

theorem Path.trans (h : g.Path i j) (h' : g.Path j k) : g.Path i k := ReflTransGen.trans h h'

/-- Every node from `first` up to `last` lies on a way from the source to the exit. -/
def Spans (g : Graph) (source exit first last : Nat) : Prop :=
  ∀ i, first ≤ i → i < last → g.Path source i ∧ g.Path i exit

/-- The nodes that come next in a scope: there are some, and each leads to the exit. -/
structure Leading (g : Graph) (first : List Nat) (exit : Nat) : Prop where
  ne_nil : first ≠ []
  path : ∀ j ∈ first, g.Path j exit

theorem Leading.singleton (h : g.Path i k) : g.Leading [i] k := by
  refine ⟨List.cons_ne_nil _ _, ?_⟩
  intro j hj
  rw [List.mem_singleton.mp hj]
  exact h

theorem Leading.cons {first : List Nat} (h : g.Leading first k) (hi : g.Path i k) :
    g.Leading (i :: first) k := by
  refine ⟨List.cons_ne_nil _ _, ?_⟩
  intro j hj
  rcases List.mem_cons.mp hj with rfl | hj
  · exact hi
  · exact h.path j hj

/-- A node that leads to all that comes next leads to the exit. -/
theorem Leading.path_of_subset {first : List Nat} (h : g.Leading first k)
    (hsub : first ⊆ g.successors i) : g.Path i k := by
  obtain ⟨j, hj⟩ := List.exists_mem_of_ne_nil first h.ne_nil
  exact (Path.link (hsub hj)).trans (h.path j hj)

end Graph

/-! ## One segment after the other -/

/-- In every graph that the compilation of the scheme up to an exit grows into, the scope has been
paid with nodes that lead to the exit, and what the compilation adds lies between the node that the
scope stands at and the exit. -/
def Scheme.Spans (scheme : Scheme SegmentId) : Prop :=
  ∀ (s : Scope) (exit : Nat) (g : Graph), s.Tidy → exit < s.builder.size →
    Scheme.choosable scheme = true → ((Scheme.compile s scheme).close exit).Within g →
    ∃ first, s.Paid g first ∧ g.Leading first exit ∧
      g.Spans s.current exit s.builder.size ((Scheme.compile s scheme).close exit).size

/-- The only node that a solid segment adds is the one that the scope goes on from. -/
theorem Scope.eq_current_of_solid {s : Scope} {t : Solid} {i : Nat} (hi : s.builder.size ≤ i)
    (hlt : i < (s.solid t.kind t.repeats).builder.size) :
    i = (s.solid t.kind t.repeats).current := by
  show i = (s.builder.solid t.kind).1
  rw [size_solid] at hlt
  rcases s.builder.solid_cases t with ⟨j, t', -, -, h⟩ | ⟨-, h⟩
  · rw [h] at hlt
    exact absurd hi (Nat.not_le.mpr hlt)
  · rw [h, Builder.size_push] at hlt
    rw [h]
    show i = s.builder.size
    omega

namespace Scheme.Spans

variable {g : Graph}

theorem nil : Scheme.Spans [] := by
  intro s exit g hs _ _ hin
  refine ⟨[exit], Scope.paid_close hs hin, .singleton (.refl exit), ?_⟩
  intro i hi hlt
  rw [Scheme.compile_nil, Scope.size_close] at hlt
  exact absurd hi (Nat.not_le.mpr hlt)

theorem solid (t : Solid) {rest : Scheme SegmentId} (h : Scheme.Spans rest) :
    Scheme.Spans (t.segment :: rest) := by
  intro s exit g hs hexit hchoosable hin
  obtain ⟨hs', hsize, hstep⟩ := hin.segment hs hexit
  rw [Segment.compile_solid] at hs' hsize hstep
  rw [Scheme.compile_cons, Segment.compile_solid] at hin ⊢
  rw [Scheme.choosable, Bool.and_eq_true] at hchoosable
  obtain ⟨middle, hpaid, hlead, hspans⟩ := h _ exit g hs' (by omega) hchoosable.2 hin
  have hfirst := Scope.paid_solid hs.toInArena hstep
  -- The node comes next, and all that comes next after it follows it.
  have hnode : g.Path s.current (s.solid t.kind t.repeats).current :=
    .link (hfirst.current (List.mem_singleton_self _))
  have hleave := hlead.path_of_subset hpaid.current
  refine ⟨_, hfirst, .singleton hleave, ?_⟩
  intro i hi hlt
  by_cases hnew : i < (s.solid t.kind t.repeats).builder.size
  · rw [Scope.eq_current_of_solid hi hnew]
    exact ⟨hnode, hleave⟩
  · obtain ⟨hreach, hout⟩ := hspans i (Nat.le_of_not_lt hnew) hlt
    exact ⟨hnode.trans hreach, hout⟩

/-- A closed scope lies between its markers. -/
theorem enclosed {inner : Scheme SegmentId} (h : Scheme.Spans inner) {b : Builder}
    (hchoosable : Scheme.choosable inner = true) (hin : (b.enclose inner).Within g) :
    g.Spans b.size (b.size + 1) b.size (b.enclose inner).size := by
  have hsize := b.size_marked
  have hexit : b.size + 1 < b.marked.size := by omega
  obtain ⟨first, hpaid, hlead, hspans⟩ := h ⟨b.marked, b.size, []⟩ (b.size + 1) g
    (Scope.tidy_enclosed b) hexit hchoosable hin
  have hpass : g.Path b.size (b.size + 1) := hlead.path_of_subset hpaid.current
  intro i hi hlt
  rcases Nat.lt_trichotomy i (b.size + 1) with hlow | rfl | hhigh
  · rw [show i = b.size by omega]
    exact ⟨.refl _, hpass⟩
  · exact ⟨hpass, .refl _⟩
  · apply hspans i _ hlt
    show b.marked.size ≤ i
    omega

theorem optional {inner rest : Scheme SegmentId} (hinner : Scheme.Spans inner)
    (hrest : Scheme.Spans rest) : Scheme.Spans (.optional inner :: rest) := by
  intro s exit g hs hexit hchoosable hin
  obtain ⟨hs', hsize, hstep⟩ := hin.segment hs hexit
  rw [Segment.compile_optional] at hs' hsize hstep
  rw [Scheme.compile_cons, Segment.compile_optional] at hin ⊢
  rw [Scheme.choosable, Segment.choosable, Bool.and_eq_true] at hchoosable
  obtain ⟨middle, hpaid, hlead, hspans⟩ := hrest _ exit g hs' (by omega) hchoosable.2 hin
  obtain ⟨hfirst, hout⟩ := hpaid.group hs.toInArena hstep
  have hle := s.builder.size_add_two_le_enclose inner
  have hgroup : (s.group inner).builder.size = (s.builder.enclose inner).size :=
    Builder.size_link _ _ _
  have henclosed : (s.builder.enclose inner).Within g :=
    hstep.earlier (l := []) (.link s.current (by omega))
  have hbetween := hinner.enclosed hchoosable.1 henclosed
  have henter : g.Path s.current s.builder.size := .link (hfirst.current List.mem_cons_self)
  have hleave : g.Path (s.builder.size + 1) exit := hlead.path_of_subset hout
  have hpass := (hbetween s.builder.size (Nat.le_refl _) (by omega)).2
  refine ⟨_, hfirst, hlead.cons (hpass.trans hleave), ?_⟩
  intro i hi hlt
  by_cases hnew : i < (s.builder.enclose inner).size
  · obtain ⟨hreach, hback⟩ := hbetween i hi hnew
    exact ⟨henter.trans hreach, hback.trans hleave⟩
  · exact hspans i (by omega) hlt

/-- Branches lie between the markers of their union, and if there is one, it leads through. -/
theorem branches {branches : List (Scheme SegmentId)}
    (h : ∀ branch ∈ branches, Scheme.Spans branch)
    (hchoosable : Scheme.branchesChoosable branches = true) {b : Builder} {entry exit : Nat}
    (hentry : entry < b.size) (hexit : exit < b.size)
    (hin : (Scheme.compileBranches entry exit b branches).Within g) :
    (branches ≠ [] → g.Path entry exit) ∧
      g.Spans entry exit b.size (Scheme.compileBranches entry exit b branches).size := by
  induction branches generalizing b with
  | nil =>
      refine ⟨fun hne => absurd rfl hne, ?_⟩
      intro i hi hlt
      exact absurd hi (Nat.not_le.mpr hlt)
  | cons branch rest ih =>
      rw [Scheme.compileBranches_cons] at hin ⊢
      rw [Scheme.branchesChoosable, Bool.and_eq_true] at hchoosable
      have hgrow := b.branch_grows (l := []) entry hexit branch
      have hsize := hgrow.size_le
      have hle := b.size_add_two_le_enclose branch
      have hstep := hin.earlier (Scheme.compileBranches_grows rest entry (by omega))
      obtain ⟨hmem, hleave⟩ := hstep.branch hentry
      obtain ⟨-, hothers⟩ := ih (fun c hc => h c (List.mem_cons_of_mem branch hc)) hchoosable.2
        (by omega) (by omega) hin
      have hbetween := (h branch (by simp)).enclosed hchoosable.1 (hstep.earlier hgrow)
      have hthrough : ∀ i, b.size ≤ i → i < (b.enclose branch).size →
          g.Path entry i ∧ g.Path i exit := by
        intro i hi hlt
        obtain ⟨hreach, hback⟩ := hbetween i hi hlt
        exact ⟨(Graph.Path.link hmem).trans hreach, hback.trans (.link hleave)⟩
      refine ⟨fun _ => ?_, ?_⟩
      · exact (Graph.Path.link hmem).trans (hthrough b.size (Nat.le_refl _) (by omega)).2
      · intro i hi hlt
        by_cases hnew : i < (b.enclose branch).size
        · exact hthrough i hi hnew
        · apply hothers i _ hlt
          rw [Builder.size_branch]
          omega

theorem union {branches : List (Scheme SegmentId)} {rest : Scheme SegmentId}
    (hbranches : ∀ branch ∈ branches, Scheme.Spans branch) (hrest : Scheme.Spans rest) :
    Scheme.Spans (.union branches :: rest) := by
  intro s exit g hs hexit hchoosable hin
  obtain ⟨hs', hsize, hstep⟩ := hin.segment hs hexit
  rw [Segment.compile_union] at hs' hsize hstep
  rw [Scheme.compile_cons, Segment.compile_union] at hin ⊢
  rw [Scheme.choosable, Segment.choosable, Bool.and_eq_true, Bool.and_eq_true] at hchoosable
  obtain ⟨middle, hpaid, hlead, hspans⟩ := hrest _ exit g hs' (by omega) hchoosable.2 hin
  have hstart := s.size_choiceStart
  have hwithin := hstep.earlier
    (Scheme.compileBranches_grows branches s.builder.size (by omega))
  obtain ⟨hpass, hbetween⟩ := Scheme.Spans.branches hbranches hchoosable.1.2 (by omega) (by omega)
    hstep
  have hfirst := Scope.paid_choiceStart hs.toInArena hwithin
  have hnonempty : branches ≠ [] := by simpa using hchoosable.1.1
  have hthrough := hpass hnonempty
  have henter : g.Path s.current s.builder.size :=
    .link (hfirst.current (List.mem_singleton_self _))
  have hleave : g.Path (s.builder.size + 1) exit := hlead.path_of_subset hpaid.current
  refine ⟨_, hfirst, .singleton (hthrough.trans hleave), ?_⟩
  intro i hi hlt
  by_cases hnew : i < (s.choice branches).builder.size
  · -- The two markers of the union, and the branches between them.
    rcases Nat.lt_trichotomy i (s.builder.size + 1) with hlow | rfl | hhigh
    · rw [show i = s.builder.size by omega]
      exact ⟨henter, hthrough.trans hleave⟩
    · exact ⟨henter.trans hthrough, hleave⟩
    · obtain ⟨hreach, hback⟩ := hbetween i (by omega) hnew
      exact ⟨henter.trans hreach, hback.trans hleave⟩
  · obtain ⟨hreach, hback⟩ := hspans i (Nat.le_of_not_lt hnew) hlt
    exact ⟨(henter.trans hthrough).trans hreach, hback⟩

end Scheme.Spans

theorem Scheme.compile_spans (scheme : Scheme SegmentId) : Scheme.Spans scheme := by
  induction scheme using Scheme.induct with
  | nil => exact .nil
  | solid t rest ih => exact .solid t ih
  | optional inner rest ihinner ihrest => exact .optional ihinner ihrest
  | union branches rest ihbranches ihrest => exact .union ihbranches ihrest

/-! ## Compiled graphs -/

/-- Every node is reached from the entry, and reaches the exit. -/
structure Graph.Trim (g : Graph) : Prop where
  reached : ∀ i < g.nodes.size, g.Path g.entry i
  leaves : ∀ i < g.nodes.size, g.Path i g.exit

/-- **The graph of a scheme whose unions all offer a branch is trim**, also where segments are used
again. -/
theorem Graph.compile_trim (nextScope : Nat) {scheme : Scheme SegmentId}
    (h : Scheme.choosable scheme = true) : (Graph.compile nextScope scheme).1.Trim := by
  have hin : ((⟨#[], nextScope⟩ : Builder).enclose scheme).Within
      (Graph.compile nextScope scheme).1 := .refl _
  have hspans := (Scheme.compile_spans scheme).enclosed h hin
  exact ⟨fun i hi => (hspans i (Nat.zero_le i) hi).1, fun i hi => (hspans i (Nat.zero_le i) hi).2⟩

/-- Something follows every node but the exit. -/
def Graph.GoesOn (g : Graph) : Prop :=
  ∀ i < g.nodes.size, i ≠ g.exit → g.successors i ≠ []

/-- A way to the exit begins with a link, unless it is over. -/
theorem Graph.Trim.goesOn {g : Graph} (h : g.Trim) : g.GoesOn := by
  intro i hi hne
  rcases (h.leaves i hi).cases_head with heq | ⟨j, hj, -⟩
  · exact absurd heq hne
  · exact List.ne_nil_of_mem hj

/-- **In the graph of a scheme whose unions all offer a branch, something follows every node but the
exit**, also where segments are used again. -/
theorem Graph.compile_goesOn (nextScope : Nat) {scheme : Scheme SegmentId}
    (h : Scheme.choosable scheme = true) : (Graph.compile nextScope scheme).1.GoesOn :=
  (Graph.compile_trim nextScope h).goesOn

end CommandGrammar
