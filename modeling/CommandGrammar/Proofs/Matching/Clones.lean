import CommandGrammar.Proofs.Graph.Coverage
import CommandGrammar.Proofs.Matching.Words

/-!
# `Proofs.Matching.Clones` — a line for every word, also where segments are used again

Clones of a segment have the same identity and share one node, so a graph may take lines that no
word of its scheme takes: from the shared node it goes on wherever one of the places goes on. The
other direction does not suffer. Every line that a word takes is invokable, and it is so along the
nodes of that word.

## Contents
- `invokable_of_word`.
- `copyScheme`: a rest variable that stands in a branch within a group and at the end.
-/

namespace CommandGrammar

/-- **Using segments again loses no line.** Segments may stand in the scheme any number of times and
at any depth, as clones. Then a line that a word of the scheme takes, token by token, has an
invokable match on the nodes of that word, which are the only ones for its segments; the match keeps
the tokens of the line. -/
theorem invokable_of_word (nextScope : Nat) {scheme : Scheme SegmentId}
    (h : Scheme.Cloned scheme) (s : Session) {w : List Solid} {argv : List String}
    (hw : w ∈ Scheme.language scheme) (hall : Solid.AcceptAll s.answers w argv) :
    let g := (Graph.compile nextScope scheme).1
    ∃ m ∈ (s.matches g argv).1, m.isInvokable = true ∧ m.reading g = w.map some ∧
      (∀ ns : List Nat, ns.map g.solid? = w.map some → ns = m.nodes) ∧ m.raws = argv := by
  intro g
  obtain ⟨rank, hr⟩ := Graph.compile_ranked nextScope scheme
  have hu := Graph.compile_uniqueIds nextScope scheme
  have hg := Graph.compile_framed nextScope scheme
  have hspelled : w ∈ g.words (g.targets g.entry) := Graph.compile_covers nextScope h hw
  obtain ⟨ns, hwalk, hreading⟩ := (Graph.exists_wholeWalk hg).mpr ⟨w, hspelled, hall, rfl⟩
  obtain ⟨m, hm, hinvokable, hnodes⟩ := (s.invokable_iff hr hu hg ns).mpr hwalk
  have hread : m.reading g = w.map some := by
    rw [Match.reading, hnodes]
    exact hreading
  refine ⟨m, hm, hinvokable, hread, ?_, ?_⟩
  · intro ns' hns'
    apply hu.eq_of_map_solid? _ (hns'.trans hread.symm)
    intro n hn
    have hsome : g.solid? n ∈ w.map some := hns' ▸ List.mem_map_of_mem hn
    obtain ⟨t, -, ht⟩ := List.mem_map.mp hsome
    exact ⟨t, ht.symm⟩
  · have hwalks := s.walks_of_mem_matches hr hu hg hm
    rw [hinvokable] at hwalks
    exact hwalks.raws_of_whole

/-- `copy [(all | <file>...)] to <file>...` with one and the same file. -/
def copyScheme : Scheme SegmentId :=
  let file : Segment SegmentId := .var ⟨2, "file", none, [], none, true, none, none⟩
  [.keyword ⟨0, "copy", none⟩, .optional [.union [[.keyword ⟨1, "all", none⟩], [file]]],
    .keyword ⟨3, "to", none⟩, file]

/-- `copy a b to c` is a whole line, although the node of the files has been left and is come back
to. -/
theorem invokable_copy_files :
    let g := (Graph.compile 0 copyScheme).1
    let file : Solid := .var ⟨2, "file", none, [], none, true, none, none⟩
    let w : List Solid := [.keyword ⟨0, "copy", none⟩, file, file, .keyword ⟨3, "to", none⟩, file]
    Scheme.Cloned copyScheme ∧ w ∈ Scheme.language copyScheme ∧
    Solid.AcceptAll (Session.fresh []).answers w ["copy", "a", "b", "to", "c"] ∧
    ∃ m ∈ ((Session.fresh []).matches g ["copy", "a", "b", "to", "c"]).1,
      m.isInvokable = true ∧ m.reading g = w.map some := by
  intro g file w
  have hcloned : Scheme.Cloned copyScheme := by
    intro t ht u hu hid
    simp only [copyScheme, Scheme.solids, Segment.solids, Scheme.branchSolids, List.append_nil,
      List.cons_append, List.nil_append, List.mem_cons, List.not_mem_nil, or_false] at ht hu
    rcases ht with rfl | rfl | rfl | rfl | rfl <;> rcases hu with rfl | rfl | rfl | rfl | rfl <;>
      simp [Solid.id] at hid ⊢
  let copy : Solid := .keyword ⟨0, "copy", none⟩
  let into : Solid := .keyword ⟨3, "to", none⟩
  have hcopy : [copy] ∈ copy.segment.language := Solid.mem_language.mpr (Or.inl rfl)
  have hinto : [into] ∈ into.segment.language := Solid.mem_language.mpr (Or.inl rfl)
  have hfile : [file] ∈ file.segment.language := Solid.mem_language.mpr (Or.inl rfl)
  have hfiles : [file, file] ∈ file.segment.language :=
    Solid.mem_language.mpr (Or.inr ⟨rfl, 1, rfl⟩)
  have hbranch : [file, file] ∈ Scheme.language [file.segment] :=
    Scheme.append_mem_language hfiles Scheme.nil_mem_language
  have hunion : [file, file]
      ∈ (Segment.union [[.keyword ⟨1, "all", none⟩], [file.segment]]).language :=
    Segment.mem_language_union.mpr ⟨_, by simp, hbranch⟩
  have hgroup : [file, file] ∈ Scheme.language
      [.union [[.keyword ⟨1, "all", none⟩], [file.segment]]] :=
    Scheme.append_mem_language hunion Scheme.nil_mem_language
  have hw : w ∈ Scheme.language copyScheme :=
    Scheme.append_mem_language hcopy (Scheme.append_mem_language
      (Segment.mem_language_optional.mpr (Or.inl hgroup))
      (Scheme.append_mem_language hinto (Scheme.append_mem_language hfile Scheme.nil_mem_language)))
  have hall : Solid.AcceptAll (Session.fresh []).answers w ["copy", "a", "b", "to", "c"] :=
    .cons (by decide) (.cons (by decide) (.cons (by decide) (.cons (by decide)
      (.cons (by decide) .nil))))
  obtain ⟨m, hm, hinvokable, hreading, -, -⟩ :=
    invokable_of_word 0 hcloned (.fresh []) hw hall
  exact ⟨hcloned, hw, hall, m, hm, hinvokable, hreading⟩

end CommandGrammar
