import CommandGrammar.Proofs.Graph.Order
import CommandGrammar.Proofs.Graph.Wiring

/-!
# `Proofs.Graph.Words` — the words that a graph spells

A way from a node to the exit of the graph spells the solid segments on it. For the nodes of a wired
scheme the spelled words satisfy one equation per node, and these equations determine the words: a
rest variable's node is Arden's lemma, everything else is distributivity. So a scheme that lies
between `first` and `next` spells its language and then what is spelled from `next` on.

If moreover every union offers a branch, no way through the scheme gets stuck.

## Contents
- `Graph.Spells`, `Graph.words`, and the equations for the exit, a marker, a solid node.
- `Scheme.Wired.words_eq`: the words of a wired scheme.
- `Graph.Open`, `Scheme.Wired.allOpen`: no dead ends.
- `Graph.compile_words`, `Graph.compile_allOpen`: compiled graphs.
-/

namespace CommandGrammar

open Computability

/-! ## Ways to the exit -/

/-- The word is spelled on a way from the node to the exit. -/
inductive Graph.Spells (g : Graph) : Nat → List Solid → Prop
  | exit : Spells g g.exit []
  | marker {i j : Nat} {w : List Solid} (hi : g.Inner i) (hj : j ∈ g.targets i)
      (h : Spells g j w) : Spells g i w
  | solid {i j : Nat} {t : Solid} {w : List Solid} (ht : g.solid? i = some t)
      (hj : j ∈ g.targets i) (h : Spells g j w) : Spells g i (t :: w)

/-- The words that are spelled from one of the nodes on. -/
def Graph.words (g : Graph) (starts : Set Nat) : Language Solid :=
  {w | ∃ j ∈ starts, g.Spells j w}

namespace Graph

variable {g : Graph}

theorem mem_words {starts : Set Nat} {w : List Solid} :
    w ∈ g.words starts ↔ ∃ j ∈ starts, g.Spells j w := Iff.rfl

@[simp] theorem words_empty : g.words ∅ = 0 := by
  ext w
  rw [mem_words]
  simp

theorem words_insert (i : Nat) (starts : Set Nat) :
    g.words (insert i starts) = g.words {i} + g.words starts := by
  ext w
  rw [Language.mem_add, mem_words, mem_words, mem_words]
  simp

/-- From the exit, only the empty word. -/
theorem words_exit (hexit : g.IsMarker g.exit) : g.words {g.exit} = 1 := by
  ext w
  rw [Language.mem_one, mem_words]
  constructor
  · rintro ⟨j, rfl, h⟩
    cases h with
    | exit => rfl
    | marker hi hj h => exact absurd rfl hi.2
    | solid ht hj h => exact absurd ht (hexit.solid?_ne_some _)
  · rintro rfl
    exact ⟨g.exit, rfl, .exit⟩

/-- A marker is passed for free. -/
theorem words_inner {i : Nat} (hi : g.Inner i) : g.words {i} = g.words (g.targets i) := by
  ext w
  rw [mem_words, mem_words]
  constructor
  · rintro ⟨j, rfl, h⟩
    cases h with
    | exit => exact absurd rfl hi.2
    | marker _ hj h => exact ⟨_, hj, h⟩
    | solid ht hj h => exact absurd ht (hi.1.solid?_ne_some _)
  · rintro ⟨j, hj, h⟩
    exact ⟨i, rfl, .marker hi hj h⟩

/-- A solid node spells its segment. -/
theorem words_solid (hexit : g.IsMarker g.exit) {i : Nat} {t : Solid} (ht : g.solid? i = some t) :
    g.words {i} = {[t]} * g.words (g.targets i) := by
  ext w
  rw [mem_words, Language.mem_mul]
  constructor
  · rintro ⟨j, rfl, h⟩
    cases h with
    | exit => exact absurd ht (hexit.solid?_ne_some _)
    | marker hi hj h => exact absurd ht (hi.1.solid?_ne_some _)
    | solid ht' hj h =>
        rw [ht] at ht'
        injection ht' with heq
        rw [heq]
        exact ⟨[_], rfl, _, ⟨_, hj, h⟩, rfl⟩
  · rintro ⟨a, rfl, b, ⟨j, hj, h⟩, rfl⟩
    exact ⟨i, rfl, .solid ht hj h⟩

end Graph

/-! ## The words of a wired scheme -/

section

variable {g : Graph} {next first : Set Nat}

theorem Solid.Wired.words_eq (hexit : g.IsMarker g.exit) {t : Solid} (h : t.Wired g next first) :
    g.words first = t.segment.language * g.words next := by
  obtain ⟨n, ht, rfl, htargets⟩ := h
  have hwords := g.words_solid hexit ht
  rw [htargets] at hwords
  rw [Solid.language_segment]
  cases hr : t.repeats with
  | false => rwa [hr] at hwords
  | true =>
      -- The node follows itself, so its words stand on both sides of their equation.
      rw [hr, if_pos rfl, Graph.words_insert, mul_add] at hwords
      have hnil : [] ∉ ({[t]} : Language Solid) := by
        intro hmem
        exact absurd hmem (List.cons_ne_nil t []).symm
      rw [if_pos rfl, (Language.self_eq_mul_add_iff hnil).mp hwords, ← mul_assoc,
        Language.mul_self_kstar_comm]

theorem Scheme.BranchesWired.words_eq {branches : List (Scheme SegmentId)} {exit : Nat}
    (hbranches : ∀ branch ∈ branches, ∀ next first, Scheme.Wired g next first branch →
      g.words first = Scheme.language branch * g.words next)
    (h : Scheme.BranchesWired g exit first branches) :
    g.words first = Scheme.branchLanguage branches * g.words {exit} := by
  induction branches generalizing first with
  | nil =>
      rw [show first = ∅ from h, Graph.words_empty, Scheme.branchLanguage, zero_mul]
  | cons branch rest ih =>
      obtain ⟨entry, out, others, hentry, hout, rfl, htargets, hbranch, hrest⟩ := h
      have hfirst := hbranches branch (by simp) _ _ hbranch
      have hothers := ih (fun c hc => hbranches c (List.mem_cons_of_mem branch hc)) hrest
      rw [Graph.words_insert, Graph.words_inner hentry, hfirst, Graph.words_inner hout, htargets,
        hothers, Scheme.branchLanguage, add_mul]

/-- **A wired scheme spells its language**, and then what follows it. -/
theorem Scheme.Wired.words_eq (hexit : g.IsMarker g.exit) {scheme : Scheme SegmentId}
    (h : Scheme.Wired g next first scheme) :
    g.words first = Scheme.language scheme * g.words next := by
  induction scheme using Scheme.induct generalizing next first with
  | nil =>
      rw [show first = next from h, Scheme.language, one_mul]
  | solid t rest ih =>
      obtain ⟨middle, ht, hrest⟩ := Scheme.wired_solid.mp h
      rw [ht.words_eq hexit, ih hrest, Scheme.language, mul_assoc]
  | optional inner rest ihinner ihrest =>
      obtain ⟨middle, ⟨entry, exit, hentry, hout, rfl, htargets, hinner⟩, hrest⟩ := h
      have hgroup := ihinner hinner
      rw [Graph.words_inner hout, htargets] at hgroup
      rw [Graph.words_insert, Graph.words_inner hentry, hgroup, ← add_one_mul, ihrest hrest,
        Scheme.language, mul_assoc]
      rfl
  | union branches rest ihbranches ihrest =>
      obtain ⟨middle, ⟨entry, exit, hentry, hout, rfl, htargets, hbranches⟩, hrest⟩ := h
      have hunion := hbranches.words_eq fun branch hb _ _ hw => ihbranches branch hb hw
      rw [Graph.words_inner hout, htargets] at hunion
      rw [Graph.words_inner hentry, hunion, ihrest hrest, Scheme.language, mul_assoc]
      rfl

/-! ## No dead ends -/

/-- Wherever links lead from the node, there is a way on to the exit. -/
def Graph.Open (g : Graph) (i : Nat) : Prop :=
  ∀ k, Relation.ReflTransGen (fun i j => j ∈ g.targets i) i k → ∃ w, g.Spells k w

/-- The set offers a node, and every node in it is open. -/
def Graph.AllOpen (g : Graph) (starts : Set Nat) : Prop :=
  starts.Nonempty ∧ ∀ j ∈ starts, g.Open j

namespace Graph

theorem Open.spells {i : Nat} (h : g.Open i) : ∃ w, g.Spells i w := h i .refl

theorem Open.target {i j : Nat} (h : g.Open i) (hj : j ∈ g.targets i) : g.Open j :=
  fun k hk => h k (.head hj hk)

/-- A node is open if there is a way from it to the exit and every link leads back to it or to an
open node. -/
theorem open_of_targets {i : Nat} (hi : ∃ w, g.Spells i w)
    (h : ∀ j ∈ g.targets i, j = i ∨ g.Open j) : g.Open i := by
  intro k hk
  -- A path has either stayed at the node or has come to an open one on its way.
  have hpath : k = i ∨ ∃ m, g.Open m ∧ Relation.ReflTransGen (fun i j => j ∈ g.targets i) m k := by
    induction hk with
    | refl => exact Or.inl rfl
    | @tail a b _ hb ih =>
        rcases ih with rfl | ⟨m, hm, hpath⟩
        · rcases h b hb with hb | hb
          · exact Or.inl hb
          · exact Or.inr ⟨b, hb, .refl⟩
        · exact Or.inr ⟨m, hm, hpath.tail hb⟩
  rcases hpath with rfl | ⟨m, hm, hpath⟩
  · exact hi
  · exact hm k hpath

theorem AllOpen.inner {i : Nat} (hi : g.Inner i) (h : g.AllOpen (g.targets i)) : g.Open i := by
  obtain ⟨⟨j, hj⟩, hall⟩ := h
  obtain ⟨w, hw⟩ := (hall j hj).spells
  exact open_of_targets ⟨w, .marker hi hj hw⟩ fun k hk => Or.inr (hall k hk)

theorem AllOpen.singleton {i : Nat} (h : g.Open i) : g.AllOpen {i} := by
  refine ⟨⟨i, rfl⟩, ?_⟩
  rintro j rfl
  exact h

theorem AllOpen.insert {i : Nat} {starts : Set Nat} (hi : g.Open i)
    (h : ∀ j ∈ starts, g.Open j) : g.AllOpen (insert i starts) := by
  refine ⟨⟨i, Set.mem_insert i starts⟩, ?_⟩
  rintro j (rfl | hj)
  · exact hi
  · exact h j hj

end Graph

theorem Solid.Wired.allOpen {t : Solid} (h : t.Wired g next first) (hnext : g.AllOpen next) :
    g.AllOpen first := by
  obtain ⟨n, ht, rfl, htargets⟩ := h
  obtain ⟨⟨j, hj⟩, hall⟩ := hnext
  obtain ⟨w, hw⟩ := (hall j hj).spells
  refine Graph.AllOpen.singleton (Graph.open_of_targets ?_ ?_)
  · have hj' : j ∈ g.targets n := by
      rw [htargets]
      split
      · exact Set.mem_insert_of_mem n hj
      · exact hj
    exact ⟨t :: w, .solid ht hj' hw⟩
  · intro k hk
    rw [htargets] at hk
    split at hk
    · rcases hk with hk | hk
      · exact Or.inl hk
      · exact Or.inr (hall k hk)
    · exact Or.inr (hall k hk)

theorem Scheme.BranchesWired.allOpen {branches : List (Scheme SegmentId)} {exit : Nat}
    (hbranches : ∀ branch ∈ branches, ∀ next first, Scheme.choosable branch = true →
      Scheme.Wired g next first branch → g.AllOpen next → g.AllOpen first)
    (hchoosable : Scheme.branchesChoosable branches = true)
    (h : Scheme.BranchesWired g exit first branches) (hexit : g.Open exit) :
    (branches ≠ [] → first.Nonempty) ∧ ∀ j ∈ first, g.Open j := by
  induction branches generalizing first with
  | nil =>
      rw [show first = ∅ from h]
      exact ⟨fun hne => absurd rfl hne, fun j hj => absurd hj (Set.notMem_empty j)⟩
  | cons branch rest ih =>
      obtain ⟨entry, out, others, hentry, hout, rfl, htargets, hbranch, hrest⟩ := h
      rw [Scheme.branchesChoosable, Bool.and_eq_true] at hchoosable
      have hopen : g.Open out := by
        refine Graph.AllOpen.inner hout ?_
        rw [htargets]
        exact .singleton hexit
      have hfirst := hbranches branch (by simp) _ _ hchoosable.1 hbranch (.singleton hopen)
      obtain ⟨-, hothers⟩ := ih (fun c hc => hbranches c (List.mem_cons_of_mem branch hc))
        hchoosable.2 hrest
      obtain ⟨hne, hall⟩ := Graph.AllOpen.insert (hfirst.inner hentry) hothers
      exact ⟨fun _ => hne, hall⟩

/-- **A wired scheme whose unions all offer a branch has no dead ends.** -/
theorem Scheme.Wired.allOpen {scheme : Scheme SegmentId}
    (hchoosable : Scheme.choosable scheme = true) (h : Scheme.Wired g next first scheme)
    (hnext : g.AllOpen next) : g.AllOpen first := by
  induction scheme using Scheme.induct generalizing next first with
  | nil =>
      rw [show first = next from h]
      exact hnext
  | solid t rest ih =>
      obtain ⟨middle, ht, hrest⟩ := Scheme.wired_solid.mp h
      rw [Scheme.choosable, Bool.and_eq_true] at hchoosable
      exact ht.allOpen (ih hchoosable.2 hrest hnext)
  | optional inner rest ihinner ihrest =>
      obtain ⟨middle, ⟨entry, exit, hentry, hout, rfl, htargets, hinner⟩, hrest⟩ := h
      rw [Scheme.choosable, Segment.choosable, Bool.and_eq_true] at hchoosable
      have hmiddle := ihrest hchoosable.2 hrest hnext
      have hopen : g.Open exit := by
        refine Graph.AllOpen.inner hout ?_
        rwa [htargets]
      exact .insert ((ihinner hchoosable.1 hinner (.singleton hopen)).inner hentry) hmiddle.2
  | union branches rest ihbranches ihrest =>
      obtain ⟨middle, ⟨entry, exit, hentry, hout, rfl, htargets, hbranches⟩, hrest⟩ := h
      rw [Scheme.choosable, Segment.choosable, Bool.and_eq_true, Bool.and_eq_true] at hchoosable
      have hmiddle := ihrest hchoosable.2 hrest hnext
      have hopen : g.Open exit := by
        refine Graph.AllOpen.inner hout ?_
        rwa [htargets]
      have hne : branches ≠ [] := by simpa using hchoosable.1.1
      obtain ⟨hnonempty, hall⟩ := hbranches.allOpen
        (fun branch hb _ _ hc hw => ihbranches branch hb hc hw) hchoosable.1.2 hopen
      exact .singleton (Graph.AllOpen.inner hentry ⟨hnonempty hne, hall⟩)

end

/-! ## Compiled graphs -/

/-- **The graph of a scheme without repetitions spells the scheme's language.** -/
theorem Graph.compile_words (nextScope : Nat) {scheme : Scheme SegmentId}
    (h : Scheme.Distinct scheme) :
    let g := (Graph.compile nextScope scheme).1
    g.words (g.targets g.entry) = Scheme.language scheme := by
  intro g
  have hexit : g.IsMarker g.exit := ⟨nextScope, false, Graph.compile_kind?_exit nextScope scheme⟩
  rw [(Graph.compile_wired nextScope h).words_eq hexit, Graph.words_exit hexit, mul_one]

/-- In the graph of a scheme whose unions all offer a branch, the entry leads to no dead end. -/
theorem Graph.compile_allOpen (nextScope : Nat) {scheme : Scheme SegmentId}
    (h : Scheme.Distinct scheme) (hchoosable : Scheme.choosable scheme = true) :
    let g := (Graph.compile nextScope scheme).1
    g.AllOpen (g.targets g.entry) := by
  intro g
  have hexit : g.Open g.exit := by
    refine Graph.open_of_targets ⟨[], .exit⟩ ?_
    intro j hj
    have hnone := Graph.compile_successors_exit nextScope scheme
    exact absurd hj (by rw [Graph.targets, Set.mem_ofPred_eq, hnone]; simp)
  exact (Graph.compile_wired nextScope h).allOpen hchoosable (.singleton hexit)

end CommandGrammar
