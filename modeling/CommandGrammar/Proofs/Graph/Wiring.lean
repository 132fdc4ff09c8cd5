import CommandGrammar.Proofs.Graph.Dues
import Mathlib.Data.Set.Insert

/-!
# `Proofs.Graph.Wiring` — how a scheme without repetitions lies in the graph

`Scheme.Laid` says what a correct graph looks like from outside: from which nodes a scheme is begun
when it is to be followed by given nodes, and what follows each node inside, in the order in which
it is tried. It is defined along the scheme and knows nothing of builders or pending groups. For
what a graph accepts the order does not matter, and `Scheme.Wired` says the same of sets of nodes.

A scope under construction still has dues (`Scope.dues`). The invariant is that the rest of the
scheme pays exactly these (`Scope.Settles`), with links to new nodes or the exit
(`Graph.Opens`), and lies laid out between the new nodes.

## Contents
- `Graph.targets`: successors as a set.
- `Segment.Wired`, `Scheme.Wired`: the layout up to the order of links.
- `Segment.Laid`, `Scheme.Laid`: the layout; `Scheme.Laid.wired`.
- `Graph.Holds`, `Builder.Lacks`: parts of an arena.
- `Scope.Settles`, `Scheme.LaysOut`, `Scheme.compile_laysOut`: the compilation.
- `Graph.compile_laid`, `Graph.compile_wired`: every scheme without repetitions is laid out so.
-/

namespace CommandGrammar

/-! ## Successors as a set -/

/-- The nodes that follow a node. -/
def Graph.targets (g : Graph) (i : Nat) : Set Nat :=
  {j | j ∈ g.successors i}

/-- A marker at which no line ends: it is not the exit of the whole scheme. -/
def Graph.Inner (g : Graph) (i : Nat) : Prop :=
  g.IsMarker i ∧ i ≠ g.exit

/-! ## The layout -/

/-- A node for the segment: a node before it leads to it, it leads to the nodes in `next`, and to
itself if it repeats. -/
def Solid.Wired (g : Graph) (next first : Set Nat) (t : Solid) : Prop :=
  ∃ n, g.solid? n = some t ∧ first = {n} ∧
    g.targets n = if t.repeats then insert n next else next

mutual

/-- The segment lies in the graph so that a node before it leads to the nodes in `first` and it
leads to the nodes in `next`. -/
def Segment.Wired (g : Graph) (next first : Set Nat) : Segment SegmentId → Prop
  | .keyword k => (Solid.keyword k).Wired g next first
  | .var v => (Solid.var v).Wired g next first
  | .optional inner =>
    ∃ entry exit, g.Inner entry ∧ g.Inner exit ∧ first = insert entry next ∧
      g.targets exit = next ∧ Scheme.Wired g {exit} (g.targets entry) inner
  | .union branches =>
    ∃ entry exit, g.Inner entry ∧ g.Inner exit ∧ first = {entry} ∧
      g.targets exit = next ∧ Scheme.BranchesWired g exit (g.targets entry) branches

/-- The scheme lies in the graph so that a node before it leads to the nodes in `first` and it leads
to the nodes in `next`. -/
def Scheme.Wired (g : Graph) (next first : Set Nat) : Scheme SegmentId → Prop
  | [] => first = next
  | x :: rest => ∃ middle, x.Wired g middle first ∧ Scheme.Wired g next middle rest

/-- The branches lie in the graph so that they begin at the nodes in `first` and all lead to the
exit of their union. -/
def Scheme.BranchesWired (g : Graph) (unionExit : Nat) (first : Set Nat) :
    List (Scheme SegmentId) → Prop
  | [] => first = ∅
  | branch :: rest =>
    ∃ entry exit others, g.Inner entry ∧ g.Inner exit ∧ first = insert entry others ∧
      g.targets exit = {unionExit} ∧ Scheme.Wired g {exit} (g.targets entry) branch ∧
      Scheme.BranchesWired g unionExit others rest

end

theorem Scheme.wired_solid {g : Graph} {next first : Set Nat} {t : Solid}
    {rest : Scheme SegmentId} :
    Scheme.Wired g next first (t.segment :: rest) ↔
      ∃ middle, t.Wired g middle first ∧ Scheme.Wired g next middle rest := by
  cases t <;> rfl

/-! ## The layout with the order of links -/

/-- A node for the segment: it alone is tried first, and it leads to itself if it repeats, and then
to the nodes in `next`. -/
def Solid.Laid (g : Graph) (next first : List Nat) (t : Solid) : Prop :=
  ∃ n, g.solid? n = some t ∧ first = [n] ∧
    g.successors n = if t.repeats then n :: next else next

mutual

/-- The segment lies in the graph so that a node before it leads to the nodes in `first` and it
leads to the nodes in `next`, both in their order. -/
def Segment.Laid (g : Graph) (next first : List Nat) : Segment SegmentId → Prop
  | .keyword k => (Solid.keyword k).Laid g next first
  | .var v => (Solid.var v).Laid g next first
  | .optional inner =>
    ∃ entry exit, g.Inner entry ∧ g.Inner exit ∧ first = entry :: next ∧
      g.successors exit = next ∧ Scheme.Laid g [exit] (g.successors entry) inner
  | .union branches =>
    ∃ entry exit, g.Inner entry ∧ g.Inner exit ∧ first = [entry] ∧
      g.successors exit = next ∧ Scheme.BranchesLaid g exit (g.successors entry) branches

/-- The scheme lies in the graph so that a node before it leads to the nodes in `first` and it leads
to the nodes in `next`, both in their order. -/
def Scheme.Laid (g : Graph) (next first : List Nat) : Scheme SegmentId → Prop
  | [] => first = next
  | x :: rest => ∃ middle, x.Laid g middle first ∧ Scheme.Laid g next middle rest

/-- The branches lie in the graph so that they begin at the nodes in `first`, in their order, and
all lead to the exit of their union. -/
def Scheme.BranchesLaid (g : Graph) (unionExit : Nat) (first : List Nat) :
    List (Scheme SegmentId) → Prop
  | [] => first = []
  | branch :: rest =>
    ∃ entry exit others, g.Inner entry ∧ g.Inner exit ∧ first = entry :: others ∧
      g.successors exit = [unionExit] ∧ Scheme.Laid g [exit] (g.successors entry) branch ∧
      Scheme.BranchesLaid g unionExit others rest

end

theorem Scheme.laid_solid {g : Graph} {next first : List Nat} {t : Solid}
    {rest : Scheme SegmentId} :
    Scheme.Laid g next first (t.segment :: rest) ↔
      ∃ middle, t.Laid g middle first ∧ Scheme.Laid g next middle rest := by
  cases t <;> rfl

/-! ### Leaving the order out -/

section

variable {g : Graph} {next first : List Nat}

/-- The members of a list. -/
def Graph.members (l : List Nat) : Set Nat := {j | j ∈ l}

theorem Graph.targets_eq_members (g : Graph) (i : Nat) :
    g.targets i = Graph.members (g.successors i) := rfl

@[simp] theorem Graph.members_nil : Graph.members [] = ∅ := by
  ext j
  simp [Graph.members]

@[simp] theorem Graph.members_cons (i : Nat) (l : List Nat) :
    Graph.members (i :: l) = insert i (Graph.members l) := by
  ext j
  simp [Graph.members]

theorem Graph.members_singleton (i : Nat) : Graph.members [i] = {i} := by
  rw [Graph.members_cons, Graph.members_nil, insert_empty_eq]

theorem Solid.Laid.wired {t : Solid} (h : t.Laid g next first) :
    t.Wired g (Graph.members next) (Graph.members first) := by
  obtain ⟨n, ht, rfl, hnext⟩ := h
  refine ⟨n, ht, Graph.members_singleton n, ?_⟩
  rw [Graph.targets_eq_members, hnext]
  cases t.repeats with
  | false => rfl
  | true => exact Graph.members_cons n next

theorem Scheme.BranchesLaid.wired {branches : List (Scheme SegmentId)} {exit : Nat}
    (hbranches : ∀ branch ∈ branches, ∀ next first, Scheme.Laid g next first branch →
      Scheme.Wired g (Graph.members next) (Graph.members first) branch)
    (h : Scheme.BranchesLaid g exit first branches) :
    Scheme.BranchesWired g exit (Graph.members first) branches := by
  induction branches generalizing first with
  | nil =>
      rw [show first = [] from h]
      exact Graph.members_nil
  | cons branch rest ih =>
      obtain ⟨entry, out, others, hentry, hout, rfl, hnext, hbranch, hrest⟩ := h
      refine ⟨entry, out, Graph.members others, hentry, hout, Graph.members_cons entry others,
        ?_, ?_, ih (fun c hc => hbranches c (List.mem_cons_of_mem branch hc)) hrest⟩
      · rw [Graph.targets_eq_members, hnext, Graph.members_singleton]
      · rw [← Graph.members_singleton]
        exact hbranches branch (by simp) _ _ hbranch

/-- **What is laid out is wired.** -/
theorem Scheme.Laid.wired {scheme : Scheme SegmentId} (h : Scheme.Laid g next first scheme) :
    Scheme.Wired g (Graph.members next) (Graph.members first) scheme := by
  induction scheme using Scheme.induct generalizing next first with
  | nil =>
      rw [show first = next from h]
      rfl
  | solid t rest ih =>
      obtain ⟨middle, ht, hrest⟩ := Scheme.laid_solid.mp h
      exact Scheme.wired_solid.mpr ⟨_, ht.wired, ih hrest⟩
  | optional inner rest ihinner ihrest =>
      obtain ⟨middle, ⟨entry, exit, hentry, hexit, rfl, hnext, hinner⟩, hrest⟩ := h
      refine ⟨_, ⟨entry, exit, hentry, hexit, Graph.members_cons entry middle, ?_, ?_⟩,
        ihrest hrest⟩
      · rw [Graph.targets_eq_members, hnext]
      · rw [← Graph.members_singleton]
        exact ihinner hinner
  | union branches rest ihbranches ihrest =>
      obtain ⟨middle, ⟨entry, exit, hentry, hexit, rfl, hnext, hbranches⟩, hrest⟩ := h
      refine ⟨_, ⟨entry, exit, hentry, hexit, Graph.members_singleton entry, ?_, ?_⟩,
        ihrest hrest⟩
      · rw [Graph.targets_eq_members, hnext]
      · exact hbranches.wired fun branch hb _ _ hlaid => ihbranches branch hb hlaid

end

/-! ## Parts of an arena -/

/-- From a place on, the graph is as the builder left it. -/
def Graph.Holds (g : Graph) (b : Builder) (start : Nat) : Prop :=
  ∀ i, start ≤ i → i < b.size →
    g.kind? i = b.view.kind? i ∧ g.successors i = b.view.successors i

namespace Graph.Holds

variable {g : Graph} {b : Builder} {start i : Nat}

theorem refl (b : Builder) (start : Nat) : b.view.Holds b start := fun _ _ _ => ⟨rfl, rfl⟩

/-- A later place, and an earlier stage of the arena in which the nodes from there on were the
same. -/
theorem earlier (h : g.Holds b start) {b' : Builder} {start' : Nat} (hstart : start ≤ start')
    (hsize : b'.size ≤ b.size) (hb : b.view.Holds b' start') : g.Holds b' start' := by
  intro i hi hlt
  obtain ⟨hkind, hnext⟩ := h i (Nat.le_trans hstart hi) (Nat.lt_of_lt_of_le hlt hsize)
  obtain ⟨hkind', hnext'⟩ := hb i hi hlt
  exact ⟨hkind.trans hkind', hnext.trans hnext'⟩

theorem solid? (h : g.Holds b start) (hi : start ≤ i) (hlt : i < b.size) :
    g.solid? i = b.view.solid? i := by
  unfold Graph.solid?
  rw [(h i hi hlt).1]

/-- The markers of a scope are markers of an inner scope in any graph that holds them. -/
theorem inner {b' : Builder} {l : List SegmentId} (h : g.Holds b' b.size) (hexit : g.exit < b.size)
    (hgrow : b.marked.Grows l b') : g.Inner b.size ∧ g.Inner (b.size + 1) := by
  have hinner : ∀ i, b.size ≤ i → b.marked.view.IsMarker i → g.Inner i := by
    intro i hi hm
    obtain ⟨scope, isEntry, hk⟩ := hgrow.isMarker hm
    refine ⟨⟨scope, isEntry, ?_⟩, by omega⟩
    rw [(h i hi (Graph.lt_size_of_kind? hk)).1, hk]
  exact ⟨hinner _ (Nat.le_refl _) b.isMarker_marked_entry,
    hinner _ (Nat.le_succ _) b.isMarker_marked_exit⟩

end Graph.Holds

/-- No identity of the list is in the arena. -/
def Builder.Lacks (b : Builder) (l : List SegmentId) : Prop :=
  ∀ i t, b.view.solid? i = some t → t.id ∉ l

namespace Builder.Lacks

variable {b b' : Builder} {l l' : List SegmentId}

theorem mono (h : b.Lacks l) (hsub : l' ⊆ l) : b.Lacks l' :=
  fun i t ht hmem => h i t ht (hsub hmem)

/-- What a compilation adds is not in the rest of the scheme. -/
theorem grow (h : b.Lacks l) (hb : b.Grows l' b') (hd : ∀ x ∈ l', x ∉ l) : b'.Lacks l := by
  intro i t ht
  by_cases hi : i < b.size
  · rw [hb.solid? hi] at ht
    exact h i t ht
  · exact hd t.id (hb.fresh i t (Nat.le_of_not_lt hi) ht)

/-- The node of a segment whose identity is not in the arena is a new one. -/
theorem solid_eq (h : b.Lacks l) {t : Solid} (ht : t.id ∈ l) :
    b.solid t.kind = (b.size, (b.push t.kind).2) := by
  rcases b.solid_cases t with ⟨i, t', ht', hid, -⟩ | ⟨-, heq⟩
  · rw [← hid] at ht
    exact absurd ht (h i t' ht')
  · exact heq

end Builder.Lacks

/-! ## The compilation -/

/-- The nodes may come next in a scope with the given exit: they are different, and each is the exit
or stands behind the arena that was there. -/
structure Graph.Opens (start exit : Nat) (first : List Nat) : Prop where
  nodup : first.Nodup
  fresh : ∀ j ∈ first, j = exit ∨ start ≤ j

namespace Graph.Opens

variable {start exit : Nat} {first : List Nat}

theorem nil (start exit : Nat) : Opens start exit [] :=
  ⟨List.nodup_nil, fun _ hj => absurd hj List.not_mem_nil⟩

theorem exit_singleton (start exit : Nat) : Opens start exit [exit] :=
  ⟨List.nodup_singleton exit, fun _ hj => Or.inl (List.mem_singleton.mp hj)⟩

theorem new_singleton (start exit : Nat) : Opens start exit [start] :=
  ⟨List.nodup_singleton start, fun _ hj => Or.inr (Nat.le_of_eq (List.mem_singleton.mp hj).symm)⟩

/-- A new node in front of later ones. -/
theorem cons {start' : Nat} (h : Opens start' exit first) (hexit : exit < start)
    (hlt : start < start') : Opens start exit (start :: first) where
  nodup := by
    rw [List.nodup_cons]
    refine ⟨?_, h.nodup⟩
    intro hmem
    rcases h.fresh start hmem with he | hle
    · omega
    · omega
  fresh := by
    intro j hj
    rcases List.mem_cons.mp hj with rfl | hj
    · exact Or.inr (Nat.le_refl _)
    · exact (h.fresh j hj).imp_right fun hle => Nat.le_trans (Nat.le_of_lt hlt) hle

end Graph.Opens

/-- The rest of a scope has paid what the scope owed: the nodes that were there lead to the same
nodes as before, and then to their dues with `first` coming next. -/
def Scope.Settles (s : Scope) (first : List Nat) (b : Builder) : Prop :=
  ∀ i < s.builder.size,
    b.view.successors i = addTargets (s.builder.view.successors i) (s.dues first i)

theorem Scope.Settles.holds {s : Scope} {first : List Nat} {b : Builder} {l : List SegmentId}
    (h : s.Settles first b) (hgrow : s.builder.Grows l b) {start : Nat}
    (hdues : ∀ i, start ≤ i → i < s.builder.size → s.dues first i = []) :
    b.view.Holds s.builder start := by
  intro i hi hlt
  refine ⟨hgrow.kind i hlt, ?_⟩
  rw [h i hlt, hdues i hi hlt, addTargets_nil]

/-- Compiling a segment whose identities are not in the arena lays it out behind what is there, once
the rest of the scope has paid what is owed after it. -/
def Segment.LaysOut (x : Segment SegmentId) : Prop :=
  ∀ (s : Scope) (exit : Nat) (middle : List Nat) (b : Builder) (l : List SegmentId), s.Tidy →
    exit < s.builder.size → s.builder.Lacks (Scheme.ids [x]) → (Scheme.ids [x]).Nodup →
    (x.compile s).Settles middle b → (x.compile s).builder.Grows l b →
    Graph.Opens (x.compile s).builder.size exit middle →
    ∃ first, Graph.Opens s.builder.size exit first ∧ s.Settles first b ∧
      ∀ g : Graph, g.exit < s.builder.size → g.Holds b s.builder.size → x.Laid g middle first

/-- Compiling a scheme up to an exit lays it out behind what is already there, provided none of its
identities is in the arena. -/
def Scheme.LaysOut (scheme : Scheme SegmentId) : Prop :=
  ∀ (s : Scope) (exit : Nat), s.Tidy → exit < s.builder.size →
    s.builder.Lacks (Scheme.ids scheme) → (Scheme.ids scheme).Nodup →
    ∃ first, Graph.Opens s.builder.size exit first ∧
      s.Settles first ((Scheme.compile s scheme).close exit) ∧
      ∀ g : Graph, g.exit < s.builder.size →
        g.Holds ((Scheme.compile s scheme).close exit) s.builder.size →
        Scheme.Laid g [exit] first scheme

namespace Scheme.LaysOut

theorem nil : Scheme.LaysOut [] := by
  intro s exit hs _ _ _
  exact ⟨[exit], .exit_singleton _ exit, fun i _ => Scope.successors_close hs exit i,
    fun g _ _ => rfl⟩

/-- **One segment and then the rest.** The rest pays what is owed after the segment, and with it the
segment pays what was owed before it. -/
theorem cons {x : Segment SegmentId} {rest : Scheme SegmentId} (hx : x.LaysOut)
    (hrest : Scheme.LaysOut rest) : Scheme.LaysOut (x :: rest) := by
  intro s exit hs hexit hlacks hnodup
  rw [Scheme.ids_cons] at hlacks hnodup
  obtain ⟨hxNodup, hrestNodup, hdisjoint⟩ := List.nodup_append.mp hnodup
  obtain ⟨hgrow, hin⟩ := x.compile_grows s hs.toInArena
  have hexit' := Nat.lt_of_lt_of_le hexit hgrow.size_le
  have hlacksRest : (x.compile s).builder.Lacks (Scheme.ids rest) :=
    (hlacks.mono (List.subset_append_right _ _)).grow hgrow
      fun i hi hi' => hdisjoint i hi i hi' rfl
  obtain ⟨middle, hopens, hmiddle, hrestLaid⟩ :=
    hrest (x.compile s) exit (x.tidy_compile hs) hexit' hlacksRest hrestNodup
  have hclosed := Scheme.closed_grows rest hin hexit'
  obtain ⟨first, hopensFirst, hfirst, hxLaid⟩ := hx s exit middle _ _ hs hexit
    (hlacks.mono (List.subset_append_left _ _)) hxNodup hmiddle hclosed hopens
  refine ⟨first, hopensFirst, hfirst, ?_⟩
  intro g hg hholds
  refine ⟨middle, hxLaid g hg hholds, hrestLaid g (Nat.lt_of_lt_of_le hg hgrow.size_le) ?_⟩
  exact hholds.earlier hgrow.size_le (Nat.le_refl _) (.refl _ _)

/-- **A scope between new markers.** The entry leads into the scheme, the exit leads nowhere yet,
and the nodes that were there are as before. -/
theorem enclose {inner : Scheme SegmentId} (h : Scheme.LaysOut inner) {b : Builder}
    (hlacks : b.Lacks (Scheme.ids inner)) (hnodup : (Scheme.ids inner).Nodup) :
    (b.enclose inner).view.successors (b.size + 1) = [] ∧
    (∀ i < b.size, (b.enclose inner).view.successors i = b.view.successors i) ∧
    ∀ g : Graph, g.exit < b.size + 2 → g.Holds (b.enclose inner) (b.size + 2) →
      Scheme.Laid g [b.size + 1] ((b.enclose inner).view.successors b.size) inner := by
  have hsize : (⟨b.marked, b.size, []⟩ : Scope).builder.size = b.size + 2 := b.size_marked
  have hlacks' : b.marked.Lacks (Scheme.ids inner) :=
    hlacks.grow (.marked : b.Grows [] b.marked) fun x hx => absurd hx (by simp)
  obtain ⟨first, hopens, hsettles, hlaid⟩ :=
    h _ (b.size + 1) (Scope.tidy_enclosed b) (by rw [hsize]; omega) hlacks' hnodup
  -- The new scope has dues at its entry only; nothing is pending in it.
  have hnext : ∀ i < b.size + 2, (b.enclose inner).view.successors i
      = addTargets (b.view.successors i) (if i = b.size then first else []) := by
    intro i hi
    have hi' := hsettles i (by rw [hsize]; exact hi)
    simp only [Builder.successors_marked, Scope.dues, Scope.groupDues, List.append_nil] at hi'
    exact hi'
  have hentry : (b.enclose inner).view.successors b.size = first := by
    rw [hnext b.size (by omega), Builder.successors_eq_nil (Nat.le_refl _), if_pos rfl,
      addTargets_nil_of_nodup hopens.nodup]
  refine ⟨?_, ?_, ?_⟩
  · rw [hnext (b.size + 1) (by omega), Builder.successors_eq_nil (Nat.le_succ _),
      if_neg (by omega), addTargets_nil]
  · intro i hi
    rw [hnext i (by omega), if_neg (Nat.ne_of_lt hi), addTargets_nil]
  · rw [hentry, ← hsize]
    exact hlaid

/-- **A closed scope in a graph.** If all that has happened to its nodes since is that its exit has
come to lead to `out`, the scheme lies laid out between its markers. -/
theorem laid_enclosed {inner : Scheme SegmentId} (h : Scheme.LaysOut inner) {b b' : Builder}
    {l : List SegmentId} {out : List Nat} {g : Graph} (hlacks : b.Lacks (Scheme.ids inner))
    (hnodup : (Scheme.ids inner).Nodup) (hgrow : (b.enclose inner).Grows l b')
    (hpaid : ∀ i, b.size ≤ i → i < (b.enclose inner).size → b'.view.successors i
      = addTargets ((b.enclose inner).view.successors i) (if i = b.size + 1 then out else []))
    (hout : out.Nodup) (hexit : g.exit < b.size) (hholds : g.Holds b' b.size) :
    g.Inner b.size ∧ g.Inner (b.size + 1) ∧ g.successors (b.size + 1) = out ∧
      Scheme.Laid g [b.size + 1] (g.successors b.size) inner := by
  obtain ⟨hexitOpen, -, hlaid⟩ := h.enclose hlacks hnodup
  have henclose := b.enclose_grows inner
  have hle := b.size_add_two_le_enclose inner
  have hsize := hgrow.size_le
  obtain ⟨hentryInner, hexitInner⟩ := hholds.inner hexit
    ((henclose.mono (List.subset_append_left _ l)).trans
      (hgrow.mono (List.subset_append_right _ _)))
  have hentry : g.successors b.size = (b.enclose inner).view.successors b.size := by
    rw [(hholds _ (Nat.le_refl _) (by omega)).2, hpaid _ (Nat.le_refl _) (by omega),
      if_neg (by omega), addTargets_nil]
  have hnext : g.successors (b.size + 1) = out := by
    rw [(hholds _ (by omega) (by omega)).2, hpaid _ (by omega) (by omega), hexitOpen, if_pos rfl,
      addTargets_nil_of_nodup hout]
  have hinner : g.Holds (b.enclose inner) (b.size + 2) := by
    refine hholds.earlier (Nat.le_add_right _ 2) hsize ?_
    intro i hi hlt
    refine ⟨hgrow.kind i hlt, ?_⟩
    rw [hpaid i (by omega) hlt, if_neg (by omega), addTargets_nil]
  refine ⟨hentryInner, hexitInner, hnext, ?_⟩
  rw [hentry]
  exact hlaid g (by omega) hinner

end Scheme.LaysOut

/-! ### Solid segments -/

/-- A new node stands for its segment. -/
theorem Scope.solid?_new {s : Scope} {t : Solid}
    (hnew : s.builder.solid t.kind = (s.builder.size, (s.builder.push t.kind).2)) :
    (s.solid t.kind t.repeats).builder.view.solid? s.builder.size = some t := by
  have henter : (s.builder.solid t.kind).2.Grows [] (s.pass t).builder :=
    .enter s.current t.repeats (s.builder.solid_lt t)
  rw [Scope.solid_eq, Graph.solid?_eq_some]
  show (linkPending _ s.pending (s.pass t).builder).view.kind? s.builder.size = _
  rw [kind?_linkPending, henter.kind _ (by rw [hnew, Builder.size_push]; omega), hnew,
    Builder.kind?_push, if_pos rfl]

/-- A new node leads to itself if its segment repeats, and nowhere else yet. -/
theorem Scope.successors_new {s : Scope} (hs : s.InArena) {t : Solid}
    (hnew : s.builder.solid t.kind = (s.builder.size, (s.builder.push t.kind).2)) :
    (s.solid t.kind t.repeats).builder.view.successors s.builder.size
      = if t.repeats then [s.builder.size] else [] := by
  have hcurrent := hs.current
  have hpending : ∀ p ∈ s.pending, p.2 ≠ s.builder.size := fun p hp =>
    Nat.ne_of_lt (hs.pending p hp).2
  rw [successors_solid hs, hnew, Builder.successors_eq_nil (Nat.le_refl _),
    groupDues_eq_nil hpending, if_neg (by omega), List.append_nil, List.nil_append]
  cases t.repeats with
  | false => simp
  | true =>
      rw [if_pos ⟨rfl, rfl⟩, if_pos rfl]
      exact addTargets_nil_of_nodup (List.nodup_singleton _)

/-- The nodes that come next are put behind the link of a new node to itself. -/
theorem Graph.Opens.addTargets {start start' exit : Nat} {first : List Nat}
    (h : Opens start' exit first) (hexit : exit < start) (hlt : start < start') (repeats : Bool) :
    addTargets (if repeats then [start] else []) first
      = if repeats then start :: first else first := by
  cases repeats with
  | false => exact addTargets_nil_of_nodup h.nodup
  | true => exact addTargets_nil_of_nodup (h.cons hexit hlt).nodup

theorem Segment.LaysOut.solid (t : Solid) : t.segment.LaysOut := by
  intro s exit middle b l hs hexit hlacks _ hmiddle hgrows hopens
  rw [Segment.compile_solid] at hmiddle hgrows hopens
  rw [Scheme.ids_solid] at hlacks
  have hnew := hlacks.solid_eq (t := t) (by simp)
  have hsolid := Scope.solid?_new hnew
  have hlt : s.builder.size < (s.solid t.kind t.repeats).builder.size :=
    Graph.lt_size_of_kind? (Graph.solid?_eq_some.mp hsolid)
  have hdues := s.dues_solid t middle
  rw [hnew] at hdues
  refine ⟨[s.builder.size], .new_singleton _ exit, ?_, ?_⟩
  · intro i hi
    have hi' : i ≠ s.builder.size := Nat.ne_of_lt hi
    have hself : ¬ (t.repeats = true ∧ i = s.builder.size) := fun h => hi' h.2
    rw [hmiddle i (by omega), Scope.successors_solid hs.toInArena, hdues, hnew, if_neg hi',
      addTargets_nil, if_neg hself, List.append_nil]
    rfl
  · intro g _ hholds
    have hsize := hgrows.size_le
    have hnode : g.solid? s.builder.size = some t := by
      rw [hholds.solid? (Nat.le_refl _) (by omega), hgrows.solid? hlt, hsolid]
    have hout : g.successors s.builder.size
        = if t.repeats then s.builder.size :: middle else middle := by
      rw [(hholds _ (Nat.le_refl _) (by omega)).2, hmiddle _ hlt,
        Scope.successors_new hs.toInArena hnew, hdues, if_pos rfl, hopens.addTargets hexit hlt]
    cases t with
    | keyword k => exact ⟨_, hnode, rfl, hout⟩
    | var v => exact ⟨_, hnode, rfl, hout⟩

/-! ### Optional groups -/

theorem Segment.LaysOut.optional {inner : Scheme SegmentId} (h : Scheme.LaysOut inner) :
    (Segment.optional inner).LaysOut := by
  intro s exit middle b l hs hexit hlacks hnodup hmiddle hgrows hopens
  rw [Segment.compile_optional] at hmiddle hgrows hopens
  rw [Scheme.ids_optional, Scheme.ids_nil, List.append_nil] at hlacks hnodup
  obtain ⟨-, hold, -⟩ := h.enclose hlacks hnodup
  have hle := s.builder.size_add_two_le_enclose inner
  have hgroup : (s.builder.enclose inner).Grows l (s.group inner).builder := .link _ (by omega)
  have hle' := hgroup.size_le
  have hpaid : ∀ i < (s.builder.enclose inner).size, b.view.successors i
      = addTargets ((s.builder.enclose inner).view.successors i)
        (s.dues (s.builder.size :: middle) i ++ if i = s.builder.size + 1 then middle else []) := by
    intro i hi
    rw [hmiddle i (by omega), Scope.successors_group hs.toInArena, ← addTargets_append,
      Scope.dues_group]
  refine ⟨s.builder.size :: middle, hopens.cons hexit (by omega), ?_, ?_⟩
  · intro i hi
    rw [hpaid i (by omega), hold i hi, if_neg (by omega), List.append_nil]
  · intro g hg hholds
    -- Behind the old arena, the rest of the scope touches the exit of the group only.
    have hbehind : ∀ i, s.builder.size ≤ i → i < (s.builder.enclose inner).size →
        b.view.successors i = addTargets ((s.builder.enclose inner).view.successors i)
          (if i = s.builder.size + 1 then middle else []) := by
      intro i hi hlt
      rw [hpaid i hlt, Scope.dues_eq_nil hs.toInArena hi, List.nil_append]
    obtain ⟨hentry, hexit, hnext, hlaid⟩ :=
      h.laid_enclosed hlacks hnodup (hgroup.trans hgrows) hbehind hopens.nodup hg hholds
    exact ⟨_, _, hentry, hexit, rfl, hnext, hlaid⟩

/-! ### Unions -/

/-- **Branches between the markers of a union.** The union's entry leads to the new branches, and
nothing else that was there has changed. -/
theorem Scheme.LaysOut.branches {branches : List (Scheme SegmentId)}
    (h : ∀ branch ∈ branches, Scheme.LaysOut branch) {b : Builder} {entry exit : Nat}
    (hentry : entry < b.size) (hexit : exit < b.size)
    (hlacks : b.Lacks (Scheme.branchIds branches)) (hnodup : (Scheme.branchIds branches).Nodup) :
    ∃ first, Graph.Opens b.size exit first ∧
      (∀ i < b.size, (Scheme.compileBranches entry exit b branches).view.successors i
        = addTargets (b.view.successors i) (if i = entry then first else [])) ∧
      ∀ g : Graph, g.exit < b.size → g.Holds (Scheme.compileBranches entry exit b branches) b.size →
        Scheme.BranchesLaid g exit first branches := by
  induction branches generalizing b with
  | nil => exact ⟨[], .nil _ exit, fun i _ => by simp, fun g _ _ => rfl⟩
  | cons branch rest ih =>
      rw [Scheme.branchIds_cons] at hlacks hnodup
      obtain ⟨hbranchNodup, hrestNodup, hdisjoint⟩ := List.nodup_append.mp hnodup
      have hlacksBranch := hlacks.mono (List.subset_append_left _ _)
      obtain ⟨-, hold, -⟩ := (h branch (by simp)).enclose hlacksBranch hbranchNodup
      have hgrow := (b.enclose_grows branch).trans (b.branch_grows entry hexit branch)
      have hle := hgrow.size_le
      rw [Builder.size_marked] at hle
      have hlacksRest : (b.branch entry exit branch).Lacks (Scheme.branchIds rest) :=
        (hlacks.mono (List.subset_append_right _ _)).grow (Builder.Grows.marked.trans hgrow)
          fun i hi hi' => hdisjoint i hi i hi' rfl
      obtain ⟨others, hopens, hothers, hrestLaid⟩ :=
        ih (fun c hc => h c (List.mem_cons_of_mem branch hc))
          (Nat.lt_of_lt_of_le hentry (by omega)) (Nat.lt_of_lt_of_le hexit (by omega)) hlacksRest
          hrestNodup
      have hrest : (b.branch entry exit branch).Grows (Scheme.branchIds rest)
          (Scheme.compileBranches entry exit (b.branch entry exit branch) rest) :=
        Scheme.compileBranches_grows rest entry (by omega)
      have hsize := b.size_branch entry exit branch
      rw [Scheme.compileBranches_cons]
      refine ⟨b.size :: others, hopens.cons hexit (by omega), ?_, ?_⟩
      · intro i hi
        rw [hothers i (by omega), Builder.successors_branch hentry, hold i hi, ← addTargets_append,
          if_neg (show i ≠ b.size + 1 by omega), List.append_nil]
        by_cases hi : i = entry
        · rw [if_pos hi, if_pos hi, if_pos hi]
          rfl
        · rw [if_neg hi, if_neg hi, if_neg hi]
          rfl
      · intro g hg hholds
        -- The nodes of this branch are done: the other branches touch the union's entry only.
        have hpaid : ∀ i, b.size ≤ i → i < (b.enclose branch).size →
            (Scheme.compileBranches entry exit (b.branch entry exit branch) rest).view.successors i
              = addTargets ((b.enclose branch).view.successors i)
                (if i = b.size + 1 then [exit] else []) := by
          intro i hi hlt
          rw [hothers i (by omega), Builder.successors_branch hentry,
            if_neg (show i ≠ entry by omega), if_neg (show i ≠ entry by omega), addTargets_nil,
            List.nil_append]
        obtain ⟨hentryInner, hexitInner, hnext, hlaid⟩ :=
          (h branch (by simp)).laid_enclosed hlacksBranch hbranchNodup
            ((b.branch_grows entry hexit branch).trans hrest) hpaid (List.nodup_singleton exit) hg
            hholds
        refine ⟨_, _, others, hentryInner, hexitInner, rfl, hnext, hlaid, ?_⟩
        exact hrestLaid g (by omega) (hholds.earlier (by omega) (Nat.le_refl _) (.refl _ _))

theorem Segment.LaysOut.union {branches : List (Scheme SegmentId)}
    (h : ∀ branch ∈ branches, Scheme.LaysOut branch) : (Segment.union branches).LaysOut := by
  intro s exit middle b l hs hexit hlacks hnodup hmiddle hgrows hopens
  rw [Segment.compile_union] at hmiddle hgrows
  rw [Scheme.ids_union, Scheme.ids_nil, List.append_nil] at hlacks hnodup
  have hgrow : s.builder.marked.Grows [] s.choiceStart := Scope.choiceStart_grows hs.toInArena
  have hsize := s.size_choiceStart
  have hlacks' : s.choiceStart.Lacks (Scheme.branchIds branches) :=
    hlacks.grow (Builder.Grows.marked.trans hgrow) fun x hx => absurd hx (by simp)
  obtain ⟨first, hopensFirst, hfirst, hlaid⟩ := Scheme.LaysOut.branches h (b := s.choiceStart)
    (by omega : s.builder.size < _) (by omega : s.builder.size + 1 < _) hlacks' hnodup
  have hbranches : s.choiceStart.Grows (Scheme.branchIds branches) (s.choice branches).builder :=
    Scheme.compileBranches_grows branches s.builder.size (by omega)
  have hle := hbranches.size_le
  have hlast := hgrows.size_le
  -- The rest of the scope touches the exit of the union only.
  have hpaid : ∀ i < s.choiceStart.size, b.view.successors i
      = addTargets (addTargets (addTargets (s.builder.view.successors i)
          (s.dues [s.builder.size] i)) (if i = s.builder.size then first else []))
        (if i = s.builder.size + 1 then middle else []) := by
    intro i hi
    have hchoice : (s.choice branches).builder.view.successors i
        = addTargets (s.choiceStart.view.successors i) (if i = s.builder.size then first else []) :=
      hfirst i hi
    rw [hmiddle i (by omega), hchoice, Scope.successors_choiceStart hs.toInArena, Scope.dues_choice]
  refine ⟨[s.builder.size], .new_singleton _ exit, ?_, ?_⟩
  · intro i hi
    rw [hpaid i (by omega), if_neg (by omega), if_neg (by omega), addTargets_nil, addTargets_nil]
  · intro g hg hholds
    have hentry : g.successors s.builder.size = first := by
      rw [(hholds _ (Nat.le_refl _) (by omega)).2, hpaid _ (by omega),
        Builder.successors_eq_nil (Nat.le_refl _), Scope.dues_eq_nil hs.toInArena (Nat.le_refl _),
        if_pos rfl, if_neg (by omega), addTargets_nil, addTargets_nil,
        addTargets_nil_of_nodup hopensFirst.nodup]
    have hexit : g.successors (s.builder.size + 1) = middle := by
      rw [(hholds _ (by omega) (by omega)).2, hpaid _ (by omega),
        Builder.successors_eq_nil (by omega), Scope.dues_eq_nil hs.toInArena (by omega),
        if_pos rfl, if_neg (by omega), addTargets_nil, addTargets_nil,
        addTargets_nil_of_nodup hopens.nodup]
    have hinner : g.Holds (s.choice branches).builder s.choiceStart.size := by
      refine hholds.earlier (by omega) hlast (hmiddle.holds hgrows ?_)
      intro i hi _
      rw [Scope.dues_choice, if_neg (by omega)]
    obtain ⟨hentryInner, hexitInner⟩ := hholds.inner hg
      ((hgrow.mono (List.nil_subset _)).trans
        ((hbranches.mono (List.subset_append_left _ l)).trans
          (hgrows.mono (List.subset_append_right _ _))))
    refine ⟨_, _, hentryInner, hexitInner, rfl, hexit, ?_⟩
    rw [hentry]
    exact hlaid g (by omega) hinner

/-! ### Schemes -/

theorem Scheme.compile_laysOut (scheme : Scheme SegmentId) : Scheme.LaysOut scheme := by
  induction scheme using Scheme.induct with
  | nil => exact .nil
  | solid t rest ih => exact .cons (.solid t) ih
  | optional inner rest ihinner ihrest => exact .cons (.optional ihinner) ihrest
  | union branches rest ihbranches ihrest => exact .cons (.union ihbranches) ihrest

/-- **A scheme without repetitions lies laid out between the entry and the exit of its graph.** -/
theorem Graph.compile_laid (nextScope : Nat) {scheme : Scheme SegmentId}
    (h : Scheme.Distinct scheme) :
    let g := (Graph.compile nextScope scheme).1
    Scheme.Laid g [g.exit] (g.successors g.entry) scheme := by
  have hlacks : (⟨#[], nextScope⟩ : Builder).Lacks (Scheme.ids scheme) := by
    intro i t ht
    simp [Builder.view, Graph.solid?, Graph.kind?] at ht
  obtain ⟨-, -, hlaid⟩ := (Scheme.compile_laysOut scheme).enclose hlacks h
  rw [Graph.compile_eq]
  exact hlaid _ Nat.one_lt_two (.refl _ _)

/-- The same with the order of links left out. -/
theorem Graph.compile_wired (nextScope : Nat) {scheme : Scheme SegmentId}
    (h : Scheme.Distinct scheme) :
    let g := (Graph.compile nextScope scheme).1
    Scheme.Wired g {g.exit} (g.targets g.entry) scheme := by
  intro g
  rw [← Graph.members_singleton]
  exact (Graph.compile_laid nextScope h).wired

end CommandGrammar
