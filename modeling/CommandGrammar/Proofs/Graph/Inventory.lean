import CommandGrammar.Proofs.Graph.Dues

/-!
# `Proofs.Graph.Inventory` — which nodes and links a compiled graph has

A compilation changes its arena in three ways only: it adds the two markers of a scope, it adds the
node of a solid segment or finds the one that is there, and it links. Whatever survives these three
survives a compilation (`Builder.Kept`). Links deserve one remark: they lead to solid nodes, or to
places that were new when the scope was opened (`Builder.Admits`), never back to a marker before it.

With this the nodes of a graph are counted. The solid ones are one for each identity of the scheme.
The markers are two for each of its scopes, which get consecutive numbers.

## Contents
- `Builder.Kept`, `Scheme.compile_keeps`, `Builder.Kept.enclose`: what survives a compilation.
- `Graph.compile_successors_nodup`, `Graph.compile_entry_notMem`: links are made once, and none
  leads back to the entry.
- `Builder.Has`, `Graph.compile_existsUnique_solid`: the solid nodes.
- `Scheme.scopes`, `Graph.Numbered`, `Graph.compile_numbered`: the markers.
-/

namespace CommandGrammar

/-! ## What survives a compilation -/

/-- A place that may be linked to: it is not before `base`, or it holds a solid node. -/
def Builder.Admits (b : Builder) (base target : Nat) : Prop :=
  base ≤ target ∨ ∃ t, b.view.solid? target = some t

/-- The property survives every operation of a builder, with links to admitted places only. -/
structure Builder.Kept (base : Nat) (P : Builder → Prop) : Prop where
  marked : ∀ b, P b → P b.marked
  solid : ∀ (b : Builder) (t : Solid), P b → P (b.solid t.kind).2
  link : ∀ b source target, b.Admits base target → P b → P (b.link source target)

/-- A scope under construction at which the property holds, and whose pending groups may be linked
to. -/
structure Scope.Keeps (base : Nat) (P : Builder → Prop) (s : Scope) : Prop where
  holds : P s.builder
  base_le : base ≤ s.builder.size
  pending : ∀ p ∈ s.pending, base ≤ p.1

section

variable {base : Nat} {P : Builder → Prop} {b b' : Builder}

theorem Builder.Admits.of_kinds {i : Nat} (h : b.Admits base i)
    (hkind : ∀ j, b'.view.kind? j = b.view.kind? j) : b'.Admits base i := by
  refine h.imp_right ?_
  rintro ⟨t, ht⟩
  refine ⟨t, ?_⟩
  rw [Graph.solid?_eq_some] at ht ⊢
  rw [hkind, ht]

namespace Builder.Kept

theorem linkAll (hP : Kept base P) (hb : P b) (source : Nat) {targets : List Nat}
    (h : ∀ t ∈ targets, b.Admits base t) : P (b.linkAll source targets) := by
  induction targets generalizing b with
  | nil => exact hb
  | cons t ts ih =>
      apply ih (hP.link b source t (h t (by simp)) hb)
      intro u hu
      exact (h u (List.mem_cons_of_mem t hu)).of_kinds (b.kind?_link source t)

theorem linkPending (hP : Kept base P) (hb : P b) {node : Nat} (hnode : b.Admits base node)
    {pending : List (Nat × Nat)} (h : ∀ p ∈ pending, base ≤ p.1) :
    P (Scope.linkPending node pending b) := by
  induction pending generalizing b with
  | nil => exact hb
  | cons p later ih =>
      have hlater : ∀ q ∈ later, base ≤ q.1 := fun q hq => h q (List.mem_cons_of_mem p hq)
      have htargets : ∀ t ∈ later.map (·.1) ++ [node], b.Admits base t := by
        intro t ht
        rcases List.mem_append.mp ht with ht | ht
        · obtain ⟨q, hq, rfl⟩ := List.mem_map.mp ht
          exact Or.inl (hlater q hq)
        · rw [List.mem_singleton.mp ht]
          exact hnode
      rw [Scope.linkPending]
      exact ih (hP.linkAll hb p.2 htargets) (hnode.of_kinds (b.kind?_linkAll p.2 _)) hlater

theorem enter (hP : Kept base P) (hb : P b) (source : Nat) {node : Nat}
    (hnode : b.Admits base node) (repeats : Bool) : P (b.enter source node repeats) := by
  have hlink := hP.link b source node hnode hb
  unfold Builder.enter
  cases repeats with
  | false => exact hlink
  | true => exact hP.link _ node node (hnode.of_kinds (b.kind?_link source node)) hlink

end Builder.Kept

namespace Scope.Keeps

variable {s : Scope}

/-- Nothing is due to stand behind the beginning of the arena. -/
theorem of_holds (h : P s.builder) : s.Keeps 0 P :=
  ⟨h, Nat.zero_le _, fun _ _ => Nat.zero_le _⟩

theorem close (h : s.Keeps base P) (hP : Builder.Kept base P) {exit : Nat} (hexit : base ≤ exit) :
    P (s.close exit) :=
  hP.link _ s.current exit (Or.inl hexit) (hP.linkPending h.holds (Or.inl hexit) h.pending)

theorem solid (h : s.Keeps base P) (hP : Builder.Kept base P) (t : Solid) :
    (s.solid t.kind t.repeats).Keeps base P where
  holds := by
    obtain ⟨t', ht', -⟩ := s.builder.solid_node t
    obtain ⟨u, hu, -⟩ := s.pass_node t
    have henter : P (s.pass t).builder :=
      hP.enter (hP.solid s.builder t h.holds) s.current (Or.inr ⟨t', ht'⟩) t.repeats
    rw [solid_eq]
    exact hP.linkPending henter (Or.inr ⟨u, hu⟩) h.pending
  base_le := by
    rw [size_solid]
    exact Nat.le_trans h.base_le (s.builder.solid_grows t).size_le
  pending := fun p hp => absurd hp (by simp [solid_eq, settle])

theorem choiceStart (h : s.Keeps base P) (hP : Builder.Kept base P) : P s.choiceStart := by
  have hentry : s.builder.marked.Admits base s.builder.size := Or.inl h.base_le
  have hlink := hP.link _ s.current s.builder.size hentry (hP.marked _ h.holds)
  exact hP.linkPending hlink (Or.inl h.base_le) h.pending

end Scope.Keeps

/-- Every compilation of the scheme keeps the property. -/
def Scheme.Keeps (base : Nat) (P : Builder → Prop) (scheme : Scheme SegmentId) : Prop :=
  ∀ s : Scope, s.Keeps base P → (Scheme.compile s scheme).Keeps base P

namespace Scheme.Keeps

theorem enclose {inner : Scheme SegmentId} (h : Scheme.Keeps base P inner)
    (hP : Builder.Kept base P) (hb : P b.marked) (hbase : base ≤ b.size + 1) :
    P (b.enclose inner) := by
  have hstart : (⟨b.marked, b.size, []⟩ : Scope).Keeps base P := by
    refine ⟨hb, ?_, fun p hp => absurd hp (by simp)⟩
    show base ≤ b.marked.size
    rw [Builder.size_marked]
    exact Nat.le_succ_of_le hbase
  exact (h _ hstart).close hP hbase

theorem branches {branches : List (Scheme SegmentId)}
    (h : ∀ branch ∈ branches, Scheme.Keeps base P branch) (hP : Builder.Kept base P) (hb : P b)
    (hbase : base ≤ b.size) (entry : Nat) {exit : Nat} (hexit : base ≤ exit) :
    P (Scheme.compileBranches entry exit b branches) := by
  induction branches generalizing b with
  | nil => exact hb
  | cons branch rest ih =>
      have hclosed := (h branch (by simp)).enclose hP (hP.marked b hb) (Nat.le_succ_of_le hbase)
      have hfirst := hP.link _ entry b.size (Or.inl hbase) hclosed
      have hle := b.size_add_two_le_enclose branch
      rw [Scheme.compileBranches_cons]
      apply ih (fun c hc => h c (List.mem_cons_of_mem branch hc))
      · exact hP.link _ (b.size + 1) exit (Or.inl hexit) hfirst
      · rw [Builder.size_branch]
        omega

end Scheme.Keeps

/-- **What survives every operation survives a compilation**, whatever the scheme. -/
theorem Scheme.compile_keeps (hP : Builder.Kept base P) (scheme : Scheme SegmentId) :
    Scheme.Keeps base P scheme := by
  induction scheme using Scheme.induct with
  | nil => exact fun s hs => hs
  | solid t rest ih =>
      intro s hs
      rw [Scheme.compile_cons, Segment.compile_solid]
      exact ih _ (hs.solid hP t)
  | optional inner rest ihinner ihrest =>
      intro s hs
      have hclosed := ihinner.enclose hP (hP.marked _ hs.holds) (Nat.le_succ_of_le hs.base_le)
      have hle := s.builder.size_add_two_le_enclose inner
      rw [Scheme.compile_cons, Segment.compile_optional]
      refine ihrest _ ⟨hP.link _ s.current s.builder.size (Or.inl hs.base_le) hclosed, ?_, ?_⟩
      · show base ≤ ((s.builder.enclose inner).link s.current s.builder.size).size
        have hbase := hs.base_le
        rw [Builder.size_link]
        omega
      · intro p hp
        rcases List.mem_append.mp hp with hp | hp
        · exact hs.pending p hp
        · rw [List.mem_singleton.mp hp]
          exact hs.base_le
  | union branches rest ihbranches ihrest =>
      intro s hs
      have hbase := hs.base_le
      have hstart : base ≤ s.choiceStart.size := by
        rw [Scope.size_choiceStart]
        omega
      have hexit : s.builder.size + 1 < s.choiceStart.size := by
        rw [Scope.size_choiceStart]
        omega
      have hsize := (Scheme.compileBranches_grows branches s.builder.size hexit).size_le
      rw [Scheme.compile_cons, Segment.compile_union]
      refine ihrest _ ⟨?_, Nat.le_trans hstart hsize, fun p hp => absurd hp (by simp [Scope.choice])⟩
      exact Scheme.Keeps.branches ihbranches hP (hs.choiceStart hP) hstart _
        (Nat.le_succ_of_le hbase)

/-- A scheme between new markers keeps what survives. -/
theorem Builder.Kept.enclose (hP : Kept base P) (hb : P b.marked) (hbase : base ≤ b.size + 1)
    (scheme : Scheme SegmentId) : P (b.enclose scheme) :=
  (Scheme.compile_keeps hP scheme).enclose hP hb hbase

end

/-! ## Links -/

/-- No link is made twice. -/
theorem Builder.kept_nodup : Kept 0 fun b => ∀ i, (b.view.successors i).Nodup where
  marked := by
    intro b hb i
    rw [successors_marked]
    exact hb i
  solid := by
    intro b t hb i
    rw [successors_solid]
    exact hb i
  link := by
    intro b source target _ hb i
    rcases b.successors_link_cases source target i with h | h <;> rw [h]
    · exact hb i
    · exact nodup_addTarget (hb i) target

/-- No link leads back to a marker that stands before the base. -/
theorem Builder.kept_notMem (x : Nat) :
    Kept (x + 1) fun b => b.view.IsMarker x ∧ ∀ i, x ∉ b.view.successors i where
  marked := by
    rintro b ⟨hx, hb⟩
    refine ⟨(Grows.marked (l := [])).isMarker hx, ?_⟩
    intro i
    rw [successors_marked]
    exact hb i
  solid := by
    rintro b t ⟨hx, hb⟩
    refine ⟨(b.solid_grows t).isMarker hx, ?_⟩
    intro i
    rw [successors_solid]
    exact hb i
  link := by
    rintro b source target hadmits ⟨hx, hb⟩
    have hne : x ≠ target := by
      rintro rfl
      rcases hadmits with hle | ⟨t, ht⟩
      · omega
      · exact hx.solid?_ne_some t ht
    refine ⟨(isMarker_link b source target x).mpr hx, ?_⟩
    intro i hmem
    rcases b.successors_link_cases source target i with h | h <;> rw [h] at hmem
    · exact hb i hmem
    · exact (mem_addTarget.mp hmem).elim (hb i) hne

/-- An empty arena has no links. -/
theorem Builder.successors_empty (nextScope i : Nat) :
    (⟨#[], nextScope⟩ : Builder).view.successors i = [] :=
  Graph.successors_of_size_le (Nat.zero_le i)

/-- **No node is followed by the same node twice.** -/
theorem Graph.compile_successors_nodup (nextScope : Nat) (scheme : Scheme SegmentId) (i : Nat) :
    ((Graph.compile nextScope scheme).1.successors i).Nodup := by
  have hempty : ∀ i, ((⟨#[], nextScope⟩ : Builder).view.successors i).Nodup := by
    intro i
    rw [Builder.successors_empty]
    exact List.nodup_nil
  have hmarked := Builder.kept_nodup.marked _ hempty
  rw [Graph.compile_eq]
  exact Builder.kept_nodup.enclose hmarked (Nat.zero_le _) scheme i

/-- **No link leads back to the entry of the whole scheme.** -/
theorem Graph.compile_entry_notMem (nextScope : Nat) (scheme : Scheme SegmentId) (i : Nat) :
    (Graph.compile nextScope scheme).1.entry ∉ (Graph.compile nextScope scheme).1.successors i := by
  have hmarker := Builder.isMarker_marked_entry ⟨#[], nextScope⟩
  have hempty : ∀ i, 0 ∉ (⟨#[], nextScope⟩ : Builder).marked.view.successors i := by
    intro i
    rw [Builder.successors_marked, Builder.successors_empty]
    exact List.not_mem_nil
  rw [Graph.compile_eq]
  exact ((Builder.kept_notMem 0).enclose ⟨hmarker, hempty⟩ (Nat.le_refl 1) scheme).2 i

/-! ## Solid nodes -/

/-- The arena has a node with the identity. -/
def Builder.Has (id : SegmentId) (b : Builder) : Prop :=
  ∃ i t, b.view.solid? i = some t ∧ t.id = id

theorem Builder.Grows.has {l : List SegmentId} {b b' : Builder} {id : SegmentId}
    (h : b.Grows l b') (hb : b.Has id) : b'.Has id := by
  obtain ⟨i, t, ht, hid⟩ := hb
  exact ⟨i, t, (h.solid? (Graph.lt_size_of_kind? (Graph.solid?_eq_some.mp ht))).trans ht, hid⟩

theorem Builder.kept_has (id : SegmentId) : Kept 0 (Has id) where
  marked := fun b hb => (Grows.marked (l := [])).has hb
  solid := fun b t hb => (b.solid_grows t).has hb
  link := by
    rintro b source target - ⟨i, t, ht, hid⟩
    refine ⟨i, t, ?_, hid⟩
    rw [Graph.solid?_eq_some] at ht ⊢
    rw [kind?_link, ht]

theorem Scope.has_solid (s : Scope) (t : Solid) :
    (s.solid t.kind t.repeats).builder.Has t.id := by
  obtain ⟨u, hu, hid⟩ := s.pass_node t
  refine ⟨(s.pass t).current, u, ?_, hid⟩
  rw [Graph.solid?_eq_some] at hu ⊢
  rw [solid_eq]
  exact (kind?_linkPending _ s.pending _ _).trans hu

/-- Every compilation of the scheme puts a node for each of its identities into the arena. -/
def Scheme.Stocks (scheme : Scheme SegmentId) : Prop :=
  ∀ (s : Scope), ∀ id ∈ Scheme.ids scheme, (Scheme.compile s scheme).builder.Has id

namespace Scheme.Stocks

/-- What is in the arena stays there. -/
theorem later {s : Scope} {id : SegmentId} (h : s.builder.Has id) (rest : Scheme SegmentId) :
    (Scheme.compile s rest).builder.Has id :=
  (Scheme.compile_keeps (Builder.kept_has id) rest s (.of_holds h)).holds

theorem enclose {inner : Scheme SegmentId} (h : Scheme.Stocks inner) (b : Builder)
    {id : SegmentId} (hid : id ∈ Scheme.ids inner) : (b.enclose inner).Has id :=
  (Scope.Keeps.of_holds (h ⟨b.marked, b.size, []⟩ id hid)).close (Builder.kept_has id)
    (Nat.zero_le _)

theorem branches {branches : List (Scheme SegmentId)}
    (h : ∀ branch ∈ branches, Scheme.Stocks branch) (entry exit : Nat) (b : Builder)
    {id : SegmentId} (hid : id ∈ Scheme.branchIds branches) :
    (Scheme.compileBranches entry exit b branches).Has id := by
  have hkept := Builder.kept_has id
  induction branches generalizing b with
  | nil => exact absurd hid (by simp)
  | cons branch rest ih =>
      rw [Scheme.compileBranches_cons]
      rw [Scheme.branchIds_cons] at hid
      rcases List.mem_append.mp hid with hid | hid
      · have hlinked := hkept.link _ entry b.size (Or.inl (Nat.zero_le _))
          ((h branch (by simp)).enclose b hid)
        have hbranch : (b.branch entry exit branch).Has id :=
          hkept.link _ (b.size + 1) exit (Or.inl (Nat.zero_le _)) hlinked
        exact Scheme.Keeps.branches (fun c _ => Scheme.compile_keeps hkept c) hkept hbranch
          (Nat.zero_le _) entry (Nat.zero_le exit)
      · exact ih (fun c hc => h c (List.mem_cons_of_mem branch hc)) _ hid

end Scheme.Stocks

theorem Scheme.compile_stocks (scheme : Scheme SegmentId) : Scheme.Stocks scheme := by
  induction scheme using Scheme.induct with
  | nil => exact fun s id hid => absurd hid (by simp)
  | solid t rest ih =>
      intro s id hid
      rw [Scheme.compile_cons, Segment.compile_solid]
      rw [Scheme.ids_solid] at hid
      rcases List.mem_cons.mp hid with rfl | hid
      · exact Scheme.Stocks.later (s.has_solid t) rest
      · exact ih _ id hid
  | optional inner rest ihinner ihrest =>
      intro s id hid
      rw [Scheme.compile_cons, Segment.compile_optional]
      rw [Scheme.ids_optional] at hid
      rcases List.mem_append.mp hid with hid | hid
      · refine Scheme.Stocks.later ?_ rest
        exact (Builder.kept_has id).link _ s.current _ (Or.inl (Nat.zero_le _))
          (ihinner.enclose s.builder hid)
      · exact ihrest _ id hid
  | union branches rest ihbranches ihrest =>
      intro s id hid
      rw [Scheme.compile_cons, Segment.compile_union]
      rw [Scheme.ids_union] at hid
      rcases List.mem_append.mp hid with hid | hid
      · exact Scheme.Stocks.later (Scheme.Stocks.branches ihbranches _ _ _ hid) rest
      · exact ihrest _ id hid

/-- **One node for each identity of the scheme.** -/
theorem Graph.compile_existsUnique_solid (nextScope : Nat) (scheme : Scheme SegmentId)
    {id : SegmentId} (hid : id ∈ Scheme.ids scheme) :
    ∃! i, ∃ t, (Graph.compile nextScope scheme).1.solid? i = some t ∧ t.id = id := by
  have hunique := Graph.compile_uniqueIds nextScope scheme
  rw [Graph.compile_eq] at hunique ⊢
  obtain ⟨i, t, ht, heq⟩ := (Scheme.compile_stocks scheme).enclose ⟨#[], nextScope⟩ hid
  refine ⟨i, ⟨t, ht, heq⟩, ?_⟩
  rintro j ⟨u, hu, heq'⟩
  exact hunique j i u t hu ht (heq'.trans heq.symm)

/-! ## Scopes and their markers -/

mutual

/-- The number of scopes in a segment: a group is one, a union is one and each of its branches is
one. -/
def Segment.scopes : Segment SegmentId → Nat
  | .keyword _ => 0
  | .var _ => 0
  | .optional inner => Scheme.scopes inner
  | .union branches => Scheme.totalScopes branches + 1

/-- The number of scopes in a scheme that is one itself. -/
def Scheme.scopes : Scheme SegmentId → Nat
  | [] => 1
  | x :: rest => x.scopes + Scheme.scopes rest

/-- The number of scopes in several schemes that are one each. -/
def Scheme.totalScopes : List (Scheme SegmentId) → Nat
  | [] => 0
  | scheme :: rest => Scheme.scopes scheme + Scheme.totalScopes rest

end

/-! ### Numbers given out -/

namespace Builder

variable (b : Builder)

@[simp] theorem nextScope_marked : b.marked.nextScope = b.nextScope + 1 := rfl

@[simp] theorem nextScope_link (source target : Nat) :
    (b.link source target).nextScope = b.nextScope := rfl

@[simp] theorem nextScope_linkAll (source : Nat) (targets : List Nat) :
    (b.linkAll source targets).nextScope = b.nextScope := by
  unfold linkAll
  induction targets generalizing b with
  | nil => rfl
  | cons t ts ih => rw [List.foldl_cons, ih, nextScope_link]

@[simp] theorem nextScope_solid (t : Solid) : (b.solid t.kind).2.nextScope = b.nextScope := by
  rcases b.solid_cases t with ⟨j, t', -, -, h⟩ | ⟨-, h⟩ <;> rw [h]
  rfl

@[simp] theorem nextScope_enter (source node : Nat) (repeats : Bool) :
    (b.enter source node repeats).nextScope = b.nextScope := by
  unfold enter
  cases repeats <;> rfl

end Builder

namespace Scope

variable (s : Scope)

@[simp] theorem nextScope_linkPending (node : Nat) (pending : List (Nat × Nat)) (b : Builder) :
    (linkPending node pending b).nextScope = b.nextScope := by
  induction pending generalizing b with
  | nil => rfl
  | cons p later ih => rw [linkPending, ih, Builder.nextScope_linkAll]

theorem nextScope_close (exit : Nat) : (s.close exit).nextScope = s.builder.nextScope :=
  nextScope_linkPending exit s.pending s.builder

theorem nextScope_solid (t : Solid) :
    (s.solid t.kind t.repeats).builder.nextScope = s.builder.nextScope := by
  rw [solid_eq]
  show (linkPending _ s.pending (s.pass t).builder).nextScope = _
  rw [nextScope_linkPending]
  show ((s.builder.solid t.kind).2.enter s.current _ t.repeats).nextScope = _
  rw [Builder.nextScope_enter, Builder.nextScope_solid]

theorem nextScope_choiceStart : s.choiceStart.nextScope = s.builder.nextScope + 1 := by
  show (linkPending s.builder.size s.pending
    (s.builder.marked.link s.current s.builder.size)).nextScope = _
  rw [nextScope_linkPending, Builder.nextScope_link, Builder.nextScope_marked]

end Scope

/-- Every compilation of the scheme gives out a number for each of its scopes; the scope that is
under construction has got its own before. -/
def Scheme.Counts (scheme : Scheme SegmentId) : Prop :=
  ∀ s : Scope, (Scheme.compile s scheme).builder.nextScope + 1
    = s.builder.nextScope + Scheme.scopes scheme

theorem Scheme.Counts.enclose {inner : Scheme SegmentId} (h : Scheme.Counts inner) (b : Builder) :
    (b.enclose inner).nextScope = b.nextScope + Scheme.scopes inner := by
  have hinner := h ⟨b.marked, b.size, []⟩
  show (Scope.close _ (b.size + 1)).nextScope = _
  rw [Scope.nextScope_close]
  rw [show (⟨b.marked, b.size, []⟩ : Scope).builder.nextScope = b.nextScope + 1 from rfl] at hinner
  omega

theorem Scheme.Counts.branches {branches : List (Scheme SegmentId)}
    (h : ∀ branch ∈ branches, Scheme.Counts branch) (entry exit : Nat) (b : Builder) :
    (Scheme.compileBranches entry exit b branches).nextScope
      = b.nextScope + Scheme.totalScopes branches := by
  induction branches generalizing b with
  | nil => rfl
  | cons branch rest ih =>
      have hbranch : (b.branch entry exit branch).nextScope
          = b.nextScope + Scheme.scopes branch := (h branch (by simp)).enclose b
      rw [Scheme.compileBranches_cons, ih fun c hc => h c (List.mem_cons_of_mem branch hc),
        hbranch, Scheme.totalScopes, Nat.add_assoc]

theorem Scheme.compile_counts (scheme : Scheme SegmentId) : Scheme.Counts scheme := by
  induction scheme using Scheme.induct with
  | nil => exact fun s => rfl
  | solid t rest ih =>
      intro s
      have hnone : t.segment.scopes = 0 := by cases t <;> rfl
      rw [Scheme.compile_cons, Segment.compile_solid, ih, Scope.nextScope_solid, Scheme.scopes,
        hnone, Nat.zero_add]
  | optional inner rest ihinner ihrest =>
      intro s
      have hgroup : (s.group inner).builder.nextScope
          = s.builder.nextScope + Scheme.scopes inner := ihinner.enclose s.builder
      rw [Scheme.compile_cons, Segment.compile_optional, ihrest, hgroup, Scheme.scopes,
        Segment.scopes, Nat.add_assoc]
  | union branches rest ihbranches ihrest =>
      intro s
      have hchoice : (s.choice branches).builder.nextScope
          = s.choiceStart.nextScope + Scheme.totalScopes branches :=
        Scheme.Counts.branches ihbranches _ _ _
      rw [Scheme.compile_cons, Segment.compile_union, ihrest, hchoice, Scope.nextScope_choiceStart,
        Scheme.scopes, Segment.scopes]
      omega

/-- **A compilation gives out as many numbers as its scheme has scopes.** -/
theorem Graph.compile_next (nextScope : Nat) (scheme : Scheme SegmentId) :
    (Graph.compile nextScope scheme).2 = nextScope + Scheme.scopes scheme :=
  (Scheme.compile_counts scheme).enclose ⟨#[], nextScope⟩

/-! ### Markers with their numbers -/

/-- The scopes are numbered from `first` up to `last`, `last` left out: each number belongs to one
entry and one exit, and every marker has one of them. -/
structure Graph.Numbered (g : Graph) (first last : Nat) : Prop where
  mem : ∀ i scope isEntry, g.kind? i = some (.marker scope isEntry) → first ≤ scope ∧ scope < last
  existsUnique : ∀ scope, first ≤ scope → scope < last → ∀ isEntry,
    ∃! i, g.kind? i = some (.marker scope isEntry)

theorem Graph.Numbered.congr {g g' : Graph} {first last : Nat} (h : g.Numbered first last)
    (heq : ∀ i scope isEntry, g'.kind? i = some (.marker scope isEntry) ↔
      g.kind? i = some (.marker scope isEntry)) : g'.Numbered first last := by
  refine ⟨?_, ?_⟩
  · intro i scope isEntry hk
    exact h.mem i scope isEntry ((heq i scope isEntry).mp hk)
  · intro scope hfirst hlast isEntry
    simp only [heq]
    exact h.existsUnique scope hfirst hlast isEntry

namespace Builder

/-- The markers of a new scope are the only ones with the next number. -/
theorem kind?_marked_eq_marker {b : Builder} {i scope : Nat} {isEntry : Bool} :
    b.marked.view.kind? i = some (.marker scope isEntry) ↔
      b.view.kind? i = some (.marker scope isEntry) ∨
        scope = b.nextScope ∧ i = if isEntry then b.size else b.size + 1 := by
  have hout : ∀ j, b.size ≤ j → b.view.kind? j = none := fun j hj => Graph.kind?_of_size_le hj
  rw [kind?_marked]
  by_cases hexit : i = b.size + 1
  · rw [if_pos hexit, hout i (by omega), hexit]
    cases isEntry <;> simp [eq_comm]
  · rw [if_neg hexit]
    by_cases hentry : i = b.size
    · rw [if_pos hentry, hout i (by omega), hentry]
      cases isEntry <;> simp [eq_comm]
    · rw [if_neg hentry]
      cases isEntry <;> simp [hexit, hentry]

theorem kind?_solid_eq_marker {b : Builder} (t : Solid) {i scope : Nat} {isEntry : Bool} :
    (b.solid t.kind).2.view.kind? i = some (.marker scope isEntry) ↔
      b.view.kind? i = some (.marker scope isEntry) := by
  rcases b.solid_cases t with ⟨j, t', -, -, h⟩ | ⟨-, h⟩ <;> rw [h]
  rw [kind?_push]
  by_cases hi : i = b.size
  · rw [if_pos hi, Graph.kind?_of_size_le (g := b.view) (Nat.le_of_eq hi.symm)]
    cases t <;> simp [Solid.kind]
  · rw [if_neg hi]

/-- The numbers that were given out are those up to the next one. -/
theorem kept_numbered (first : Nat) :
    Kept 0 fun b => first ≤ b.nextScope ∧ b.view.Numbered first b.nextScope where
  marked := by
    rintro b ⟨hle, hb⟩
    rw [nextScope_marked]
    refine ⟨Nat.le_succ_of_le hle, ?_, ?_⟩
    · intro i scope isEntry hk
      rcases kind?_marked_eq_marker.mp hk with hk | ⟨rfl, -⟩
      · have hlt := hb.mem i scope isEntry hk
        omega
      · omega
    · intro scope hfirst hlast isEntry
      rcases Nat.lt_succ_iff_lt_or_eq.mp hlast with hlt | rfl
      · -- An old number.
        have hne : scope ≠ b.nextScope := Nat.ne_of_lt hlt
        simp only [kind?_marked_eq_marker, hne, false_and, or_false]
        exact hb.existsUnique scope hfirst hlt isEntry
      · -- The new one, which no old marker has.
        refine ⟨_, kind?_marked_eq_marker.mpr (Or.inr ⟨rfl, rfl⟩), ?_⟩
        intro j hj
        rcases kind?_marked_eq_marker.mp hj with hk | ⟨-, hj⟩
        · have hlt := (hb.mem j _ isEntry hk).2
          omega
        · exact hj
  solid := by
    rintro b t ⟨hle, hb⟩
    rw [nextScope_solid]
    exact ⟨hle, hb.congr fun i scope isEntry => kind?_solid_eq_marker t⟩
  link := by
    rintro b source target - ⟨hle, hb⟩
    refine ⟨hle, hb.congr fun i scope isEntry => ?_⟩
    rw [kind?_link]

end Builder

/-- **Two markers for each scope of the scheme**: its entry and its exit, under a number of their
own. -/
theorem Graph.compile_numbered (nextScope : Nat) (scheme : Scheme SegmentId) :
    (Graph.compile nextScope scheme).1.Numbered nextScope
      (nextScope + Scheme.scopes scheme) := by
  have hkept := Builder.kept_numbered nextScope
  have hempty : (⟨#[], nextScope⟩ : Builder).view.Numbered nextScope nextScope := by
    refine ⟨?_, fun scope hfirst hlast => absurd hlast (Nat.not_lt.mpr hfirst)⟩
    intro i scope isEntry hk
    rw [Graph.kind?_of_size_le (Nat.zero_le i)] at hk
    exact absurd hk (by simp)
  have hmarked := hkept.marked ⟨#[], nextScope⟩ ⟨Nat.le_refl _, hempty⟩
  rw [← Graph.compile_next, Graph.compile_eq]
  exact (hkept.enclose hmarked (Nat.zero_le _) scheme).2

end CommandGrammar
