import CommandGrammar.Graph.Compile
import CommandGrammar.Proofs.Segment.Language

/-!
# `Proofs.Graph.Arena` — what the operations of a builder do to the arena

A builder is looked at through the same two questions as a finished graph: what a node stands for
and which nodes follow it (`Builder.view`). Each operation gets one equation per question; later
modules use these and never look into the array.

`Builder.Grows` collects what every piece of a compilation leaves intact: nodes keep their kind,
links are only added, identities stay unique. It holds for every scheme, also one that uses a
segment in several places.

## Contents
- `Graph.solid?`, `Graph.IsMarker`: the two sorts of nodes.
- `Builder.view` with the equations of `push`, `scope`, `link`, `linkAll`.
- `addTarget`, `addTargets`: a list of successors after linking.
- `Builder.Grows` with one lemma per operation.
-/

namespace CommandGrammar

/-! ## Nodes of a graph -/

namespace Graph

/-- The solid segment at a place, if there is one. -/
def solid? (g : Graph) (i : Nat) : Option Solid :=
  (g.kind? i).bind NodeKind.solid?

/-- The node at a place is a marker. -/
def IsMarker (g : Graph) (i : Nat) : Prop :=
  ∃ scope isEntry, g.kind? i = some (.marker scope isEntry)

theorem solid?_eq_some {g : Graph} {i : Nat} {t : Solid} :
    g.solid? i = some t ↔ g.kind? i = some t.kind := by
  unfold solid?
  cases h : g.kind? i with
  | none => simp
  | some k => simp [NodeKind.solid?_eq_some]

theorem eq_var_of_solid? {g : Graph} {i : Nat} {t : Solid} {v : Variable SegmentId}
    (ht : g.solid? i = some t) (hv : g.kind? i = some (.var v)) : t = .var v :=
  Option.some.inj (ht.symm.trans (solid?_eq_some.mpr hv))

/-- No marker stands for a segment. -/
theorem IsMarker.solid?_ne_some {g : Graph} {i : Nat} (h : g.IsMarker i) (t : Solid) :
    g.solid? i ≠ some t := by
  obtain ⟨scope, isEntry, h⟩ := h
  simp [solid?, h, NodeKind.solid?]

/-- A place that holds no solid node holds a marker or nothing. -/
theorem solid?_eq_none {g : Graph} {i : Nat} :
    g.solid? i = none ↔ g.kind? i = none ∨ g.IsMarker i := by
  unfold solid? IsMarker
  cases h : g.kind? i with
  | none => simp
  | some k => cases k <;> simp [NodeKind.solid?]

/-- No identity belongs to two nodes. -/
def UniqueIds (g : Graph) : Prop :=
  ∀ i j s t, g.solid? i = some s → g.solid? j = some t → s.id = t.id → i = j

/-- Every link leads into the arena. -/
def Closed (g : Graph) : Prop :=
  ∀ i, ∀ j ∈ g.successors i, j < g.nodes.size

/-- Out of range there is no node. -/
theorem kind?_of_size_le {g : Graph} {i : Nat} (h : g.nodes.size ≤ i) : g.kind? i = none := by
  unfold kind?
  rw [Array.getElem?_eq_none h]
  rfl

theorem kind?_of_lt_size {g : Graph} {i : Nat} (h : i < g.nodes.size) :
    g.kind? i = some g.nodes[i].kind := by
  unfold kind?
  rw [Array.getElem?_eq_getElem h]
  rfl

theorem lt_size_of_kind? {g : Graph} {i : Nat} {k : NodeKind} (h : g.kind? i = some k) :
    i < g.nodes.size := by
  apply Nat.lt_of_not_le
  intro hle
  rw [kind?_of_size_le hle] at h
  exact absurd h (by simp)

theorem successors_of_size_le {g : Graph} {i : Nat} (h : g.nodes.size ≤ i) :
    g.successors i = [] := by
  unfold successors
  rw [Array.getElem?_eq_none h]

end Graph

/-! ## Lists of successors -/

/-- A list of successors after one link. -/
def addTarget (edges : List Nat) (target : Nat) : List Nat :=
  if edges.contains target then edges else edges ++ [target]

/-- A list of successors after several links. -/
def addTargets (edges targets : List Nat) : List Nat :=
  targets.foldl addTarget edges

@[simp] theorem addTargets_nil (edges : List Nat) : addTargets edges [] = edges := rfl

theorem addTargets_cons (edges : List Nat) (t : Nat) (ts : List Nat) :
    addTargets edges (t :: ts) = addTargets (addTarget edges t) ts := rfl

theorem mem_addTarget {edges : List Nat} {t j : Nat} :
    j ∈ addTarget edges t ↔ j ∈ edges ∨ j = t := by
  unfold addTarget
  by_cases h : edges.contains t
  · rw [if_pos h]
    have ht : t ∈ edges := by simpa using h
    exact ⟨Or.inl, fun hj => hj.elim (fun hj => hj) (fun hj => hj ▸ ht)⟩
  · rw [if_neg h]
    simp

theorem nodup_addTarget {edges : List Nat} (h : edges.Nodup) (t : Nat) :
    (addTarget edges t).Nodup := by
  unfold addTarget
  by_cases ht : edges.contains t
  · rwa [if_pos ht]
  · rw [if_neg ht, List.nodup_append]
    refine ⟨h, List.nodup_singleton t, ?_⟩
    rintro u hu v hv rfl
    rw [List.mem_singleton.mp hv] at hu
    exact ht (List.contains_iff_mem.mpr hu)

theorem mem_addTargets {edges ts : List Nat} {j : Nat} :
    j ∈ addTargets edges ts ↔ j ∈ edges ∨ j ∈ ts := by
  induction ts generalizing edges with
  | nil => simp
  | cons t ts ih =>
      rw [addTargets_cons, ih, mem_addTarget, List.mem_cons, or_assoc]

/-! ## Looking at a builder -/

namespace Builder

/-- The arena under construction as a graph. The first two nodes are the markers of the whole
scheme, as `Graph.compile` leaves them. -/
def view (b : Builder) : Graph := ⟨b.nodes, 0, 1⟩

/-- The number of nodes. -/
def size (b : Builder) : Nat := b.nodes.size

@[simp] theorem size_view (b : Builder) : b.view.nodes.size = b.size := rfl

/-! ### A new node -/

@[simp] theorem size_push (b : Builder) (kind : NodeKind) : (b.push kind).2.size = b.size + 1 := by
  simp [push, size]

theorem kind?_push (b : Builder) (kind : NodeKind) (i : Nat) :
    (b.push kind).2.view.kind? i = if i = b.size then some kind else b.view.kind? i := by
  simp only [push, view, Graph.kind?, Array.getElem?_push]
  by_cases h : i = b.size
  · rw [if_pos h, if_pos (show i = b.nodes.size from h)]
    rfl
  · rw [if_neg h, if_neg (show ¬ i = b.nodes.size from h)]

@[simp] theorem successors_push (b : Builder) (kind : NodeKind) (i : Nat) :
    (b.push kind).2.view.successors i = b.view.successors i := by
  simp only [push, view, Graph.successors, Array.getElem?_push]
  by_cases h : i = b.nodes.size
  · rw [if_pos h, Array.getElem?_eq_none (by omega)]
  · rw [if_neg h]

/-! ### A new scope -/

/-- The arena with the markers of a new scope. -/
def marked (b : Builder) : Builder := b.scope.2

theorem scope_eq (b : Builder) : b.scope = ((b.size, b.size + 1), b.marked) := by
  simp [scope, push, marked, size]

theorem marked_eq (b : Builder) :
    b.marked = (({ b with nextScope := b.nextScope + 1 }.push (.marker b.nextScope true)).2.push
      (.marker b.nextScope false)).2 := rfl

@[simp] theorem size_marked (b : Builder) : b.marked.size = b.size + 2 := by
  rw [marked_eq, size_push, size_push]
  rfl

theorem kind?_marked (b : Builder) (i : Nat) :
    b.marked.view.kind? i =
      if i = b.size + 1 then some (.marker b.nextScope false)
      else if i = b.size then some (.marker b.nextScope true)
      else b.view.kind? i := by
  rw [marked_eq, kind?_push, kind?_push, size_push]
  rfl

@[simp] theorem successors_marked (b : Builder) (i : Nat) :
    b.marked.view.successors i = b.view.successors i := by
  rw [marked_eq, successors_push, successors_push]
  rfl

theorem isMarker_marked_entry (b : Builder) : b.marked.view.IsMarker b.size := by
  refine ⟨b.nextScope, true, ?_⟩
  rw [kind?_marked, if_neg (by omega), if_pos rfl]

theorem isMarker_marked_exit (b : Builder) : b.marked.view.IsMarker (b.size + 1) := by
  refine ⟨b.nextScope, false, ?_⟩
  rw [kind?_marked, if_pos rfl]

/-! ### Links -/

@[simp] theorem size_link (b : Builder) (source target : Nat) :
    (b.link source target).size = b.size := by
  simp [link, size]

@[simp] theorem kind?_link (b : Builder) (source target i : Nat) :
    (b.link source target).view.kind? i = b.view.kind? i := by
  simp only [link, view, Graph.kind?, Array.getElem?_modify]
  by_cases h : source = i
  · rw [if_pos h]
    cases b.nodes[i]? with
    | none => rfl
    | some n =>
        simp only [Option.map_some]
        split <;> rfl
  · rw [if_neg h]

@[simp] theorem isMarker_link (b : Builder) (source target i : Nat) :
    (b.link source target).view.IsMarker i ↔ b.view.IsMarker i := by
  simp only [Graph.IsMarker, kind?_link]

@[simp] theorem successors_link_self {b : Builder} {source : Nat} (h : source < b.size)
    (target : Nat) :
    (b.link source target).view.successors source
      = addTarget (b.view.successors source) target := by
  have hn : b.nodes[source]? = some b.nodes[source] := Array.getElem?_eq_getElem h
  simp only [link, view, Graph.successors, Array.getElem?_modify, hn, if_true, Option.map_some,
    addTarget]
  split <;> rfl

@[simp] theorem successors_link_of_ne {b : Builder} {source i : Nat} (h : i ≠ source)
    (target : Nat) : (b.link source target).view.successors i = b.view.successors i := by
  simp only [link, view, Graph.successors, Array.getElem?_modify]
  rw [if_neg (fun hc => h hc.symm)]

/-- Linking out of range does nothing; elsewhere it adds one target. -/
theorem successors_link_cases (b : Builder) (source target i : Nat) :
    (b.link source target).view.successors i = b.view.successors i ∨
      (b.link source target).view.successors i = addTarget (b.view.successors i) target := by
  by_cases hi : i = source
  · subst hi
    by_cases hlt : i < b.size
    · exact Or.inr (successors_link_self hlt target)
    · have hle : b.size ≤ i := Nat.le_of_not_lt hlt
      left
      rw [Graph.successors_of_size_le (by rwa [size_view, size_link]),
        Graph.successors_of_size_le hle]
  · exact Or.inl (successors_link_of_ne hi target)

@[simp] theorem size_linkAll (b : Builder) (source : Nat) (targets : List Nat) :
    (b.linkAll source targets).size = b.size := by
  unfold linkAll
  induction targets generalizing b with
  | nil => rfl
  | cons t ts ih => rw [List.foldl_cons, ih, size_link]

@[simp] theorem kind?_linkAll (b : Builder) (source : Nat) (targets : List Nat) (i : Nat) :
    (b.linkAll source targets).view.kind? i = b.view.kind? i := by
  unfold linkAll
  induction targets generalizing b with
  | nil => rfl
  | cons t ts ih => rw [List.foldl_cons, ih, kind?_link]

theorem successors_linkAll_self {b : Builder} {source : Nat} (h : source < b.size)
    (targets : List Nat) :
    (b.linkAll source targets).view.successors source
      = addTargets (b.view.successors source) targets := by
  unfold linkAll
  induction targets generalizing b with
  | nil => rfl
  | cons t ts ih =>
      rw [List.foldl_cons, ih (by rwa [size_link]), successors_link_self h, addTargets_cons]

theorem successors_linkAll_of_ne {b : Builder} {source i : Nat} (h : i ≠ source)
    (targets : List Nat) :
    (b.linkAll source targets).view.successors i = b.view.successors i := by
  unfold linkAll
  induction targets generalizing b with
  | nil => rfl
  | cons t ts ih => rw [List.foldl_cons, ih, successors_link_of_ne h]

/-! ## What every operation leaves intact -/

/-- `b'` comes from `b` by adding nodes and links: nodes keep their kind and their successors, every
new solid node has one of the given identities, and the arena stays well formed. -/
structure Grows (ids : List SegmentId) (b b' : Builder) : Prop where
  size_le : b.size ≤ b'.size
  kind : ∀ i < b.size, b'.view.kind? i = b.view.kind? i
  successors : ∀ i, b.view.successors i ⊆ b'.view.successors i
  fresh : ∀ i t, b.size ≤ i → b'.view.solid? i = some t → t.id ∈ ids
  unique : b.view.UniqueIds → b'.view.UniqueIds
  closed : b.view.Closed → b'.view.Closed

namespace Grows

variable {l l' : List SegmentId} {b b' b'' : Builder}

theorem refl : Grows l b b where
  size_le := Nat.le_refl _
  kind := fun _ _ => rfl
  successors := fun _ => List.Subset.refl _
  fresh := by
    intro i t hi ht
    have hlt := Graph.lt_size_of_kind? (Graph.solid?_eq_some.mp ht)
    exact absurd hlt (Nat.not_lt.mpr hi)
  unique := fun h => h
  closed := fun h => h

theorem solid? (h : Grows l b b') {i : Nat} (hi : i < b.size) :
    b'.view.solid? i = b.view.solid? i := by
  unfold Graph.solid?
  rw [h.kind i hi]

theorem isMarker (h : Grows l b b') {i : Nat} (hi : b.view.IsMarker i) : b'.view.IsMarker i := by
  obtain ⟨scope, isEntry, hk⟩ := hi
  exact ⟨scope, isEntry, by rw [h.kind i (Graph.lt_size_of_kind? hk), hk]⟩

theorem trans (h : Grows l b b') (h' : Grows l b' b'') : Grows l b b'' where
  size_le := Nat.le_trans h.size_le h'.size_le
  kind := by
    intro i hi
    rw [h'.kind i (Nat.lt_of_lt_of_le hi h.size_le), h.kind i hi]
  successors := fun i => List.Subset.trans (h.successors i) (h'.successors i)
  fresh := by
    intro i t hi ht
    by_cases hlt : i < b'.size
    · rw [h'.solid? hlt] at ht
      exact h.fresh i t hi ht
    · exact h'.fresh i t (Nat.le_of_not_lt hlt) ht
  unique := fun hu => h'.unique (h.unique hu)
  closed := fun hc => h'.closed (h.closed hc)

theorem mono (h : Grows l b b') (hsub : l ⊆ l') : Grows l' b b' :=
  { h with fresh := fun i t hi ht => hsub (h.fresh i t hi ht) }

/-- Adding links between nodes of the arena. -/
theorem of_links (hsize : b'.size = b.size)
    (hkind : ∀ i, b'.view.kind? i = b.view.kind? i)
    (hsucc : ∀ i, ∀ j ∈ b.view.successors i, j ∈ b'.view.successors i)
    (hnew : ∀ i, ∀ j ∈ b'.view.successors i, j ∈ b.view.successors i ∨ j < b.size) :
    Grows l b b' where
  size_le := Nat.le_of_eq hsize.symm
  kind := fun i _ => hkind i
  successors := fun i j hj => hsucc i j hj
  fresh := by
    intro i t hi ht
    have hlt := Graph.lt_size_of_kind? (Graph.solid?_eq_some.mp ht)
    rw [size_view, hsize] at hlt
    exact absurd hlt (Nat.not_lt.mpr hi)
  unique := by
    have hsolid : ∀ i, b'.view.solid? i = b.view.solid? i := by
      intro i
      unfold Graph.solid?
      rw [hkind]
    intro hu i j s t hs ht
    rw [hsolid] at hs ht
    exact hu i j s t hs ht
  closed := by
    intro hc i j hj
    rw [size_view, hsize]
    rcases hnew i j hj with h | h
    · exact hc i j h
    · exact h

theorem link (source : Nat) {target : Nat} (h : target < b.size) :
    Grows l b (b.link source target) := by
  refine of_links (size_link b source target) (kind?_link b source target) ?_ ?_
  · intro i j hj
    rcases b.successors_link_cases source target i with h' | h' <;> rw [h']
    · exact hj
    · exact mem_addTarget.mpr (Or.inl hj)
  · intro i j hj
    rcases b.successors_link_cases source target i with h' | h' <;> rw [h'] at hj
    · exact Or.inl hj
    · refine (mem_addTarget.mp hj).imp_right (fun he => ?_)
      rw [he]
      exact h

theorem linkAll (source : Nat) {targets : List Nat} (h : ∀ t ∈ targets, t < b.size) :
    Grows l b (b.linkAll source targets) := by
  induction targets generalizing b with
  | nil => exact refl
  | cons t ts ih =>
      have hlink : Grows l b (b.link source t) := link source (h t (by simp))
      refine hlink.trans (ih ?_)
      intro u hu
      rw [size_link]
      exact h u (by simp [hu])

/-- Adding a node whose identity, if it has one, is new. -/
theorem push (kind : NodeKind) (hids : ∀ id, kind.id? = some id → id ∈ l)
    (hnew : ∀ i t id, b.view.solid? i = some t → kind.id? = some id → t.id ≠ id) :
    Grows l b (b.push kind).2 where
  size_le := by
    rw [size_push]
    omega
  kind := by
    intro i hi
    rw [kind?_push, if_neg (by omega)]
  successors := by
    intro i
    rw [successors_push]
    exact List.Subset.refl _
  fresh := by
    intro i t hi ht
    have hk := Graph.solid?_eq_some.mp ht
    rw [kind?_push] at hk
    by_cases h : i = b.size
    · rw [if_pos h] at hk
      have hkind : kind = t.kind := Option.some.inj hk
      exact hids t.id (by rw [hkind, Solid.kind_id?])
    · rw [if_neg h] at hk
      have hlt := Graph.lt_size_of_kind? hk
      exact absurd hlt (Nat.not_lt.mpr hi)
  unique := by
    intro hu i j s t hs ht hid
    have hs' := Graph.solid?_eq_some.mp hs
    have ht' := Graph.solid?_eq_some.mp ht
    rw [kind?_push] at hs' ht'
    -- Two old nodes, or an old one and the new one, whose identity is not in the arena yet.
    by_cases hi : i = b.size <;> by_cases hj : j = b.size
    · rw [hi, hj]
    · rw [if_pos hi] at hs'
      rw [if_neg hj] at ht'
      have hkind : kind = s.kind := Option.some.inj hs'
      exact absurd hid.symm
        (hnew j t s.id (Graph.solid?_eq_some.mpr ht') (by rw [hkind, Solid.kind_id?]))
    · rw [if_neg hi] at hs'
      rw [if_pos hj] at ht'
      have hkind : kind = t.kind := Option.some.inj ht'
      exact absurd hid
        (hnew i s t.id (Graph.solid?_eq_some.mpr hs') (by rw [hkind, Solid.kind_id?]))
    · rw [if_neg hi] at hs'
      rw [if_neg hj] at ht'
      exact hu i j s t (Graph.solid?_eq_some.mpr hs') (Graph.solid?_eq_some.mpr ht') hid
  closed := by
    intro hc i j hj
    rw [successors_push] at hj
    rw [size_view, size_push]
    have hlt : j < b.size := hc i j hj
    omega

theorem marked : Grows l b b.marked := by
  have hscope : Grows l b { b with nextScope := b.nextScope + 1 } :=
    of_links rfl (fun _ => rfl) (fun _ _ h => h) (fun _ _ h => Or.inl h)
  rw [marked_eq]
  refine hscope.trans ((push _ ?_ ?_).trans (push _ ?_ ?_)) <;> simp [NodeKind.id?]

end Grows
end Builder
end CommandGrammar
