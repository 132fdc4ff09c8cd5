import CommandGrammar.Proofs.Graph.Growth

/-!
# `Proofs.Graph.Dues` — the links that a scope still has to make

The compilation does not link a segment when it reads it: what the segment leads to is known only
when the next one is read, and an optional group stays pending until something that must be there
follows, or the scope ends. `Scope.dues` lists the nodes that a node still has to be linked to, in
the order in which this will happen, given the nodes that come next. Every step of a compilation
pays some of these dues and hands on the others; here this is one equation per step.

The order matters: the nodes that follow a node are tried in the order of its links.

## Contents
- `addTargets_append`, `addTargets_of_new`.
- `Builder.successors_link`, `Builder.successors_linkAll`, `Scope.successors_linkPending`.
- `Scope.dues`, `Scope.Tidy`.
- `Scope.successors_close`, `Scope.successors_solid`, `Scope.successors_group`,
  `Scope.dues_group`, `Scope.successors_choiceStart`, `Builder.successors_branch`: one step.
-/

namespace CommandGrammar

/-! ## Lists of successors -/

theorem addTargets_append (edges ts us : List Nat) :
    addTargets edges (ts ++ us) = addTargets (addTargets edges ts) us :=
  List.foldl_append

/-- Targets that are new and different are appended. -/
theorem addTargets_of_new {edges ts : List Nat} (hnodup : ts.Nodup) (hnew : ∀ t ∈ ts, t ∉ edges) :
    addTargets edges ts = edges ++ ts := by
  induction ts generalizing edges with
  | nil => simp
  | cons t ts ih =>
      rw [List.nodup_cons] at hnodup
      have ht : t ∉ edges := hnew t (by simp)
      have hstep : addTarget edges t = edges ++ [t] := by simp [addTarget, ht]
      rw [addTargets_cons, hstep, ih hnodup.2, List.append_assoc, List.singleton_append]
      intro u hu hmem
      rcases List.mem_append.mp hmem with hmem | hmem
      · exact hnew u (List.mem_cons_of_mem t hu) hmem
      · rw [List.mem_singleton.mp hmem] at hu
        exact hnodup.1 hu

theorem addTargets_nil_of_nodup {ts : List Nat} (h : ts.Nodup) : addTargets [] ts = ts := by
  rw [addTargets_of_new h fun t _ => List.not_mem_nil, List.nil_append]

/-! ## Links -/

namespace Builder

variable {b : Builder} {source i : Nat}

theorem successors_linkAll (h : source < b.size) (targets : List Nat) (i : Nat) :
    (b.linkAll source targets).view.successors i
      = addTargets (b.view.successors i) (if i = source then targets else []) := by
  by_cases hi : i = source
  · rw [if_pos hi, hi, successors_linkAll_self h]
  · rw [if_neg hi, addTargets_nil, successors_linkAll_of_ne hi]

theorem successors_link (h : source < b.size) (target i : Nat) :
    (b.link source target).view.successors i
      = addTargets (b.view.successors i) (if i = source then [target] else []) :=
  successors_linkAll h [target] i

theorem successors_eq_nil (h : b.size ≤ i) : b.view.successors i = [] :=
  Graph.successors_of_size_le h

@[simp] theorem size_enter (b : Builder) (source node : Nat) (repeats : Bool) :
    (b.enter source node repeats).size = b.size := by
  unfold enter
  cases repeats <;> simp

theorem successors_enter {node : Nat} (hsource : source < b.size) (hnode : node < b.size)
    (repeats : Bool) (i : Nat) :
    (b.enter source node repeats).view.successors i
      = addTargets (b.view.successors i) ((if i = source then [node] else [])
        ++ if repeats = true ∧ i = node then [node] else []) := by
  unfold enter
  rw [addTargets_append]
  cases repeats with
  | false =>
      rw [if_neg (by simp), successors_link hsource, if_neg (by simp : ¬ (false = true ∧ i = node)),
        addTargets_nil]
  | true =>
      rw [if_pos rfl, successors_link (by rwa [size_link]), successors_link hsource]
      simp only [true_and]

theorem successors_solid (b : Builder) (t : Solid) (i : Nat) :
    (b.solid t.kind).2.view.successors i = b.view.successors i := by
  rcases b.solid_cases t with ⟨j, t', -, -, h⟩ | ⟨-, h⟩
  · rw [h]
  · rw [h]
    exact successors_push b t.kind i

@[simp] theorem size_branch (b : Builder) (entry exit : Nat) (branch : Scheme SegmentId) :
    (b.branch entry exit branch).size = (b.enclose branch).size := by
  unfold Builder.branch
  rw [size_link, size_link]

/-- A branch is put between the markers of its union. -/
theorem successors_branch {entry : Nat} (hentry : entry < b.size) (exit : Nat)
    (branch : Scheme SegmentId) (i : Nat) :
    (b.branch entry exit branch).view.successors i
      = addTargets ((b.enclose branch).view.successors i) ((if i = entry then [b.size] else [])
        ++ if i = b.size + 1 then [exit] else []) := by
  have hle := b.size_add_two_le_enclose branch
  unfold Builder.branch
  rw [successors_link (by rw [size_link]; omega), successors_link (by omega), addTargets_append]

end Builder

/-! ## Dues -/

namespace Scope

/-- What the exits of pending groups still have to be linked to, if `first` comes next: the entries
of the later groups, and `first`. -/
def groupDues (first : List Nat) : List (Nat × Nat) → Nat → List Nat
  | [], _ => []
  | (_, exit) :: later, i =>
    (if i = exit then later.map (·.1) ++ first else []) ++ groupDues first later i

/-- What a node still has to be linked to, if `first` comes next in the scope. -/
def dues (s : Scope) (first : List Nat) (i : Nat) : List Nat :=
  (if i = s.current then first else []) ++ groupDues first s.pending i

/-- A scope under construction goes on from a node that is not the exit of a pending group. -/
structure Tidy (s : Scope) : Prop extends s.InArena where
  apart : ∀ p ∈ s.pending, p.2 ≠ s.current

variable {s : Scope} {first : List Nat}

theorem groupDues_eq_nil {pending : List (Nat × Nat)} {i : Nat} (h : ∀ p ∈ pending, p.2 ≠ i) :
    groupDues first pending i = [] := by
  induction pending with
  | nil => rfl
  | cons p later ih =>
      have hp : i ≠ p.2 := (h p (by simp)).symm
      show (if i = p.2 then _ else []) ++ groupDues first later i = []
      rw [if_neg hp, ih fun q hq => h q (List.mem_cons_of_mem p hq), List.nil_append]

/-- One more pending group: its entry comes next, and its exit waits like the others. -/
theorem groupDues_concat (pending : List (Nat × Nat)) (entry exit i : Nat) :
    groupDues first (pending ++ [(entry, exit)]) i
      = groupDues (entry :: first) pending i ++ if i = exit then first else [] := by
  induction pending with
  | nil => simp [groupDues]
  | cons p later ih =>
      rw [List.cons_append]
      show (if i = p.2 then (later ++ [(entry, exit)]).map (·.1) ++ first else [])
          ++ groupDues first (later ++ [(entry, exit)]) i
        = ((if i = p.2 then later.map (·.1) ++ entry :: first else [])
          ++ groupDues (entry :: first) later i) ++ _
      rw [ih, List.append_assoc]
      congr 1
      simp

/-- Places outside the arena have no dues. -/
theorem dues_eq_nil (hs : s.InArena) {i : Nat} (hi : s.builder.size ≤ i) :
    s.dues first i = [] := by
  have hcurrent := hs.current
  have hpending : ∀ p ∈ s.pending, p.2 ≠ i := by
    intro p hp
    have hlt := (hs.pending p hp).2
    omega
  unfold dues
  rw [groupDues_eq_nil hpending, if_neg (by omega), List.nil_append]

theorem successors_linkPending {pending : List (Nat × Nat)} {b : Builder} (node : Nat)
    (h : ∀ p ∈ pending, p.2 < b.size) (i : Nat) :
    (linkPending node pending b).view.successors i
      = addTargets (b.view.successors i) (groupDues [node] pending i) := by
  induction pending generalizing b with
  | nil => rfl
  | cons p later ih =>
      have hlater : ∀ q ∈ later, q.2 < (b.linkAll p.2 (later.map (·.1) ++ [node])).size := by
        intro q hq
        rw [Builder.size_linkAll]
        exact h q (List.mem_cons_of_mem p hq)
      rw [linkPending, ih hlater, Builder.successors_linkAll (h p (by simp)), ← addTargets_append]
      rfl

/-! ## The end of a scope -/

@[simp] theorem size_close (s : Scope) (exit : Nat) : (s.close exit).size = s.builder.size := by
  show ((linkPending exit s.pending s.builder).link s.current exit).size = _
  rw [Builder.size_link, size_linkPending]

/-- **Closing a scope pays its dues.** -/
theorem successors_close (hs : s.Tidy) (exit i : Nat) :
    (s.close exit).view.successors i
      = addTargets (s.builder.view.successors i) (s.dues [exit] i) := by
  have hcurrent : s.current < (linkPending exit s.pending s.builder).size := by
    rw [size_linkPending]
    exact hs.current
  show ((linkPending exit s.pending s.builder).link s.current exit).view.successors i = _
  rw [Builder.successors_link hcurrent,
    successors_linkPending exit fun p hp => (hs.pending p hp).2, ← addTargets_append]
  unfold dues
  -- The exits of the groups come first here; they are other nodes.
  by_cases hi : i = s.current
  · rw [groupDues_eq_nil fun p hp => hi ▸ hs.apart p hp, List.nil_append, List.append_nil]
  · rw [if_neg hi, List.append_nil, List.nil_append]

theorem tidy_enclosed (b : Builder) : Tidy ⟨b.marked, b.size, []⟩ :=
  ⟨inArena_enclosed b, fun _ hp => absurd hp List.not_mem_nil⟩

/-! ## Steps -/

/-- The node of a solid segment comes next, and itself if it repeats. -/
theorem successors_solid (hs : s.InArena) (t : Solid) (i : Nat) :
    let node := (s.builder.solid t.kind).1
    (s.solid t.kind t.repeats).builder.view.successors i
      = addTargets (s.builder.view.successors i) (((if i = s.current then [node] else [])
        ++ if t.repeats = true ∧ i = node then [node] else []) ++ groupDues [node] s.pending i) := by
  intro node
  have hpending : ∀ p ∈ s.pending, p.2 < (s.pass t).builder.size := by
    intro p hp
    exact Nat.lt_of_lt_of_le (hs.pending p hp).2 (pass_grows hs t).1.size_le
  have hcurrent := Nat.lt_of_lt_of_le hs.current (s.builder.solid_grows t).size_le
  rw [solid_eq, addTargets_append]
  show (linkPending node s.pending (s.pass t).builder).view.successors i = _
  rw [successors_linkPending node hpending]
  unfold pass
  rw [Builder.successors_enter hcurrent (s.builder.solid_lt t), Builder.successors_solid]

theorem size_solid (s : Scope) (t : Solid) :
    (s.solid t.kind t.repeats).builder.size = (s.builder.solid t.kind).2.size := by
  rw [solid_eq]
  show (linkPending _ s.pending (s.pass t).builder).size = _
  rw [size_linkPending]
  exact Builder.size_enter _ _ _ _

theorem dues_solid (s : Scope) (t : Solid) (first : List Nat) (i : Nat) :
    (s.solid t.kind t.repeats).dues first i
      = if i = (s.builder.solid t.kind).1 then first else [] :=
  List.append_nil _

theorem tidy_solid (hs : s.InArena) (t : Solid) : (s.solid t.kind t.repeats).Tidy :=
  ⟨(solid_grows hs t).2, fun p hp => absurd hp (by simp [solid_eq, settle])⟩

/-- A group is linked to its entry; the rest of it is a scope between new markers. -/
theorem successors_group (hs : s.InArena) (inner : Scheme SegmentId) (i : Nat) :
    (s.group inner).builder.view.successors i
      = addTargets ((s.builder.enclose inner).view.successors i)
        (if i = s.current then [s.builder.size] else []) := by
  have hle := s.builder.size_add_two_le_enclose inner
  have hcurrent := hs.current
  exact Builder.successors_link (by omega) s.builder.size i

/-- After a group either the group comes next or what comes next after it, and its exit waits for
the latter. -/
theorem dues_group (s : Scope) (inner : Scheme SegmentId) (first : List Nat) (i : Nat) :
    (if i = s.current then [s.builder.size] else []) ++ (s.group inner).dues first i
      = s.dues (s.builder.size :: first) i ++ if i = s.builder.size + 1 then first else [] := by
  unfold dues
  show _ ++ ((if i = s.current then first else []) ++ groupDues first (s.pending ++ [_]) i) = _
  rw [groupDues_concat]
  by_cases hi : i = s.current <;> simp [hi]

theorem tidy_group (hs : s.Tidy) (inner : Scheme SegmentId) : (s.group inner).Tidy := by
  have hcurrent := hs.current
  refine ⟨(Scheme.Grows.group hs.toInArena (Scheme.compile_grows inner)).2, ?_⟩
  intro p hp
  show p.2 ≠ s.current
  rcases List.mem_append.mp hp with hp | hp
  · exact hs.apart p hp
  · rw [List.mem_singleton.mp hp]
    show s.builder.size + 1 ≠ s.current
    omega

/-- The entry of a union comes next. -/
theorem successors_choiceStart (hs : s.InArena) (i : Nat) :
    s.choiceStart.view.successors i
      = addTargets (s.builder.view.successors i) (s.dues [s.builder.size] i) := by
  have hgrow : s.builder.Grows [] s.builder.marked := .marked
  have hcurrent := Nat.lt_of_lt_of_le hs.current hgrow.size_le
  have hpending : ∀ p ∈ s.pending, p.2 < (s.builder.marked.link s.current s.builder.size).size := by
    intro p hp
    rw [Builder.size_link]
    exact Nat.lt_of_lt_of_le (hs.pending p hp).2 hgrow.size_le
  show (linkPending s.builder.size s.pending
    (s.builder.marked.link s.current s.builder.size)).view.successors i = _
  rw [successors_linkPending _ hpending, Builder.successors_link hcurrent,
    Builder.successors_marked, ← addTargets_append]
  rfl

theorem dues_choice (s : Scope) (branches : List (Scheme SegmentId)) (first : List Nat) (i : Nat) :
    (s.choice branches).dues first i = if i = s.builder.size + 1 then first else [] :=
  List.append_nil _

theorem tidy_choice (hs : s.InArena) (branches : List (Scheme SegmentId)) :
    (s.choice branches).Tidy :=
  ⟨(Scheme.Grows.choice hs fun c _ => Scheme.compile_grows c).2,
    fun _ hp => absurd hp List.not_mem_nil⟩

end Scope

/-- Every step leaves a tidy scope. -/
theorem Segment.tidy_compile (x : Segment SegmentId) {s : Scope} (hs : s.Tidy) :
    (x.compile s).Tidy := by
  cases x with
  | keyword k => exact Scope.tidy_solid hs.toInArena (.keyword k)
  | var v => exact Scope.tidy_solid hs.toInArena (.var v)
  | optional inner =>
      rw [Segment.compile_optional]
      exact Scope.tidy_group hs inner
  | union branches =>
      rw [Segment.compile_union]
      exact Scope.tidy_choice hs.toInArena branches

/-- Having compiled a scheme and closed the scope, an arena has only grown. -/
theorem Scheme.closed_grows (scheme : Scheme SegmentId) {s : Scope} (hs : s.InArena) {exit : Nat}
    (hexit : exit < s.builder.size) :
    s.builder.Grows (Scheme.ids scheme) ((Scheme.compile s scheme).close exit) := by
  obtain ⟨hgrow, hin⟩ := Scheme.compile_grows scheme s hs
  exact hgrow.trans (Scope.close_grows hin (Nat.lt_of_lt_of_le hexit hgrow.size_le))

end CommandGrammar
