import CommandGrammar.Proofs.Command.Declared
import CommandGrammar.Proofs.Matching.Asking

/-!
# `Proofs.Matching.Reach` — which variables a line asks

A provider is asked when the worklist takes a frame at a variable of it. Which frames the worklist
takes is decided by the candidates, and these are asked for on the way; but the last session keeps
them all, so the frames that were taken are those that can be reached from the first one with the
candidates of the last session (`Walk.mem_asked_run`). Without the markers, a node is reached if a
walk takes a beginning of the line and leads on to it (`Graph.Reaches`).

## Contents
- `Variable.IsAsked`, `Frame.Asks`, `Session.mem_asked_candidates`: who asks.
- `Frame.next_iff`, `Walk.mem_asked_run`: the frames that a run takes.
- `Graph.Reaches`, `reaches_iff`: the nodes that a line reaches.
- `Registry.mem_asked_session`: who was asked for a line.
-/

namespace CommandGrammar

open Relation (ReflTransGen)

/-! ## Who asks -/

/-- A variable without fixed candidates has a provider to ask. -/
def Variable.IsAsked (v : Variable SegmentId) : Prop :=
  v.choices = [] ∧ v.provider.isSome = true

/-- At the frame the candidates of the identity are asked for. -/
def Frame.Asks (g : Graph) (id : SegmentId) (f : Frame) : Prop :=
  ∃ v, g.kind? f.node = some (.var v) ∧ v.id = id ∧ v.IsAsked

/-- Once a variable's candidates are needed its provider has been asked, now or before. -/
theorem Session.mem_asked_candidates {s : Session} {v : Variable SegmentId} {id : SegmentId} :
    id ∈ (s.candidates v).2.asked ↔ id ∈ s.asked ∨ v.id = id ∧ v.IsAsked := by
  unfold Variable.IsAsked
  cases hchoices : v.choices with
  | cons choice choices =>
      rw [candidates_of_choices (by simp [hchoices])]
      simp
  | nil =>
      have hnone : v.choices.isEmpty = true := by simp [hchoices]
      cases hp : v.provider with
      | none =>
          rw [candidates_of_no_provider hnone hp]
          simp
      | some p =>
          cases hl : s.provided.lookup v.id with
          | some answer =>
              have hasked : v.id ∈ s.asked := by
                by_contra hnot
                rw [lookup_eq_none.mpr hnot] at hl
                cases hl
              rw [candidates_of_provided hnone hp hl]
              constructor
              · exact Or.inl
              · rintro (h | ⟨rfl, -⟩)
                · exact h
                · exact hasked
          | none =>
              rw [candidates_of_ask hnone hp hl]
              show id ∈ v.id :: s.asked ↔ _
              rw [List.mem_cons, or_comm, eq_comm]
              simp

/-! ## The frames that a run takes -/

section

variable {g : Graph} {c : Variable SegmentId → List String}

/-- What comes of a frame depends on the candidates of its own variable only. -/
theorem Frame.outcome_congr {c' : Variable SegmentId → List String} {f : Frame}
    (h : ∀ v, g.kind? f.node = some (.var v) → c v = c' v) : f.outcome g c = f.outcome g c' := by
  unfold Frame.outcome
  cases hk : g.kind? f.node with
  | none => rfl
  | some kind =>
      cases kind with
      | marker scope isEntry => rfl
      | keyword k => rfl
      | var v => exact congrArg (Walk.atVariable g f v) (h v hk)

theorem Frame.next_iff {f f' : Frame} : f.Next g c f' ↔ f' ∈ (f.outcome g c).1 := by
  constructor
  · intro h
    cases h with
    | @through scope j isEntry hk he hj =>
        rw [Frame.outcome_through hk he]
        exact List.mem_map.mpr ⟨j, hj, rfl⟩
    | @accepted t token rest j ht hr ha hj =>
        rw [Frame.outcome_accepted ht hr ha]
        exact List.mem_map.mpr ⟨j, hj, rfl⟩
  · exact Frame.next_of_mem

/-- A frame leads to one that asks if it asks itself, or a frame that comes of it leads to one. -/
theorem Frame.leads_to_asks_iff {f : Frame} {id : SegmentId} :
    (∃ f', ReflTransGen (Frame.Next g c) f f' ∧ f'.Asks g id) ↔
      f.Asks g id ∨ ∃ e ∈ (f.outcome g c).1, ∃ f', ReflTransGen (Frame.Next g c) e f' ∧
        f'.Asks g id := by
  constructor
  · rintro ⟨f', hreach, hasks⟩
    rcases hreach.cases_head with rfl | ⟨e, hnext, hreach⟩
    · exact Or.inl hasks
    · exact Or.inr ⟨e, Frame.next_iff.mp hnext, f', hreach, hasks⟩
  · rintro (hasks | ⟨e, he, f', hreach, hasks⟩)
    · exact ⟨f, .refl, hasks⟩
    · exact ⟨f', .head (Frame.next_iff.mpr he) hreach, hasks⟩

/-- A step asks for the frame that it takes. -/
theorem Walk.mem_asked_step {w : Walk} {f : Frame} {stack : List Frame} (hw : w.stack = f :: stack)
    {id : SegmentId} :
    id ∈ (w.step g).session.asked ↔ id ∈ w.session.asked ∨ f.Asks g id := by
  unfold Frame.Asks
  cases hk : g.kind? f.node with
  | none => simp [Walk.step, hw, hk]
  | some kind =>
      cases kind with
      | marker scope isEntry => simp [Walk.step, hw, hk]
      | keyword k => simp [Walk.step, hw, hk]
      | var v => simp [Walk.step, hw, hk, Session.mem_asked_candidates]

/-- **A run that empties its stack has asked for the frames that its stack leads to**, with the
candidates of any session that keeps the answers of the run. -/
theorem Walk.mem_asked_run {s' : Session} {id : SegmentId} (fuel : Nat) {w : Walk}
    (hkept : (w.run g fuel).session.KeptBy s') (hempty : (w.run g fuel).stack = []) :
    id ∈ (w.run g fuel).session.asked ↔ id ∈ w.session.asked ∨
      ∃ f ∈ w.stack, ∃ f', ReflTransGen (Frame.Next g s'.answers) f f' ∧ f'.Asks g id := by
  induction fuel generalizing w with
  | zero =>
      have hstack : w.stack = [] := hempty
      simp [Walk.run, hstack]
  | succ fuel ih =>
      cases hw : w.stack with
      | nil => simp [Walk.run, hw]
      | cons f stack =>
          have hrun : w.run g (fuel + 1) = (w.step g).run g fuel := by simp [Walk.run, hw]
          rw [hrun] at hkept hempty ⊢
          have hkept' : (w.step g).session.KeptBy s' :=
            ((w.step g).keptBy_run fuel).trans hkept
          -- The step looks at no other candidates than the ones that are kept of it.
          have houtcome : f.outcome g w.session.answers = f.outcome g s'.answers := by
            apply Frame.outcome_congr
            intro v hk
            simp only [Walk.step, hw, hk] at hkept'
            simp only [Session.answers, Session.candidates_of_keptBy hkept']
          have hstack : (w.step g).stack = (f.outcome g s'.answers).1 ++ stack := by
            rw [(Walk.step_outcome hw).1, houtcome]
          rw [ih hkept hempty, Walk.mem_asked_step hw, hstack, List.exists_mem_cons_iff,
            Frame.leads_to_asks_iff]
          simp only [List.mem_append, or_and_right, exists_or, or_assoc]

/-! ## The nodes that a line reaches -/

/-- The line reaches a node: a walk takes a beginning of the line and leads on to the node. -/
def Graph.Reaches (g : Graph) (c : Variable SegmentId → List String) (argv : List String)
    (n : Nat) : Prop :=
  ∃ ns used rest, argv = used ++ rest ∧ List.IsChain g.Leads (g.entry :: ns) ∧
    List.Forall₂ (g.Takes c) ns used ∧ g.Leads (ns.getLastD g.entry) n

theorem Graph.Leads.snoc {i m j : Nat} (h : g.Leads i m) (hmarker : g.IsMarker m)
    (hj : j ∈ g.successors m) : g.Leads i j := by
  induction h with
  | link hm => exact .through hm hmarker (.link hj)
  | through hm' hmarker' _ ih => exact .through hm' hmarker' (ih hmarker hj)

/-- A frame on the way of a line: it is the first one, or a walk takes the tokens before it and
leads on to its node. -/
def Frame.Arrives (g : Graph) (c : Variable SegmentId → List String) (argv : List String)
    (f : Frame) : Prop :=
  f.node = g.entry ∧ f.rest = argv ∨
  ∃ ns used, argv = used ++ f.rest ∧ List.IsChain g.Leads (g.entry :: ns) ∧
    List.Forall₂ (g.Takes c) ns used ∧ g.Leads (ns.getLastD g.entry) f.node

theorem Frame.Arrives.next (hg : g.Framed) {argv : List String} {f f' : Frame}
    (h : f.Arrives g c argv) (hnext : f.Next g c f') : f'.Arrives g c argv := by
  right
  cases hnext with
  | @through scope j isEntry hk he hj =>
      rcases h with ⟨hentry, hrest⟩ | ⟨ns, used, hargv, hchain, htakes, hleads⟩
      · rw [hentry] at hj
        exact ⟨[], [], hrest.symm, .singleton _, .nil, .link hj⟩
      · exact ⟨ns, used, hargv, hchain, htakes, hleads.snoc ⟨scope, isEntry, hk⟩ hj⟩
  | @accepted t token rest j ht hr ha hj =>
      rcases h with ⟨hentry, -⟩ | ⟨ns, used, hargv, hchain, htakes, hleads⟩
      · rw [hentry] at ht
        exact absurd ht (hg.isMarker_entry.solid?_ne_some t)
      · refine ⟨ns ++ [f.node], used ++ [token], ?_, ?_, ?_, ?_⟩
        · rw [hargv, hr, List.append_assoc, List.singleton_append]
        · rw [← List.cons_append, List.isChain_append]
          refine ⟨hchain, .singleton _, ?_⟩
          intro last hlast first hfirst
          rw [List.getLast?_cons, ← List.getLastD_eq_getLast?, Option.mem_some_iff] at hlast
          rw [List.head?_singleton, Option.mem_some_iff] at hfirst
          rw [← hlast, ← hfirst]
          exact hleads
        · exact List.rel_append htakes (.cons ⟨t, ht, ha⟩ .nil)
        · rw [List.getLastD_concat]
          exact .link hj

theorem Frame.arrives_of_reach (hg : g.Framed) {argv : List String} {f : Frame}
    (h : ReflTransGen (Frame.Next g c) ⟨g.entry, [], argv⟩ f) : f.Arrives g c argv := by
  induction h with
  | refl => exact Or.inl ⟨rfl, rfl⟩
  | tail _ hnext ih => exact ih.next hg hnext

theorem Graph.not_isMarker_of_var {n : Nat} {v : Variable SegmentId}
    (h : g.kind? n = some (.var v)) : ¬ g.IsMarker n := by
  rintro ⟨scope, isEntry, hmarker⟩
  rw [h] at hmarker
  cases hmarker

/-- A node that is led to can be gone on to. -/
theorem Graph.Leads.frames (hg : g.Framed) {i n : Nat} (h : g.Leads i n) (trail : List Visit)
    (rest : List String) :
    ∃ j ∈ g.successors i, ReflTransGen (Frame.Next g c) ⟨j, trail, rest⟩ ⟨n, trail, rest⟩ := by
  induction h with
  | link hj => exact ⟨_, hj, .refl⟩
  | through hm hmarker h ih =>
      obtain ⟨scope, isEntry, hk⟩ := hmarker
      obtain ⟨j, hj, hreach⟩ := ih
      exact ⟨_, hm, .head (.through hk (Or.inr (hg.ne_exit h)) hj) hreach⟩

/-- A walk can be gone along, and on to where it leads. -/
theorem Graph.exists_frames (hg : g.Framed) {i n : Nat} {ns : List Nat} {used : List String}
    (hchain : List.IsChain g.Leads (i :: ns)) (htakes : List.Forall₂ (g.Takes c) ns used)
    (hleads : g.Leads (ns.getLastD i) n) (trail : List Visit) (rest : List String) :
    ∃ j ∈ g.successors i, ∃ trail', ReflTransGen (Frame.Next g c)
      ⟨j, trail, used ++ rest⟩ ⟨n, trail', rest⟩ := by
  induction htakes generalizing i trail with
  | nil =>
      obtain ⟨j, hj, hreach⟩ := hleads.frames hg trail rest
      exact ⟨j, hj, trail, hreach⟩
  | @cons m token ns used htoken _ ih =>
      obtain ⟨hlead, hchain⟩ := List.isChain_cons_cons.mp hchain
      obtain ⟨t, ht, ha⟩ := htoken
      rw [List.getLastD_cons] at hleads
      obtain ⟨j, hj, hreach⟩ := hlead.frames hg trail (token :: used ++ rest)
      obtain ⟨j', hj', trail', hlater⟩ := ih hchain hleads (t.acceptedVisit c m token :: trail)
      exact ⟨j, hj, trail', hreach.trans (.head (.accepted ht rfl ha hj') hlater)⟩

/-- **The nodes of solid segments that a worklist comes to are those that the line reaches.** -/
theorem reaches_iff (hg : g.Framed) {argv : List String} {n : Nat} (hn : ¬ g.IsMarker n) :
    g.Reaches c argv n ↔ ∃ f : Frame, f.node = n ∧
      ReflTransGen (Frame.Next g c) ⟨g.entry, [], argv⟩ f := by
  constructor
  · rintro ⟨ns, used, rest, rfl, hchain, htakes, hleads⟩
    obtain ⟨scope, isEntry, hk⟩ := hg.isMarker_entry
    obtain ⟨j, hj, trail, hreach⟩ := Graph.exists_frames hg hchain htakes hleads [] rest
    exact ⟨⟨n, trail, rest⟩, rfl, .head (.through hk (Or.inr hg.entry_ne_exit) hj) hreach⟩
  · rintro ⟨f, rfl, hreach⟩
    rcases Frame.arrives_of_reach hg hreach with
      ⟨hentry, -⟩ | ⟨ns, used, hargv, hchain, htakes, hleads⟩
    · rw [hentry] at hn
      exact absurd hg.isMarker_entry hn
    · exact ⟨ns, used, f.rest, hargv, hchain, htakes, hleads⟩

end

/-! ## Who was asked for a line -/

/-- The line reaches a node of the command at which the provider of the identity is asked. -/
def Command.Asks (s : Session) (argv : List String) (id : SegmentId) (c : Command) : Prop :=
  ∃ n v, c.graph.kind? n = some (.var v) ∧ v.id = id ∧ v.IsAsked ∧ c.graph.Reaches s.answers argv n

theorem Command.Declared.mem_asked_matches {c : Command} (hc : c.Declared) {s s' : Session}
    {argv : List String} {id : SegmentId} (hkept : (s.matches c.graph argv).2.KeptBy s') :
    id ∈ (s.matches c.graph argv).2.asked ↔ id ∈ s.asked ∨ c.Asks s' argv id := by
  obtain ⟨rank, hr⟩ := hc.ranked
  have hempty := (Walk.run_start hr hc.uniqueIds s argv).1
  have hrun := @Walk.mem_asked_run c.graph s' id (Walk.fuel c.graph argv) _ hkept hempty
  have hasks : (∃ f ∈ (Walk.start s c.graph argv).stack, ∃ f',
      ReflTransGen (Frame.Next c.graph s'.answers) f f' ∧ f'.Asks c.graph id)
        ↔ c.Asks s' argv id := by
    simp only [Walk.start, List.mem_singleton, exists_eq_left]
    constructor
    · rintro ⟨f, hreach, v, hk, hid, hasked⟩
      exact ⟨f.node, v, hk, hid, hasked,
        (reaches_iff hc.framed (Graph.not_isMarker_of_var hk)).mpr ⟨f, rfl, hreach⟩⟩
    · rintro ⟨n, v, hk, hid, hasked, hreaches⟩
      obtain ⟨f, rfl, hreach⟩ :=
        (reaches_iff hc.framed (Graph.not_isMarker_of_var hk)).mp hreaches
      exact ⟨f, hreach, v, hk, hid, hasked⟩
  rw [← hasks]
  exact hrun

theorem Registry.mem_asked_matchFrom {cs : List Command} (hcs : ∀ c ∈ cs, c.Declared)
    {argv : List String} {index : Nat} {s s' : Session} {id : SegmentId}
    (hkept : (matchFrom argv index cs s).2.KeptBy s') :
    id ∈ (matchFrom argv index cs s).2.asked ↔
      id ∈ s.asked ∨ ∃ c ∈ cs, c.Asks s' argv id := by
  induction cs generalizing index s with
  | nil => simp [matchFrom]
  | cons c rest ih =>
      obtain ⟨hc, hrest⟩ := List.forall_mem_cons.mp hcs
      rw [matchFrom_cons] at hkept ⊢
      have hfirst := (keptBy_matchFrom argv (index + 1) rest (s.matches c.graph argv).2).trans hkept
      rw [ih hrest hkept, hc.mem_asked_matches hfirst, List.exists_mem_cons_iff, or_assoc]

/-- **The providers that were asked for a line are those of the variables that the line
reaches.** -/
theorem Registry.mem_asked_session {r : Registry} (h : ∀ c ∈ r.commands, c.Declared)
    {argv : List String} {calls : CallLog} {id : SegmentId} :
    id ∈ (r.session argv calls).asked ↔
      ∃ c ∈ r.commands, c.Asks (r.session argv calls) argv id := by
  have hasked := @mem_asked_matchFrom r.commands h argv 0 (Session.fresh calls) _ id (.refl _)
  simpa [Session.asked, Session.fresh, session] using hasked

end CommandGrammar
