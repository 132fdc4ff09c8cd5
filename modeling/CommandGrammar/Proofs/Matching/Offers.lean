import CommandGrammar.Proofs.Matching.Typing
import CommandGrammar.Proofs.Notation.Variables

/-!
# `Proofs.Matching.Offers` — candidates that are offered

Where a partial match waits, it offers candidates: the keyword, or the candidates of the variable
that begin with the token. Put in place of the token, with the line cut off behind it, a candidate
is accepted, and the line matches again along the same nodes. Two things are needed for this. The
segment has to accept what it offers, which it does unless its candidates are restricted by a type
besides; and the graph has to go on from there, which it does if all unions have branches
(`Graph.Lively`).

## Contents
- `Solid.offers`, `Solid.accepts_of_mem_offers`: what a segment offers it accepts.
- `Graph.Completes`, `Graph.Walks.complete`: a walk with a candidate put in.
- `Command.Declared.accepts_offered`: the same for the matches of a command.
- `offered_candidates_accepted`: and for those of a registry; `clashing_offer_refused`.
-/

namespace CommandGrammar

/-! ## Segments -/

/-- A variable that is not enumerated has no candidates. -/
theorem Session.answers_of_not_isEnumerated (s : Session) {v : Variable SegmentId}
    (h : v.isEnumerated = false) : s.answers v = [] := by
  rw [Variable.isEnumerated, Bool.or_eq_false_iff, Bool.not_eq_false', Option.isSome_eq_false_iff,
    Option.isNone_iff_eq_none] at h
  rw [answers, candidates_of_no_provider h.1 h.2]

namespace Solid

variable {c : Variable SegmentId → List String} {t : Solid}

/-- What a segment offers for a token that is still to come. -/
def offers (c : Variable SegmentId → List String) : Solid → List String
  | .keyword k => [k.name]
  | .var v => c v

@[simp] theorem candidates_pendingVisit (node : Nat) :
    (t.pendingVisit c node).candidates = t.offers c := by cases t <;> rfl

/-- For a token that is there no more is offered than without it. -/
theorem candidates_stoppedVisit_subset (node : Nat) (token : String) :
    (t.stoppedVisit c node token).candidates ⊆ t.offers c := by
  cases t with
  | keyword k => exact List.Subset.refl _
  | var v => exact List.filter_subset_self _

/-- A variable that offers candidates has no type. -/
theorem untyped_of_mem_offers {v : Variable SegmentId} (hexclusive : v.Exclusive)
    (hc : ∀ v, v.isEnumerated = false → c v = []) {candidate : String}
    (h : candidate ∈ (Solid.var v).offers c) : v.type = none := by
  apply hexclusive
  by_contra hnot
  rw [Bool.not_eq_true] at hnot
  rw [offers, hc v hnot] at h
  exact absurd h (by simp)

/-- **A segment accepts what it offers**, since no type restricts its candidates. -/
theorem accepts_of_mem_offers (hexclusive : ∀ v, t = .var v → v.Exclusive)
    (hc : ∀ v, v.isEnumerated = false → c v = []) {candidate : String}
    (h : candidate ∈ t.offers c) : t.accepts c candidate = true := by
  cases t with
  | keyword k => exact beq_iff_eq.mpr (List.mem_singleton.mp h)
  | var v =>
      have haccepts : v.accepts candidate = true := by
        simp [Variable.accepts, untyped_of_mem_offers (hexclusive v rfl) hc h]
      exact (v.isFull_check_iff candidate (c v)).mpr ⟨haccepts, fun _ => Or.inr h⟩

end Solid

/-! ## Walks -/

section

variable {g : Graph} {rank : Nat → Nat}

/-- No variable at a node has both candidates and a type. -/
def Graph.Exclusive (g : Graph) : Prop := ∀ i v, g.kind? i = some (.var v) → v.Exclusive

theorem Graph.Exclusive.solid (h : g.Exclusive) {n : Nat} {t : Solid} (ht : g.solid? n = some t) :
    ∀ v, t = .var v → v.Exclusive := by
  rintro v rfl
  exact h n v (Graph.solid?_eq_some.mp ht)

/-- The visits `vs` end with one that offers candidates, and any of them is taken there in place of
the token, by a keyword or by a variable without a type: with the line cut off behind it there is a
walk that begins with the same visits. -/
def Graph.Completes (g : Graph) (c : Variable SegmentId → List String) (i : Nat)
    (argv : List String) (vs : List Visit) : Prop :=
  ∃ before last, vs = before ++ [last] ∧ before.map Visit.raw = argv.take before.length ∧
    ∀ candidate ∈ last.candidates, ∃ t after b, g.solid? last.node = some t ∧
      t.accepts c candidate = true ∧ (∀ v, t = .var v → v.type = none) ∧
      g.Walks c i (argv.take before.length ++ [candidate])
        (before ++ t.acceptedVisit c last.node candidate :: after) b

variable {c : Variable SegmentId → List String}

/-- A candidate of the first segment on the way is accepted, and the walk goes on. -/
theorem Graph.Lively.completes (hl : g.Lively rank) (hg : g.Exclusive)
    (hc : ∀ v, v.isEnumerated = false → c v = []) {i n : Nat} {t : Solid} (hlead : g.Leads i n)
    (ht : g.solid? n = some t) (argv : List String) {last : Visit} (hnode : last.node = n)
    (hoffers : last.candidates ⊆ t.offers c) : g.Completes c i argv [last] := by
  refine ⟨[], last, rfl, rfl, ?_⟩
  intro candidate hcandidate
  have hoffered : candidate ∈ t.offers c := hoffers hcandidate
  have ha : t.accepts c candidate = true := Solid.accepts_of_mem_offers (hg.solid ht) hc hoffered
  have huntyped : ∀ v, t = .var v → v.type = none := by
    rintro v rfl
    exact Solid.untyped_of_mem_offers (hg.solid ht v rfl) hc hoffered
  obtain ⟨after, b, hw⟩ := hl.walks (c := c) ht
  subst hnode
  exact ⟨t, after, b, ht, ha, huntyped, .accepted hlead ht ha hw⟩

/-- What is so behind an accepted token is so with the token in front. -/
theorem Graph.Completes.cons {i n : Nat} {t : Solid} {token : String} {rest : List String}
    {vs : List Visit} (hlead : g.Leads i n) (ht : g.solid? n = some t)
    (ha : t.accepts c token = true) (h : g.Completes c n rest vs) :
    g.Completes c i (token :: rest) (t.acceptedVisit c n token :: vs) := by
  obtain ⟨before, last, rfl, hraws, hall⟩ := h
  refine ⟨t.acceptedVisit c n token :: before, last, rfl, by simp [hraws], ?_⟩
  intro candidate hcandidate
  obtain ⟨t', after, b, ht', ha', huntyped, hw⟩ := hall candidate hcandidate
  exact ⟨t', after, b, ht', ha', huntyped, .accepted hlead ht ha hw⟩

/-- **Where a walk waits, every candidate completes it.** -/
theorem Graph.Walks.complete (hl : g.Lively rank) (hg : g.Exclusive)
    (hc : ∀ v, v.isEnumerated = false → c v = []) {i : Nat} {argv : List String}
    {vs : List Visit} (hw : g.Walks c i argv vs false) : g.Completes c i argv vs := by
  generalize hwaits : false = b at hw
  induction hw with
  | whole h => cases hwaits
  | @pending i n t h ht =>
      exact hl.completes hg hc h ht [] (t.pendingVisit_node c n) (by simp)
  | @stopped i n t token rest h ht hs =>
      exact hl.completes hg hc h ht _ (t.stoppedVisit_node c n token)
        (Solid.candidates_stoppedVisit_subset n token)
  | accepted h ht ha hw ih => exact (ih hwaits).cons h ht ha

end

/-! ## Commands and registries -/

section

variable {c : Command}

theorem Command.Declared.exclusive (h : c.Declared)
    (hexclusive : ∀ v ∈ Scheme.variables c.scheme, v.Exclusive) : c.graph.Exclusive := by
  obtain ⟨scope, hgraph⟩ := h.compiled
  intro i v hv
  rw [hgraph] at hv
  exact hexclusive v (Graph.mem_variables_of_compile hv)

/-- **A candidate that is offered in a session is accepted in one that gives the same
candidates.** -/
theorem Command.Declared.accepts_offered (h : c.Declared)
    (hchoosable : Scheme.choosable c.scheme = true)
    (hexclusive : ∀ v ∈ Scheme.variables c.scheme, v.Exclusive) (s : Session) {argv : List String}
    {m : Match} (hm : m ∈ (s.matches c.graph argv).1) (hpartial : m.isPartial = true) :
    ∃ before last, m.path = before ++ [last] ∧ ∀ candidate ∈ last.candidates,
      ∃ full after b, full.node = last.node ∧
        (before ++ [full]).map Visit.raw = argv.take before.length ++ [candidate] ∧
        c.graph.Takes s.answers full.node candidate ∧
        (∀ v, c.graph.kind? full.node = some (.var v) → full.value = some (.text candidate)) ∧
        Match.ofWalk (before ++ full :: after) b ∈
          (s.matches c.graph (argv.take before.length ++ [candidate])).1 := by
  obtain ⟨rank, hl⟩ := h.lively hchoosable
  have hc : ∀ v, v.isEnumerated = false → s.answers v = [] :=
    fun v hv => s.answers_of_not_isEnumerated hv
  have hw := s.walks_of_mem_matches hl.ranked h.uniqueIds hl.framed hm
  rw [(Session.definite_of_mem_matches hm).isPartial_iff.mp hpartial] at hw
  obtain ⟨before, last, hpath, hraws, hall⟩ := hw.complete hl (h.exclusive hexclusive) hc
  refine ⟨before, last, hpath, ?_⟩
  intro candidate hcandidate
  obtain ⟨t, after, b, ht, ha, huntyped, hw'⟩ := hall candidate hcandidate
  have hnode : (t.acceptedVisit s.answers last.node candidate).node = last.node :=
    Solid.acceptedVisit_node _ _ _ _
  refine ⟨_, after, b, hnode, ?_, ?_, ?_,
    (Session.mem_matches_iff hl.ranked h.uniqueIds hl.framed s).mpr hw'⟩
  · rw [List.map_append, hraws, List.map_singleton, Solid.acceptedVisit_raw]
  · rw [hnode]
    exact ⟨t, ht, ha⟩
  · intro v hv
    rw [hnode] at hv
    have hvar : t = .var v := Graph.eq_var_of_solid? ht hv
    have hcoerce : v.coerce candidate = .text candidate := by
      simp [Variable.coerce, huntyped v hvar]
    rw [hvar]
    show some (v.coerce candidate) = _
    rw [hcoerce]

end

/-- **Every candidate that is offered is accepted.** In a registry in which every union has a
branch, no variable has both candidates and a type, and providers are constant (clones of a segment
share theirs), let a line have a partial match. Take the tokens that the match has accepted and any
candidate that its last node offers: this line has a match of the same command that begins with the
same visits, and whose next visit is of the same node, which now takes the candidate; a variable has
the candidate as its value. It does not matter which providers were asked before either line.
Schemes that are read from the notation meet the condition on variables. -/
theorem offered_candidates_accepted :
    (∀ source scheme, Notation.parse source = .ok scheme →
      ∀ v ∈ Scheme.variables scheme, v.Exclusive) ∧
    ∀ r : Registry, Steady r.commands → (∀ c ∈ r.commands, c.Declared ∧
        Scheme.choosable c.scheme = true ∧ ∀ v ∈ Scheme.variables c.scheme, v.Exclusive) →
      ∀ argv calls calls', ∀ m ∈ (r.matchAll argv calls).1, m.result.isPartial = true →
        ∃ before last, m.result.path = before ++ [last] ∧ ∀ candidate ∈ last.candidates,
          ∃ m' ∈ (r.matchAll (argv.take before.length ++ [candidate]) calls').1,
            m'.index = m.index ∧ m'.command = m.command ∧
            ∃ full after, m'.result.path = before ++ full :: after ∧ full.node = last.node ∧
              (before ++ [full]).map Visit.raw = argv.take before.length ++ [candidate] ∧
              m.command.graph.Takes (Session.fresh []).answers full.node candidate ∧
              ∀ v, m.command.graph.kind? full.node = some (.var v) →
                full.value = some (.text candidate) := by
  refine ⟨fun source scheme h => Notation.exclusive_of_parse h, ?_⟩
  intro r hr h argv calls calls' m hm hpartial
  rw [Registry.matchAll_eq hr] at hm
  obtain ⟨hget, hfound⟩ := mem_grouped.mp hm
  obtain ⟨hdeclared, hchoosable, hexclusive⟩ := h m.command (List.mem_of_getElem? hget)
  obtain ⟨before, last, hpath, hall⟩ :=
    hdeclared.accepts_offered hchoosable hexclusive (.fresh []) hfound hpartial
  refine ⟨before, last, hpath, ?_⟩
  intro candidate hcandidate
  obtain ⟨full, after, b, hnode, hraws, htakes, hvalue, hfound'⟩ := hall candidate hcandidate
  refine ⟨⟨m.index, m.command, .ofWalk (before ++ full :: after) b⟩, ?_, rfl, rfl, full, after, rfl,
    hnode, hraws, htakes, hvalue⟩
  rw [Registry.matchAll_eq hr]
  exact mem_grouped.mpr ⟨hget, hfound'⟩

/-- `play <track: <provider>> loud`, of which the provider knows the tracks. -/
def playCommand : Command :=
  silentCommand "play" [.keyword ⟨0, "play", none⟩,
    .var ⟨1, "track", none, [], some fun _ => ["intro", "outro"], false, none, none⟩,
    .keyword ⟨2, "loud", none⟩]

/-- For `play in` a track is offered, and `play intro` has a match. -/
theorem offered_candidates_accepted_play :
    let r : Registry := ⟨[playCommand]⟩
    Steady r.commands ∧ (∀ c ∈ r.commands, c.Declared ∧ Scheme.choosable c.scheme = true ∧
      ∀ v ∈ Scheme.variables c.scheme, v.Exclusive) ∧
    (∃ m ∈ (r.matchAll ["play", "in"] []).1, m.result.isPartial = true ∧
      m.result.last?.map Visit.candidates = some ["intro"]) ∧
    ∃ m' ∈ (r.matchAll ["play", "intro"] [1]).1, ∃ x ∈ m'.result.path,
      x.value = some (.text "intro") := by
  intro r
  have hproviders : r.commands.flatMap Command.providers = [(1, fun _ => ["intro", "outro"])] := by
    cbv
  have hsteady : Steady r.commands := by
    constructor
    · rw [Fixed, hproviders]
      simp
    · rw [hproviders]
      simp
  have hr : ∀ c ∈ r.commands, c.Declared ∧ Scheme.choosable c.scheme = true ∧
      ∀ v ∈ Scheme.variables c.scheme, v.Exclusive := by
    intro c hc
    rw [List.mem_singleton.mp hc]
    exact ⟨silentCommand_declared (by decide) 0 _, by decide, by decide⟩
  have hshape : (r.matchAll ["play", "in"] []).1.map (fun m => (m.result.isPartial,
      m.result.path.map fun x => (x.node, x.raw, x.candidates)))
        = [(true, [(2, "play", []), (3, "in", ["intro"])])] := by
    simp only [Registry.matchAll, Registry.matchFrom, Session.matches,
      Match.distinct_eq_eraseDupsBy, r, playCommand]
    decide +kernel
  obtain ⟨m, hfound, hfields⟩ := List.map_eq_singleton_iff.mp hshape
  obtain ⟨hpartial, hvisits⟩ := Prod.mk.inj hfields
  have hm : m ∈ (r.matchAll ["play", "in"] []).1 := by simp [hfound]
  obtain ⟨before, last, hpath, hall⟩ :=
    offered_candidates_accepted.2 r hsteady hr ["play", "in"] [] [1] m hm hpartial
  -- The walk waits at its second visit, which offers the one track.
  have hbefore : before.length = 1 := by
    have hlength := congrArg List.length hvisits
    simpa [hpath] using hlength
  have hlast : last.node = 3 ∧ last.candidates = ["intro"] := by
    have hvisit := congrArg List.getLast? hvisits
    rw [hpath, List.map_append, List.map_singleton, List.getLast?_concat] at hvisit
    obtain ⟨hnode, hrest⟩ := Prod.mk.inj (Option.some.inj hvisit)
    exact ⟨hnode, (Prod.mk.inj hrest).2⟩
  obtain ⟨m', hm', -, -, full, after, hpath', hnode, -, -, hvalue⟩ :=
    hall "intro" (by simp [hlast.2])
  rw [hbefore] at hm'
  have hcommand : m.command = playCommand := by
    rw [Registry.matchAll_eq hsteady] at hm
    exact List.mem_singleton.mp (List.mem_of_getElem? (mem_grouped.mp hm).1)
  have hkind : m.command.graph.kind? full.node = some (.var
      ⟨1, "track", none, [], some fun _ => ["intro", "outro"], false, none, none⟩) := by
    rw [hcommand, hnode, hlast.1]
    cbv
  refine ⟨hsteady, hr, ⟨m, hm, hpartial, ?_⟩, m', hm', full, by simp [hpath'], hvalue _ hkind⟩
  simp [Match.last?, hpath, hlast.2]

/-- `set <level> <mode: <provider>>` and `set <mode: <provider>>` with one identity for both modes,
and providers that disagree: the first knows `fast`, the second `slow`. -/
def clashingCommands : List Command :=
  let mode (answer : String) : Segment SegmentId :=
    .var ⟨2, "mode", none, [], some fun _ => [answer], false, none, none⟩
  [silentCommand "set" [.keyword ⟨0, "set", none⟩,
      .var ⟨1, "level", none, [], none, false, none, none⟩, mode "fast"],
    silentCommand "set" [.keyword ⟨0, "set", none⟩, mode "slow"]]

/-- **Clones have to share their provider.** If they do not, a candidate that is offered may be
refused even if no provider changes its answer. After `set` the second command offers `slow`, since
the first one waits for a level; but `set slow` takes the first one to its mode, whose provider then
answers for both. -/
theorem clashing_offer_refused :
    let r : Registry := ⟨clashingCommands⟩
    Fixed r.commands ∧ (∀ c ∈ r.commands, c.Declared ∧ Scheme.choosable c.scheme = true ∧
      ∀ v ∈ Scheme.variables c.scheme, v.Exclusive) ∧
    ∃ m ∈ (r.matchAll ["set"] []).1, m.result.isPartial = true ∧ ∃ before last,
      m.result.path = before ++ [last] ∧ "slow" ∈ last.candidates ∧
      ∀ m' ∈ (r.matchAll (["set"].take before.length ++ ["slow"]) []).1, m'.index ≠ m.index := by
  intro r
  have hproviders : r.commands.flatMap Command.providers
      = [(2, fun _ => ["fast"]), (2, fun _ => ["slow"])] := by cbv
  have hr : ∀ c ∈ r.commands, c.Declared ∧ Scheme.choosable c.scheme = true ∧
      ∀ v ∈ Scheme.variables c.scheme, v.Exclusive := by
    simp only [r, clashingCommands, List.forall_mem_cons]
    exact ⟨⟨silentCommand_declared (by decide) 0 _, by decide, by decide⟩,
      ⟨silentCommand_declared (by decide) 0 _, by decide, by decide⟩, by simp⟩
  have hshape : (r.matchAll ["set"] []).1.map (fun m => (m.index, m.result.isPartial,
      m.result.path.map Visit.candidates))
        = [(0, true, [[], []]), (1, true, [[], ["slow"]])] := by
    simp only [r, Registry.matchAll, Registry.matchFrom, Session.matches,
      Match.distinct_eq_eraseDupsBy, clashingCommands]
    decide +kernel
  have hrefused : ∀ m' ∈ (r.matchAll ["set", "slow"] []).1, m'.index ≠ 1 := by
    simp only [r, Registry.matchAll, Registry.matchFrom, Session.matches,
      Match.distinct_eq_eraseDupsBy, clashingCommands]
    decide +kernel
  have hfixed : Fixed r.commands := by
    rw [Fixed, hproviders]
    simp
  -- The match of the second command waits at its second visit.
  obtain ⟨m, hm, hfields⟩ : ∃ m ∈ (r.matchAll ["set"] []).1, (m.index, m.result.isPartial,
      m.result.path.map Visit.candidates) = (1, true, [[], ["slow"]]) := by
    rw [← List.mem_map, hshape]
    simp
  simp only [Prod.mk.injEq] at hfields
  obtain ⟨hindex, hpartial, hcandidates⟩ := hfields
  obtain ⟨first, last, hpath⟩ : ∃ first last, m.result.path = [first, last] :=
    List.length_eq_two.mp (by simpa using congrArg List.length hcandidates)
  have hoffers : last.candidates = ["slow"] := by
    simp only [hpath, List.map_cons, List.cons.injEq] at hcandidates
    exact hcandidates.2.1
  refine ⟨hfixed, hr, m, hm, hpartial, [first], last, hpath, by simp [hoffers], ?_⟩
  rw [hindex]
  exact hrefused

end CommandGrammar
