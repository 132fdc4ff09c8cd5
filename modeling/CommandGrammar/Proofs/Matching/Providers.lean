import CommandGrammar.Command
import CommandGrammar.Proofs.Graph.Substitution
import CommandGrammar.Proofs.Matching.Outcome

/-!
# `Proofs.Matching.Providers` — providers that do not change their answers

All commands of a registry are matched in one session, which keeps what providers answered. Two
sessions are *alike* if they give the same candidates now and after any question (`Session.Alike`).
Matching from sessions that are alike gives the same matches, and leaves sessions that are alike:
this is shown for one step, for a run, for a graph and for a registry. The second session may as
well match in a graph whose variables are changed, if it is alike for what they are changed to
(`Session.AlikeBy`); this is where the steps are taken.

If no provider changes its answer (`Fixed`), sessions that keep the same answers are alike. If
besides all providers of one identity give one answer (`Steady`), what a session keeps does not
matter at all, so a command finds in a registry what it finds alone (`Registry.matchFrom_eq`).

## Contents
- `Session.Alike`, `Session.AlikeBy`, `Walk.Alike`; `Session.matches_mapVariables`,
  `Session.matches_alike`, `Registry.matchFrom_alike`.
- `Command.providers`, `Fixed`, `Steady`.
- `Session.Keeps`: only answers that providers give are kept.
- `Command.found`, `Registry.matchFrom_eq`, `Registry.matchAll_eq`.
-/

namespace CommandGrammar

/-! ## Sessions that are alike -/

section

variable {R : Session → Session → Prop} {g : Graph}

/-- Related sessions give the same candidates for the variables of the graph, and are related
afterwards. -/
def Session.Alike (R : Session → Session → Prop) (g : Graph) : Prop :=
  ∀ {s s' : Session}, R s s' → ∀ {i : Nat} {v : Variable SegmentId}, g.kind? i = some (.var v) →
    (s.candidates v).1 = (s'.candidates v).1 ∧ R (s.candidates v).2 (s'.candidates v).2

/-- Worklists that differ in their sessions only, which are related. -/
structure Walk.Alike (R : Session → Session → Prop) (w w' : Walk) : Prop where
  session : R w.session w'.session
  stack : w.stack = w'.stack
  found : w.found = w'.found

/-- Related sessions give the same candidates for the variables of the graph and for what these are
changed to, and are related afterwards. -/
def Session.AlikeBy (f : Variable SegmentId → Variable SegmentId) (R : Session → Session → Prop)
    (g : Graph) : Prop :=
  ∀ {s s' : Session}, R s s' → ∀ {i : Nat} {v : Variable SegmentId}, g.kind? i = some (.var v) →
    (s.candidates v).1 = (s'.candidates (f v)).1 ∧ R (s.candidates v).2 (s'.candidates (f v)).2

variable {f : Variable SegmentId → Variable SegmentId}

theorem Walk.advance_mapVariables (i : Nat) (trail : List Visit) (rest : List String) :
    Walk.advance (g.mapVariables f) i trail rest = Walk.advance g i trail rest := by
  simp [Walk.advance]

/-- With the same candidates the same comes of a changed variable. -/
theorem Walk.atVariable_mapVariables (hf : Variable.Neutral f) (fr : Frame)
    (v : Variable SegmentId) (candidates : List String) :
    Walk.atVariable (g.mapVariables f) fr (f v) candidates
      = Walk.atVariable g fr v candidates := by
  simp only [Walk.atVariable, hf.check, hf.coerce, Walk.advance_mapVariables]

/-- **A step keeps worklists alike**, also if the second one is of the changed graph. -/
theorem Walk.Alike.step (hf : Variable.Neutral f) (hR : Session.AlikeBy f R g) {w w' : Walk}
    (h : Walk.Alike R w w') : Walk.Alike R (w.step g) (w'.step (g.mapVariables f)) := by
  obtain ⟨s, stack, found⟩ := w
  obtain ⟨s', stack', found'⟩ := w'
  obtain ⟨hs, rfl, rfl⟩ := h
  cases stack with
  | nil => exact ⟨hs, rfl, rfl⟩
  | cons fr stack =>
      have hk' := g.kind?_mapVariables (f := f) fr.node
      cases hk : g.kind? fr.node with
      | none =>
          rw [hk] at hk'
          simp only [Walk.step, hk, hk', Option.map_none]
          exact ⟨hs, rfl, rfl⟩
      | some kind =>
          rw [hk] at hk'
          cases kind with
          | marker scope isEntry =>
              simp only [Walk.step, hk, hk', Option.map_some, NodeKind.mapVariable,
                Walk.atMarker, Walk.advance_mapVariables, Graph.exit_mapVariables]
              exact ⟨hs, rfl, rfl⟩
          | keyword k =>
              simp only [Walk.step, hk, hk', Option.map_some, NodeKind.mapVariable,
                Walk.atKeyword, Walk.advance_mapVariables]
              exact ⟨hs, rfl, rfl⟩
          | var v =>
              obtain ⟨hcandidates, hafter⟩ := hR hs hk
              simp only [Walk.step, hk, hk', Option.map_some, NodeKind.mapVariable,
                Walk.atVariable_mapVariables hf]
              rw [hcandidates]
              exact ⟨hafter, rfl, rfl⟩

/-- **A run keeps worklists alike.** -/
theorem Walk.Alike.run (hf : Variable.Neutral f) (hR : Session.AlikeBy f R g) {w w' : Walk}
    (h : Walk.Alike R w w') (fuel : Nat) :
    Walk.Alike R (w.run g fuel) (w'.run (g.mapVariables f) fuel) := by
  induction fuel generalizing w w' with
  | zero => exact h
  | succ fuel ih =>
      unfold Walk.run
      rw [← h.stack]
      cases w.stack.isEmpty with
      | true => exact h
      | false => exact ih (h.step hf hR)

/-- From sessions that are alike a line has the same matches in a graph and in the changed graph. -/
theorem Session.matches_mapVariables (hf : Variable.Neutral f) (hR : Session.AlikeBy f R g)
    {s s' : Session} (h : R s s') (argv : List String) :
    (s.matches g argv).1 = (s'.matches (g.mapVariables f) argv).1 ∧
      R (s.matches g argv).2 (s'.matches (g.mapVariables f) argv).2 := by
  have hstart : Walk.Alike R (Walk.start s g argv) (Walk.start s' (g.mapVariables f) argv) :=
    ⟨h, rfl, rfl⟩
  have hfuel : Walk.fuel (g.mapVariables f) argv = Walk.fuel g argv := by simp [Walk.fuel]
  have hrun := hstart.run hf hR (Walk.fuel g argv)
  unfold Session.matches
  rw [hfuel]
  refine ⟨?_, hrun.session⟩
  show Match.distinct _ = Match.distinct _
  rw [hrun.found]

/-- From sessions that are alike a line has the same matches in a graph. -/
theorem Session.matches_alike (hR : Session.Alike R g) {s s' : Session} (h : R s s')
    (argv : List String) : (s.matches g argv).1 = (s'.matches g argv).1 ∧
      R (s.matches g argv).2 (s'.matches g argv).2 := by
  have hmatches := Session.matches_mapVariables neutral_id hR h argv
  rwa [g.mapVariables_id] at hmatches

end

theorem Registry.matchFrom_cons (argv : List String) (index : Nat) (c : Command)
    (rest : List Command) (s : Session) :
    let next := matchFrom argv (index + 1) rest (s.matches c.graph argv).2
    matchFrom argv index (c :: rest) s
      = ((s.matches c.graph argv).1.map (fun m => ⟨index, c, m⟩) ++ next.1, next.2) := rfl

/-- From sessions that are alike a line has the same matches in commands. -/
theorem Registry.matchFrom_alike {R : Session → Session → Prop} {cs : List Command}
    (hR : ∀ c ∈ cs, Session.Alike R c.graph) (argv : List String) (index : Nat) {s s' : Session}
    (h : R s s') : (matchFrom argv index cs s).1 = (matchFrom argv index cs s').1 ∧
      R (matchFrom argv index cs s).2 (matchFrom argv index cs s').2 := by
  induction cs generalizing index s s' with
  | nil => exact ⟨rfl, h⟩
  | cons c rest ih =>
      obtain ⟨hmatches, hafter⟩ := Session.matches_alike (hR c (by simp)) h argv
      obtain ⟨hlater, hend⟩ := ih (fun d hd => hR d (by simp [hd])) (index + 1) hafter
      rw [matchFrom_cons, matchFrom_cons, hmatches, hlater]
      exact ⟨rfl, hend⟩

/-! ## Providers -/

/-- The providers that a command may ask, with the identities under which answers are kept. -/
def Command.providers (c : Command) : List (SegmentId × Provider) :=
  c.graph.nodes.toList.filterMap fun n =>
    match n.kind with
    | .var v => v.provider.map fun p => (v.id, p)
    | _ => none

theorem Command.mem_providers {c : Command} {i : Nat} {v : Variable SegmentId} {p : Provider}
    (hk : c.graph.kind? i = some (.var v)) (hp : v.provider = some p) :
    (v.id, p) ∈ c.providers := by
  unfold Graph.kind? at hk
  obtain ⟨n, hn, hkind⟩ := Option.map_eq_some_iff.mp hk
  refine List.mem_filterMap.mpr ⟨n, Array.mem_toList_iff.mpr (Array.mem_of_getElem? hn), ?_⟩
  simp [hkind, hp]

/-- No provider changes its answer. -/
def Fixed (cs : List Command) : Prop :=
  ∀ q ∈ cs.flatMap Command.providers, ∀ k, q.2 k = q.2 0

/-- Providers are constants: none changes its answer, and a question has one answer. Segments with
the same identity are clones of one segment and share its provider; the session relies on that when
it keeps answers by identity. -/
structure Steady (cs : List Command) : Prop where
  fixed : Fixed cs
  shared : ∀ q ∈ cs.flatMap Command.providers, ∀ q' ∈ cs.flatMap Command.providers,
    q.1 = q'.1 → q.2 0 = q'.2 0

/-- Fewer commands have fewer providers. -/
theorem Steady.mono {cs cs' : List Command} (h : Steady cs) (hsub : cs' ⊆ cs) : Steady cs' := by
  have hproviders : cs'.flatMap Command.providers ⊆ cs.flatMap Command.providers := by
    intro q hq
    obtain ⟨c, hc, hq⟩ := List.mem_flatMap.mp hq
    exact List.mem_flatMap.mpr ⟨c, hsub hc, hq⟩
  exact ⟨fun q hq => h.fixed q (hproviders hq),
    fun q hq q' hq' => h.shared q (hproviders hq) q' (hproviders hq')⟩

/-- **If no provider changes its answer, only the answers kept matter**, not how often who was
asked. -/
theorem Fixed.alike {cs : List Command} (h : Fixed cs) {c : Command} (hc : c ∈ cs) :
    Session.Alike (fun s s' => s.provided = s'.provided) c.graph := by
  intro s s' hs i v hv
  cases hchoices : v.choices.isEmpty with
  | false =>
      rw [Session.candidates_of_choices hchoices, Session.candidates_of_choices hchoices]
      exact ⟨rfl, hs⟩
  | true =>
      cases hp : v.provider with
      | none =>
          rw [Session.candidates_of_no_provider hchoices hp,
            Session.candidates_of_no_provider hchoices hp]
          exact ⟨rfl, hs⟩
      | some p =>
          have hl' : s'.provided.lookup v.id = s.provided.lookup v.id := congrArg _ hs.symm
          cases hl : s.provided.lookup v.id with
          | some answer =>
              rw [Session.candidates_of_provided hchoices hp hl,
                Session.candidates_of_provided hchoices hp (hl'.trans hl)]
              exact ⟨rfl, hs⟩
          | none =>
              have hq : (v.id, p) ∈ cs.flatMap Command.providers :=
                List.mem_flatMap.mpr ⟨c, hc, Command.mem_providers hv hp⟩
              have hask : p (s.calls.count v.id) = p (s'.calls.count v.id) :=
                (h _ hq _).trans (h _ hq _).symm
              rw [Session.candidates_of_ask hchoices hp hl,
                Session.candidates_of_ask hchoices hp (hl'.trans hl)]
              show (p _).eraseDups = (p _).eraseDups ∧ (v.id, (p _).eraseDups) :: s.provided
                = (v.id, (p _).eraseDups) :: s'.provided
              rw [hask, hs]
              exact ⟨rfl, rfl⟩

/-! ## Answers that are kept -/

/-- The session keeps only what every provider of the identity answers. -/
def Session.Keeps (cs : List Command) (s : Session) : Prop :=
  ∀ q ∈ cs.flatMap Command.providers, ∀ answer, s.provided.lookup q.1 = some answer →
    answer = (q.2 0).eraseDups

theorem Session.keeps_fresh (cs : List Command) (calls : CallLog) : (fresh calls).Keeps cs := by
  intro q _ answer h
  exact absurd h (by simp [fresh])

/-- The session keeps one more answer that the providers of its identity give. -/
theorem Session.Keeps.ask {cs : List Command} (h : Steady cs) {s : Session} (hs : s.Keeps cs)
    {q : SegmentId × Provider} (hq : q ∈ cs.flatMap Command.providers) :
    (s.ask q.1 q.2).2.Keeps cs := by
  intro q' hq' answer hanswer
  by_cases hid : q'.1 = q.1
  · have hnew : (s.ask q.1 q.2).2.provided.lookup q'.1
        = some (q.2 (s.calls.count q.1)).eraseDups := by
      simp [Session.ask, hid]
    have hkept : answer = (q.2 (s.calls.count q.1)).eraseDups :=
      Option.some.inj (hanswer.symm.trans hnew)
    rw [hkept, h.fixed q hq, h.shared q hq q' hq' hid.symm]
  · have hold : (s.ask q.1 q.2).2.provided.lookup q'.1 = s.provided.lookup q'.1 := by
      simp only [Session.ask, List.lookup_cons, beq_false_of_ne hid]
    exact hs q' hq' answer (hold.symm.trans hanswer)

/-- **A session that keeps what providers answer gives the candidates that a fresh one gives**, and
keeps what they answer afterwards. -/
theorem Session.Keeps.candidates {cs : List Command} (h : Steady cs) {s : Session}
    (hs : s.Keeps cs) {c : Command} (hc : c ∈ cs) {i : Nat} {v : Variable SegmentId}
    (hv : c.graph.kind? i = some (.var v)) :
    (s.candidates v).1 = (fresh []).answers v ∧ (s.candidates v).2.Keeps cs := by
  unfold answers
  cases hchoices : v.choices.isEmpty with
  | false =>
      rw [candidates_of_choices hchoices, candidates_of_choices hchoices]
      exact ⟨rfl, hs⟩
  | true =>
      cases hp : v.provider with
      | none =>
          rw [candidates_of_no_provider hchoices hp, candidates_of_no_provider hchoices hp]
          exact ⟨rfl, hs⟩
      | some p =>
          have hq : (v.id, p) ∈ cs.flatMap Command.providers :=
            List.mem_flatMap.mpr ⟨c, hc, Command.mem_providers hv hp⟩
          have hfresh : ((fresh []).candidates v).1 = (p 0).eraseDups := by
            rw [candidates_of_ask hchoices hp rfl]
            rfl
          rw [hfresh]
          cases hl : s.provided.lookup v.id with
          | some answer =>
              rw [candidates_of_provided hchoices hp hl]
              exact ⟨hs _ hq answer hl, hs⟩
          | none =>
              rw [candidates_of_ask hchoices hp hl]
              exact ⟨congrArg List.eraseDups (h.fixed _ hq _), hs.ask h hq⟩

theorem Steady.alike {cs : List Command} (h : Steady cs) {c : Command} (hc : c ∈ cs) :
    Session.Alike (fun s s' => s.Keeps cs ∧ s'.Keeps cs) c.graph := by
  intro s s' hs i v hv
  obtain ⟨hcandidates, hafter⟩ := hs.1.candidates h hc hv
  obtain ⟨hcandidates', hafter'⟩ := hs.2.candidates h hc hv
  exact ⟨hcandidates.trans hcandidates'.symm, hafter, hafter'⟩

/-! ## Commands on their own -/

/-- Matches of commands, some for each; the first of the commands stands at `index`. -/
def grouped (f : Command → List Match) (index : Nat) (cs : List Command) : List CommandMatch :=
  (cs.zipIdx index).flatMap fun q => (f q.1).map fun m => ⟨q.2, q.1, m⟩

@[simp] theorem grouped_nil (f : Command → List Match) (index : Nat) :
    grouped f index [] = [] := rfl

@[simp] theorem grouped_cons (f : Command → List Match) (index : Nat) (c : Command)
    (rest : List Command) : grouped f index (c :: rest)
      = (f c).map (fun m => ⟨index, c, m⟩) ++ grouped f (index + 1) rest := rfl

section

variable {f : Command → List Match}

theorem filter_grouped {p : CommandMatch → Bool} {p' : Command → Match → Bool}
    (hp : ∀ index c m, p ⟨index, c, m⟩ = p' c m) (index : Nat) (cs : List Command) :
    (grouped f index cs).filter p = grouped (fun c => (f c).filter (p' c)) index cs := by
  induction cs generalizing index with
  | nil => rfl
  | cons c rest ih =>
      have hfirst : p ∘ (fun m => ⟨index, c, m⟩) = p' c := funext fun m => hp index c m
      rw [grouped_cons, grouped_cons, List.filter_append, ih, List.filter_map, hfirst]

/-- A match is of the command at its place. -/
theorem mem_grouped {cs : List Command} {m : CommandMatch} :
    m ∈ grouped f 0 cs ↔ cs[m.index]? = some m.command ∧ m.result ∈ f m.command := by
  rw [grouped, List.mem_flatMap]
  constructor
  · rintro ⟨⟨c, i⟩, hc, hm⟩
    obtain ⟨x, hx, rfl⟩ := List.mem_map.mp hm
    exact ⟨List.mem_zipIdx_iff_getElem?.mp hc, hx⟩
  · rintro ⟨hc, hm⟩
    exact ⟨(m.command, m.index), List.mem_zipIdx_iff_getElem?.mpr hc,
      List.mem_map.mpr ⟨m.result, hm, rfl⟩⟩

theorem index_le_of_mem_grouped {index : Nat} {cs : List Command} {m : CommandMatch}
    (h : m ∈ grouped f index cs) : index ≤ m.index := by
  obtain ⟨⟨c, i⟩, hq, hm⟩ := List.mem_flatMap.mp h
  obtain ⟨x, -, rfl⟩ := List.mem_map.mp hm
  exact (List.mem_zipIdx hq).1

/-- The first of all matches is the first one of its command. -/
theorem head?_grouped {index : Nat} {cs : List Command} {m : CommandMatch}
    (h : (grouped f index cs).head? = some m) : (f m.command).head? = some m.result := by
  induction cs generalizing index with
  | nil => simp at h
  | cons c rest ih =>
      rw [grouped_cons] at h
      cases hf : f c with
      | nil =>
          rw [hf] at h
          exact ih h
      | cons x xs =>
          rw [hf] at h
          cases h
          rw [hf, List.head?_cons]

end

/-- The matches of a line with a command, in a session of its own. -/
def Command.found (argv : List String) (c : Command) : List Match :=
  ((Session.fresh []).matches c.graph argv).1

theorem Command.found_eq (argv : List String) (c : Command) :
    c.found argv = List.eraseDupsBy (fun a b => a.key == b.key)
      ((Walk.start (.fresh []) c.graph argv).run c.graph (Walk.fuel c.graph argv)).found.reverse :=
  Match.distinct_eq_eraseDupsBy _

/-- **In a registry a command finds what it finds alone.** -/
theorem Registry.matchFrom_eq {cs : List Command} (h : Steady cs) (argv : List String)
    {part : List Command} (hpart : part ⊆ cs) (index : Nat) {s : Session} (hs : s.Keeps cs) :
    (matchFrom argv index part s).1 = grouped (Command.found argv) index part := by
  induction part generalizing index s with
  | nil => rfl
  | cons c rest ih =>
      have hc : c ∈ cs := hpart (by simp)
      obtain ⟨hmatches, hafter, -⟩ :=
        Session.matches_alike (h.alike hc) ⟨hs, Session.keeps_fresh cs []⟩ argv
      -- What the first command leaves in the session are answers, so the others do not notice it.
      have hrest := ih (fun d hd => hpart (by simp [hd])) (index + 1) hafter
      rw [matchFrom_cons, hmatches, hrest, grouped_cons]
      rfl

theorem Registry.matchAll_eq {r : Registry} (h : Steady r.commands) (argv : List String)
    (calls : CallLog) :
    (r.matchAll argv calls).1 = grouped (Command.found argv) 0 r.commands :=
  matchFrom_eq h argv (List.Subset.refl _) 0 (Session.keeps_fresh _ calls)

end CommandGrammar
