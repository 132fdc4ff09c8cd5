import CommandGrammar.Proofs.Matching.Backtracking
import CommandGrammar.Proofs.Resolution.Bindings
import CommandGrammar.Proofs.Resolution.Weighing

/-!
# `Proofs.Resolution.Leftmost` — tied parses of a command

A line may be taken by the chosen command in several ways that weigh the same. Which of them binds
the variables is a matter of the order in which matches are found, and this is the order of a search
through the command's scheme: groups are entered, branches taken in their order, and rest variables
take as many tokens as they can.

## Contents
- `Command.parses`: what a search through the scheme of a command finds.
- `Command.Declared.foundIn_eq`: the matches of a command are its parses, each once.
- `leftmost_greedy`.
-/

namespace CommandGrammar

/-- Matches that are the same weigh the same. -/
theorem Match.score_congr {m n : Match} (h : m.key = n.key) (g : Graph) :
    m.score g = n.score g := by
  have hscore : ∀ m : Match, m.score g
      = m.key.1.foldl (fun w v => w + ((g.kind? v.1).map NodeKind.weight).getD 0) 0 := by
    intro m
    unfold Match.score Match.key
    rw [List.foldl_map]
  rw [hscore, hscore, h]

namespace Command

/-- What a search through the scheme of the command finds for a line. -/
def parses (c : Command) (answers : Variable SegmentId → List String) (argv : List String) :
    List Match :=
  Scheme.search answers c.graph.nodeOf c.scheme Search.finish argv

theorem Declared.foundIn_eq {c : Command} (h : c.Declared) (hdistinct : Scheme.Distinct c.scheme)
    (s : Session) (argv : List String) :
    c.foundIn s argv = Match.distinct (c.parses s.answers argv) := by
  obtain ⟨scope, hgraph⟩ := h.compiled
  unfold foundIn parses
  rw [hgraph]
  exact s.matches_eq_search scope hdistinct argv

/-- The first match of a kind is the first parse of that kind. -/
theorem Declared.find?_foundIn {c : Command} (h : c.Declared)
    (hdistinct : Scheme.Distinct c.scheme) {p : Match → Bool}
    (hp : ∀ m n : Match, m.key = n.key → p m = p n) (s : Session) (argv : List String) :
    (c.foundIn s argv).find? p = (c.parses s.answers argv).find? p := by
  rw [h.foundIn_eq hdistinct, Match.find?_distinct hp]

/-- Every parse is a match, up to what does not tell matches apart. -/
theorem Declared.exists_mem_foundIn {c : Command} (h : c.Declared)
    (hdistinct : Scheme.Distinct c.scheme) {s : Session} {argv : List String} {m : Match}
    (hm : m ∈ c.parses s.answers argv) : ∃ n ∈ c.foundIn s argv, n.key = m.key := by
  rw [h.foundIn_eq hdistinct]
  exact (Match.distinct_spec _).2.2 m hm

end Command

/-- **A chosen command is bound by the first of its parses that can be invoked and weigh most.** -/
theorem Registry.resolve_first_parse {r : Registry} {input : String} {argv : List String}
    {calls : CallLog} {x : Resolution} (h : ∀ c ∈ r.commands, c.Declared)
    (hdistinct : Scheme.Distinct x.command.scheme) (hx : (r.resolve input argv calls).1 = .ok x) :
    ∃ before parse after,
      x.command.parses (r.session argv calls).answers argv = before ++ parse :: after ∧
      parse.isInvokable = true ∧
      (∀ p ∈ before, p.isInvokable = true →
        p.score x.command.graph < parse.score x.command.graph) ∧
      (∀ p ∈ after, p.isInvokable = true →
        p.score x.command.graph ≤ parse.score x.command.graph) ∧
      x = .ofMatch ⟨x.index, x.command, parse⟩ := by
  obtain ⟨winner, others, hbest, -, rfl⟩ := resolve_eq_ok.mp hx
  have hwinner : winner ∈ contenders (r.matchAll argv calls).1 := hbest ▸ List.mem_cons_self
  obtain ⟨hmem, -, hmost⟩ := mem_contenders.mp hwinner
  obtain ⟨hget, -⟩ := mem_matchAll.mp hmem
  have hdeclared := h _ (List.mem_of_getElem? hget)
  have hweigh : ∀ p ∈ winner.command.parses (r.session argv calls).answers argv,
      p.isInvokable = true → p.score winner.command.graph ≤ winner.score := by
    intro p hp hinvokable
    obtain ⟨n, hn, hkey⟩ := hdeclared.exists_mem_foundIn hdistinct hp
    rw [← Match.score_congr hkey]
    apply hmost ⟨winner.index, winner.command, n⟩ (mem_matchAll.mpr ⟨hget, hn⟩)
    exact (congrArg (·.2.2) hkey).trans hinvokable
  have hkind : ∀ m n : Match, m.key = n.key →
      (m.isInvokable && m.score winner.command.graph == winner.score)
        = (n.isInvokable && n.score winner.command.graph == winner.score) := by
    intro m n hkey
    rw [Match.score_congr hkey, show m.isInvokable = n.isInvokable from congrArg (·.2.2) hkey]
  have hfirst := find?_of_contenders h (isGreatest_score h hwinner) hbest
  rw [hdeclared.find?_foundIn hdistinct hkind, List.find?_eq_some_iff_append] at hfirst
  obtain ⟨hthis, before, after, hsplit, hbefore⟩ := hfirst
  rw [Bool.and_eq_true] at hthis
  refine ⟨before, winner.result, after, hsplit, hthis.1, ?_, ?_, rfl⟩
  · intro p hp hinvokable
    have hle := hweigh p (hsplit ▸ List.mem_append_left _ hp) hinvokable
    have hne : p.score winner.command.graph ≠ winner.score := by
      simpa [hinvokable] using hbefore p hp
    exact Nat.lt_of_le_of_ne hle hne
  · intro p hp
    apply hweigh p
    rw [hsplit]
    exact List.mem_append_right _ (List.mem_cons_of_mem _ hp)

/-- **The matches of a line are found in leftmost-greedy order.** They are those of a search through
the scheme that enters a group before it skips it, takes branches in their order and lets a rest
variable go on before it ends; each is kept where it is found first. Hence a chosen command takes
its path and binds its variables by the first of its parses that can be invoked and weigh most. -/
theorem leftmost_greedy :
    (∀ (nextScope : Nat) (scheme : Scheme SegmentId), Scheme.Distinct scheme →
      let g := (Graph.compile nextScope scheme).1
      (∀ t ∈ Scheme.solids scheme, g.solid? (g.nodeOf t) = some t) ∧
      ∀ (s : Session) (argv : List String), (s.matches g argv).1
        = (Scheme.search s.answers g.nodeOf scheme Search.finish argv).eraseDupsBy
          fun m n => m.key == n.key) ∧
    ∀ (r : Registry) (input : String) (argv : List String) (calls : CallLog) (x : Resolution),
      (∀ c ∈ r.commands, c.Declared) → Scheme.Distinct x.command.scheme →
      (r.resolve input argv calls).1 = .ok x →
      ∃ before parse after,
        x.command.parses (r.session argv calls).answers argv = before ++ parse :: after ∧
        parse.isInvokable = true ∧
        (∀ p ∈ before, p.isInvokable = true →
          p.score x.command.graph < parse.score x.command.graph) ∧
        (∀ p ∈ after, p.isInvokable = true →
          p.score x.command.graph ≤ parse.score x.command.graph) ∧
        x.path = parse.path ∧
        x.bindings = Bindings.ofMatch x.command.scheme x.command.graph parse := by
  constructor
  · intro nextScope scheme h g
    refine ⟨fun t ht => Graph.solid?_nodeOf nextScope h ht, ?_⟩
    intro s argv
    rw [s.matches_eq_search nextScope h argv, Match.distinct_eq_eraseDupsBy]
  · intro r input argv calls x h hdistinct hx
    obtain ⟨before, parse, after, hsplit, hinvokable, hbefore, hafter, hchosen⟩ :=
      Registry.resolve_first_parse h hdistinct hx
    exact ⟨before, parse, after, hsplit, hinvokable, hbefore, hafter,
      congrArg Resolution.path hchosen, congrArg Resolution.bindings hchosen⟩

/-- `say [<words...>] [<last>]`. -/
def sayCommand : Command :=
  silentCommand "say" [.keyword ⟨0, "say", none⟩,
    .optional [.var ⟨1, "words", none, [], none, true, none, none⟩],
    .optional [.var ⟨2, "last", none, [], none, false, none, none⟩]]

/-- `say a b` could give its last token to either variable, which weighs the same; the rest variable
takes it. -/
theorem leftmost_greedy_say :
    let r : Registry := ⟨[sayCommand]⟩
    let argv := ["say", "a", "b"]
    Scheme.Distinct sayCommand.scheme ∧ (∀ c ∈ r.commands, c.Declared) ∧
    ((Session.fresh []).matches sayCommand.graph argv).1
      = (sayCommand.parses (Session.fresh []).answers argv).eraseDupsBy
        (fun m n => m.key == n.key) ∧
    ∃ x, (r.resolve "say a b" argv []).1 = .ok x ∧
      (x.path.map fun v => (v.node, v.raw)) = [(2, "say"), (5, "a"), (5, "b")] ∧
      ∃ before parse after,
        x.command.parses (r.session argv []).answers argv = before ++ parse :: after ∧
        parse.isInvokable = true ∧
        (∀ p ∈ before, p.isInvokable = true →
          p.score x.command.graph < parse.score x.command.graph) ∧
        (∀ p ∈ after, p.isInvokable = true →
          p.score x.command.graph ≤ parse.score x.command.graph) ∧
        x.path = parse.path ∧
        x.bindings = Bindings.ofMatch x.command.scheme x.command.graph parse := by
  intro r argv
  have hdistinct : Scheme.Distinct sayCommand.scheme := by decide
  have hdeclared : ∀ c ∈ r.commands, c.Declared := by
    intro c hc
    rw [List.mem_singleton.mp hc]
    exact silentCommand_declared (by decide) 0 _
  have hpath : ((r.resolve "say a b" argv []).1.toOption.map
      fun x => x.path.map fun v => (v.node, v.raw))
        = some [(2, "say"), (5, "a"), (5, "b")] := by
    simp only [r, argv, Registry.resolve, Registry.matchAll, Registry.matchFrom, Session.matches,
      Match.distinct_eq_eraseDupsBy, sayCommand]
    decide +kernel
  obtain ⟨x, hx, hraws⟩ := Option.map_eq_some_iff.mp hpath
  have hok : (r.resolve "say a b" argv []).1 = .ok x := by
    cases hr : (r.resolve "say a b" argv []).1 with
    | error e => simp [hr, Except.toOption] at hx
    | ok y => rw [hr] at hx; exact congrArg Except.ok (Option.some.inj hx)
  have hcommand : x.command = sayCommand :=
    List.mem_singleton.mp (List.mem_of_getElem? (Registry.resolve_ok hok).1)
  refine ⟨hdistinct, hdeclared, (leftmost_greedy.1 0 _ hdistinct).2 _ argv, x, hok, hraws, ?_⟩
  apply leftmost_greedy.2 r "say a b" argv [] x hdeclared _ hok
  rw [hcommand]
  exact hdistinct

end CommandGrammar
