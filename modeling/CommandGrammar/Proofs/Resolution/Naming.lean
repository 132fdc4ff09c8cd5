import CommandGrammar.Proofs.Command.Declared
import CommandGrammar.Proofs.Graph.Entrance
import CommandGrammar.Proofs.Graph.Sources
import CommandGrammar.Proofs.Matching.Asking
import CommandGrammar.Proofs.Resolution.Verdict

/-!
# `Proofs.Resolution.Naming` — a line means a command by that command's name

The keyword of its name is the only way into the graph of a command. So a line can be invoked with a
command only if it begins with the name, and a command takes part at all only if the line begins
with the name, or is a single token that begins it. Commands of other names do not compete, whatever
their schemes are.

## Contents
- `Declared.entrance`, `Declared.first_token`, `Declared.first_visit`: the first token of a walk.
- `Scheme.Named`, `Resolution.segments_ne_empty`: usage texts of segments.
- `Registry.walks_of_mem_matchAll`: the matches of a line as walks.
  `Registry.matchAll_eq_nil_of_foreign`: lines that nothing matches.
- `Registry.resolve_by_name`.
-/

namespace CommandGrammar

/-! ## The first token of a walk -/

namespace Command.Declared

variable {c : Command} {candidates : Variable SegmentId → List String} {argv : List String}
  {vs : List Visit} {b : Bool}

theorem entrance (h : c.Declared) : ∃ id lead, c.graph.Entrance ⟨id, c.name, none⟩ lead := by
  obtain ⟨-, id, scope, rest, hscheme, hgraph⟩ := declared_iff.mp h
  rw [hgraph, hscheme]
  obtain ⟨lead, hlead⟩ := Graph.compile_entrance scope ⟨id, c.name, none⟩ rest
  exact ⟨id, lead, hlead⟩

/-- **A walk of a command waits for the name, stops at a beginning of it, or takes it.** -/
theorem first_token (h : c.Declared) (hw : c.graph.Walks candidates c.graph.entry argv vs b) :
    argv = [] ∨ (∃ token, argv = [token] ∧ startsWith c.name token = true) ∨
      argv.head? = some c.name := by
  obtain ⟨id, lead, hg⟩ := h.entrance
  cases hw with
  | whole hleads => exact Or.inl rfl
  | pending hleads ht => exact Or.inl rfl
  | stopped hleads ht hs =>
      rw [hg.leads_iff.mp hleads, hg.keyword] at ht
      cases ht
      simp only [Solid.stops, Bool.and_eq_true, List.isEmpty_iff] at hs
      exact Or.inr (Or.inl ⟨_, by rw [hs.2], hs.1.2⟩)
  | accepted hleads ht ha hw =>
      rw [hg.leads_iff.mp hleads, hg.keyword] at ht
      cases ht
      rw [Solid.accepts, beq_iff_eq] at ha
      exact Or.inr (Or.inr (congrArg some ha))

/-- **A whole walk of a command takes the name at the keyword of the name.** -/
theorem first_visit (h : c.Declared) (hw : c.graph.Walks candidates c.graph.entry argv vs true) :
    argv.head? = some c.name ∧ ∃ v k, vs.head? = some v ∧
      c.graph.kind? v.node = some (.keyword k) ∧ k.name = c.name := by
  obtain ⟨id, lead, hg⟩ := h.entrance
  cases hw with
  | whole hleads =>
      -- The exit is a marker and does not follow the entry.
      obtain ⟨scope, hexit⟩ := h.framed.kind?_exit
      rw [hg.leads_iff.mp hleads, Graph.solid?_eq_some.mp hg.keyword] at hexit
      cases hexit
  | accepted hleads ht ha hw =>
      have hlead := hg.leads_iff.mp hleads
      rw [hlead, hg.keyword] at ht
      cases ht
      rw [Solid.accepts, beq_iff_eq] at ha
      refine ⟨congrArg some ha, _, ⟨id, c.name, none⟩, rfl, ?_, rfl⟩
      rw [Solid.acceptedVisit_node, hlead, Graph.solid?_eq_some.mp hg.keyword]
      rfl

end Command.Declared

/-! ## Usage texts of segments -/

/-- Every keyword of the scheme has a name. -/
def Scheme.Named (scheme : Scheme SegmentId) : Prop :=
  ∀ k, Solid.keyword k ∈ Scheme.solids scheme → k.name ≠ ""

theorem Variable.render_ne_empty {ι : Type} (v : Variable ι) : v.render ≠ "" := by
  unfold Variable.render
  cases v.type <;> split_ifs <;> simp [String.append_eq_empty_iff]

/-- A segment of a declared command that a visit is of has a usage text. -/
theorem Resolution.segments_ne_empty {r : Resolution} (hc : r.command.Declared)
    (hnamed : Scheme.Named r.command.scheme)
    (hsolid : ∀ v ∈ r.path, ∃ t, r.command.graph.solid? v.node = some t) :
    ∀ text ∈ r.segments, text ≠ "" := by
  intro text htext
  obtain ⟨v, hv, rfl⟩ := List.mem_map.mp htext
  obtain ⟨t, ht⟩ := hsolid v hv
  have hk := Graph.solid?_eq_some.mp ht
  cases t with
  | var x =>
      simp only [hk, Solid.kind]
      exact x.render_ne_empty
  | keyword k =>
      obtain ⟨scope, hgraph⟩ := hc.compiled
      rw [hgraph] at ht
      simp only [hk, Solid.kind]
      exact hnamed k (Graph.mem_solids_of_compile ht)

/-! ## Resolution by name -/

namespace Registry

variable {r : Registry}

theorem walks_of_mem_matchAll (h : ∀ c ∈ r.commands, c.Declared) {argv : List String}
    {calls : CallLog} {m : CommandMatch} (hm : m ∈ (r.matchAll argv calls).1) :
    m.command ∈ r.commands ∧ m.command.graph.Walks (r.session argv calls).answers
      m.command.graph.entry argv m.result.path m.result.isInvokable := by
  obtain ⟨hget, hfound⟩ := mem_matchAll.mp hm
  have hmem := List.mem_of_getElem? hget
  obtain ⟨rank, hr⟩ := (h _ hmem).ranked
  exact ⟨hmem, Session.walks_of_mem_matches hr (h _ hmem).uniqueIds (h _ hmem).framed _ hfound⟩

/-- Only commands whose name is the first token can be invoked. -/
theorem head_of_invokable (h : ∀ c ∈ r.commands, c.Declared) {argv : List String}
    {calls : CallLog} {m : CommandMatch} (hm : m ∈ (r.matchAll argv calls).1)
    (hinvokable : m.result.isInvokable = true) : argv.head? = some m.command.name := by
  obtain ⟨hmem, hw⟩ := walks_of_mem_matchAll h hm
  rw [hinvokable] at hw
  exact ((h _ hmem).first_visit hw).1

/-- Nothing matches a line that begins with no command's name and goes on, or whose only token
begins no command's name. -/
theorem matchAll_eq_nil_of_foreign (h : ∀ c ∈ r.commands, c.Declared) {argv : List String}
    {calls : CallLog}
    (hforeign : (2 ≤ argv.length ∧ ∀ c ∈ r.commands, argv.head? ≠ some c.name) ∨
      ∃ token, argv = [token] ∧ ∀ c ∈ r.commands, startsWith c.name token = false) :
    (r.matchAll argv calls).1 = [] := by
  refine List.eq_nil_iff_forall_not_mem.mpr fun m hm => ?_
  obtain ⟨hmem, hw⟩ := walks_of_mem_matchAll h hm
  have hfirst := (h _ hmem).first_token hw
  rcases hforeign with ⟨hlength, hnot⟩ | ⟨token, rfl, hnot⟩
  · rcases hfirst with rfl | ⟨token, rfl, -⟩ | hhead
    · exact absurd hlength (by simp)
    · exact absurd hlength (by simp)
    · exact hnot _ hmem hhead
  · have hbegins : startsWith m.command.name token = true := by
      rcases hfirst with hnil | ⟨token', hargv, hbegins⟩ | hhead
      · cases hnil
      · cases hargv
        exact hbegins
      · -- A name begins with itself.
        cases hhead
        simp [startsWith]
    rw [hnot _ hmem] at hbegins
    cases hbegins

/-- **A command is dispatched by its own exact name only**, whatever the schemes of the commands
are. If a command is chosen, the line begins with its name, the path has one node for each token,
and so has the list of usage texts, which begins with the name. If the line is ambiguous, it is so
among two or more commands, and each of them has the name that the line begins with. If the line
begins with no command's name and has more than one token, or if its only token begins no command's
name, no command is known for it. All commands that it can be invoked with have the name that it
begins with. -/
theorem resolve_by_name (h : ∀ c ∈ r.commands, c.Declared ∧ Scheme.Named c.scheme)
    (input : String) (argv : List String) (calls : CallLog) :
    let answer := (r.resolve input argv calls).1
    (∀ x, answer = .ok x → x.command ∈ r.commands ∧ argv.head? = some x.command.name ∧
      x.path.map Visit.raw = argv ∧ x.segments.length = argv.length ∧
      x.segments.head? = argv.head? ∧ ∀ text ∈ x.segments, text ≠ "") ∧
    (∀ names, answer = .error (.ambiguousCommand names) →
      2 ≤ names.length ∧ ∀ name ∈ names, argv.head? = some name) ∧
    ((2 ≤ argv.length ∧ ∀ c ∈ r.commands, argv.head? ≠ some c.name) ∨
        (∃ token, argv = [token] ∧ ∀ c ∈ r.commands, startsWith c.name token = false) →
      answer = .error (.unknownCommand input)) ∧
    ∀ m ∈ (r.matchAll argv calls).1, m.result.isInvokable = true →
      argv.head? = some m.command.name := by
  intro answer
  have hdeclared : ∀ c ∈ r.commands, c.Declared := fun c hc => (h c hc).1
  have hverdict : Resolution.Verdict input (r.matchAll argv calls).1 answer :=
    resolve_verdict input (r.matchAll argv calls).1
  have hcontenders : ∀ m ∈ contenders (r.matchAll argv calls).1,
      argv.head? = some m.command.name := by
    intro m hm
    obtain ⟨hmem, hinvokable, -⟩ := mem_contenders.mp hm
    exact head_of_invokable hdeclared hmem hinvokable
  refine ⟨?_, ?_, ?_, fun m hm => head_of_invokable hdeclared hm⟩
  · intro x hx
    rw [hx] at hverdict
    cases hverdict with
    | chosen winner others hbest alone =>
        obtain ⟨hm, hinvokable, -⟩ := mem_contenders.mp (hbest ▸ List.mem_cons_self)
        obtain ⟨hmem, hw⟩ := walks_of_mem_matchAll hdeclared hm
        obtain ⟨hc, hnamed⟩ := h _ hmem
        rw [hinvokable] at hw
        obtain ⟨hhead, v, k, hv, hk, hname⟩ := hc.first_visit hw
        have hraws : winner.result.path.map Visit.raw = argv := hw.raws_of_whole
        refine ⟨hmem, hhead, hraws, ?_, ?_, ?_⟩
        · rw [← hraws]
          simp [Resolution.segments, Resolution.ofMatch]
        · rw [hhead]
          simp [Resolution.segments, Resolution.ofMatch, hv, hk, hname]
        · exact Resolution.segments_ne_empty hc hnamed hw.solid
  · intro names hnames
    rw [hnames] at hverdict
    cases hverdict with
    | ambiguous htied =>
        refine ⟨by rwa [List.length_map], fun name hname => ?_⟩
        obtain ⟨m, hm, rfl⟩ := List.mem_map.mp hname
        exact hcontenders m ((distinctCommands_sublist _).subset hm)
  · intro hforeign
    show CommandGrammar.resolve input (r.matchAll argv calls).1 = _
    rw [matchAll_eq_nil_of_foreign hdeclared hforeign]
    rfl

/-- `set [fast] <mode...> fast`, where both keywords are one segment, and `get (fast | set)`. -/
def leadCommands : List Command :=
  let fast : Segment SegmentId := .keyword ⟨1, "fast", none⟩
  [silentCommand "set" [.keyword ⟨0, "set", none⟩, .optional [fast],
      .var ⟨2, "mode", none, [], none, true, none, none⟩, fast],
    silentCommand "get" [.keyword ⟨3, "get", none⟩, .union [[fast], [.keyword ⟨4, "set", none⟩]]]]

/-- `fast set` means nothing, although both words are keywords of both commands. -/
theorem resolve_by_name_fast : (∀ c ∈ leadCommands, c.Declared ∧ Scheme.Named c.scheme) ∧
    (∀ c ∈ leadCommands, ["fast", "set"].head? ≠ some c.name) ∧
    ((⟨leadCommands⟩ : Registry).resolve "fast set" ["fast", "set"] []).1
      = .error (.unknownCommand "fast set") := by
  have hcommands : ∀ c ∈ leadCommands, c.Declared ∧ Scheme.Named c.scheme := by
    simp only [leadCommands, List.forall_mem_cons]
    refine ⟨⟨silentCommand_declared (by decide) 0 _, ?_⟩,
      ⟨silentCommand_declared (by decide) 3 _, ?_⟩, by simp⟩
    · simp [Scheme.Named, silentCommand, Scheme.solids, Segment.solids]
    · simp [Scheme.Named, silentCommand, Scheme.solids, Segment.solids, Scheme.branchSolids]
  have hnames : ∀ c ∈ leadCommands, ["fast", "set"].head? ≠ some c.name := by
    simp [leadCommands, silentCommand]
  obtain ⟨-, -, hunknown, -⟩ :=
    resolve_by_name (r := ⟨leadCommands⟩) hcommands "fast set" ["fast", "set"] []
  exact ⟨hcommands, hnames, hunknown (Or.inl ⟨Nat.le_refl 2, hnames⟩)⟩

end Registry
end CommandGrammar
