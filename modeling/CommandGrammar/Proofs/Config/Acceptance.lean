import Mathlib
import CommandGrammar.Program
import CommandGrammar.Proofs.Config.Commands
import CommandGrammar.Proofs.Graph.Sources
import CommandGrammar.Proofs.Resolution.Bindings

/-!
# `Proofs.Config.Acceptance` — accepted configurations do what they declare

Validation, the declaration of commands and the binding of defaults go over a grammar one after the
other. Here they are put together: an accepted configuration makes a shell, and whatever a line of
that shell is resolved to binds names as the entry declares them (`Entry.Governs`).

## Contents
- `Shell.ofRegistry_ok`, `Config.toRegistry_ok`: there is a shell.
- `Config.Entry.Governs`, `Config.Entry.governs`: what a resolution binds.
- `Program.start_eq_error`: why the program does not start.
- `Config.Runs`, `Config.runs_of_declares`, `accepted_config_runs`.
-/

namespace CommandGrammar

/-! ## There is a shell -/

/-- **Every registry can be given `help` and `exit`**, and they come last. Their names are not
empty, so each of the four cases computes to a registry. -/
theorem Registry.withBuiltins_ok (r : Registry) (supply : Supply) :
    ∃ later supply', r.withBuiltins supply = .ok (⟨r.commands ++ later⟩, supply') := by
  unfold Registry.withBuiltins
  by_cases hhelp : (r.find? "help").isNone = true
  · by_cases hexit : (r.find? "exit").isNone = true
    · simp only [hhelp, hexit, if_true, List.append_assoc]
      exact ⟨_, _, rfl⟩
    · simp only [hhelp, hexit, if_true, List.append_assoc]
      exact ⟨_, _, rfl⟩
  · by_cases hexit : (r.find? "exit").isNone = true
    · simp only [hhelp, hexit, if_true, List.append_assoc]
      exact ⟨_, _, rfl⟩
    · simp only [hhelp, hexit, List.append_assoc]
      exact ⟨_, _, rfl⟩

theorem Shell.ofRegistry_ok (r : Registry) (supply : Supply) (calls : CallLog) :
    ∃ s, Shell.ofRegistry r supply calls = .ok s ∧ r.commands <+: s.registry.commands := by
  obtain ⟨later, supply', h⟩ := r.withBuiltins_ok supply
  unfold Shell.ofRegistry
  rw [h]
  exact ⟨_, rfl, List.prefix_append r.commands later⟩

namespace Config

/-- **An accepted configuration has a registry**, with a command for each entry in its place. -/
theorem toRegistry_ok {c : Config} (h : c.validate = .ok ()) (supply : Supply) :
    ∃ registry supply', c.toRegistry supply = .ok (registry, supply') ∧
      List.Forall₂ Entry.Declares c.entries registry.commands := by
  obtain ⟨cs, supply', hcs, hall⟩ := declareAll_ok (c.validate_eq_ok_iff.mp h) supply
  unfold toRegistry
  rw [hcs]
  exact ⟨⟨cs⟩, supply', rfl, hall⟩

/-! ## What a resolution binds -/

/-- A resolution of the command of an entry binds names as the entry declares them. -/
structure Entry.Governs (e : Entry) (r : Resolution) : Prop where
  name : r.command.name = e.name
  /-- What is bound is declared. -/
  declared : ∀ name, r.bindings.contains name = true → ∃ v ∈ e.declared, v.name = name
  /-- A name that is visited has the values of its visits and no others. -/
  visited : ∀ name, (∃ x ∈ r.path, x.Binds r.command.graph name) →
    ∃ bound, r.bindings.find? name = some bound ∧ bound.values ≠ [] ∧
      ∀ value ∈ bound.values, ∃ x ∈ r.path, x.Binds r.command.graph name ∧ value = x.taken
  /-- A name that is not visited has its configured default, read by the first variable of that name
  and by the type of this variable. -/
  default : ∀ name raw, (¬ ∃ x ∈ r.path, x.Binds r.command.graph name) →
    e.default? name = some raw →
    ∃ v, e.declared.find? (fun v => v.name == name) = some v ∧ v.Denotes raw (v.coerce raw) ∧
      r.bindings.find? name
        = some (if v.isRest then .list [v.coerce raw] else .single (v.coerce raw))
  /-- Nothing else is bound. -/
  unbound : ∀ name, (¬ ∃ x ∈ r.path, x.Binds r.command.graph name) → e.default? name = none →
    r.bindings.find? name = none

/-- A variable that a node of the command's graph stands for is declared in the entry. -/
theorem Entry.Declares.exists_declared {e : Entry} {c : Command} (h : e.Declares c) {x : Visit}
    {name : String} (hx : x.Binds c.graph name) : ∃ v ∈ e.declared, v.name = name := by
  obtain ⟨v, hk, rfl⟩ := hx
  obtain ⟨scope, hgraph⟩ := h.compiled
  rw [hgraph] at hk
  have hmem : v.unnumbered ∈ (Scheme.variables c.scheme).map Variable.unnumbered :=
    List.mem_map_of_mem (Graph.mem_variables_of_compile hk)
  rw [h.declared] at hmem
  obtain ⟨u, hu, hsame⟩ := List.mem_map.mp hmem
  have hname : (e.withDefault u).unnumbered.name = v.name := by
    rw [hsame]
    rfl
  exact ⟨u, hu, (e.name_withDefault u).symm.trans hname⟩

section

variable {e : Entry} {scheme : Scheme Unit} {r : Resolution} (hsound : e.Sound scheme)
  (hentry : e.Declares r.command)
  (hbindings : ∀ name, r.bindings.find? name
    = ((Bindings.ofPath r.command.graph r.path).find? name).or
      (Bindings.defaultOf name (Scheme.variables r.command.scheme)))

include hsound hentry hbindings

/-- A name that is not visited is left to its configured default. -/
theorem Entry.find?_unvisited {name : String}
    (hnone : ¬ ∃ x ∈ r.path, x.Binds r.command.graph name) :
    r.bindings.find? name = (e.declared.find? fun v => v.name == name).bind fun v =>
      (e.default? name).map fun raw => v.binding (v.coerce raw) := by
  rw [hbindings, Bindings.find?_ofPath_eq_none hnone, Option.none_or]
  exact hentry.defaultOf_eq hsound.default_declared name

/-- **The command of a sound entry binds names as the entry declares them.** -/
theorem Entry.governs : e.Governs r where
  name := hentry.name
  declared := by
    intro name hbound
    by_cases hvisited : ∃ x ∈ r.path, x.Binds r.command.graph name
    · obtain ⟨x, -, hx⟩ := hvisited
      exact hentry.exists_declared hx
    · rw [NameMap.contains, find?_unvisited hsound hentry hbindings hvisited] at hbound
      cases hfind : e.declared.find? fun v => v.name == name with
      | none => simp [hfind] at hbound
      | some v =>
          exact ⟨v, List.mem_of_find?_eq_some hfind, by simpa using List.find?_some hfind⟩
  visited := by
    intro name hvisited
    obtain ⟨bound, hbound, hne⟩ := Bindings.find?_ofPath_of_binds hvisited
    refine ⟨bound, ?_, hne, fun value hvalue => Bindings.mem_values_ofPath hbound hvalue⟩
    -- The path comes first, whatever default there is.
    rw [hbindings, hbound, Option.some_or]
  default := by
    intro name raw hnone hraw
    obtain ⟨v, hfind, hdenotes⟩ := hsound.denotes_default hraw
    rw [← hsound.declared_eq] at hfind
    refine ⟨v, hfind, hdenotes, ?_⟩
    rw [find?_unvisited hsound hentry hbindings hnone, hfind, hraw]
    rfl
  unbound := by
    intro name hnone hraw
    rw [find?_unvisited hsound hentry hbindings hnone, hraw]
    cases e.declared.find? fun v => v.name == name <;> rfl

end

/-! ## The program starts -/

/-- Two steps succeed only if both do. -/
theorem exists_of_bind_eq_ok {ε α β : Type} {x : Except ε α} {f : α → Except ε β} {b : β}
    (h : x >>= f = .ok b) : ∃ a, x = .ok a ∧ f a = .ok b := by
  cases x with
  | error e => cases h
  | ok a => exact ⟨a, rfl, h⟩

/-- What is loaded has been accepted. -/
theorem validate_of_load {files : Files} {s : Sources} {c : Config} (h : load files s = .ok c) :
    c.validate = .ok () := by
  obtain ⟨shared, -, h⟩ := exists_of_bind_eq_ok h
  obtain ⟨own, -, h⟩ := exists_of_bind_eq_ok h
  obtain ⟨accepted, hvalid, h⟩ := exists_of_bind_eq_ok h
  rw [← Except.ok.inj h]
  exact hvalid

end Config

/-- An accepted configuration has a job for every subcommand. -/
theorem Program.Job.ofConfig_ok {c : Config} (h : c.validate = .ok ()) (subcommand : Subcommand) :
    ∃ job, Job.ofConfig c subcommand = .ok job := by
  obtain ⟨registry, supply', hregistry, -⟩ := Config.toRegistry_ok h ⟨0, 0⟩
  obtain ⟨s, hs, -⟩ := Shell.ofRegistry_ok registry supply' []
  have hshell : shellOf c = .ok s := by
    simp only [shellOf, hregistry, bind, Except.bind, hs]
    rfl
  unfold Job.ofConfig
  rw [hshell]
  exact ⟨_, rfl⟩

/-- **The program does not start only if its arguments or its configuration cannot be read.** -/
theorem Program.start_eq_error {w : World} {args : List String} {o : Output}
    (h : Program.start w args = .error o) :
    (∃ r, CommandLine.read args = .error r ∧ o = refusal r) ∨
      ∃ e, Config.load w.files (sources w.home w.directory args) = .error e ∧
        o = configFailure e := by
  unfold Program.start at h
  cases hread : CommandLine.read args with
  | error r =>
      rw [hread] at h
      exact .inl ⟨r, rfl, (Except.error.inj h).symm⟩
  | ok command =>
      simp only [hread] at h
      cases hload : Config.load w.files (sources w.home w.directory args) with
      | error e =>
          rw [hload] at h
          exact .inr ⟨e, rfl, (Except.error.inj h).symm⟩
      | ok c =>
          obtain ⟨job, hjob⟩ :=
            Job.ofConfig_ok (Config.validate_of_load hload) command.subcommand
          rw [hload] at h
          simp [bind, Except.bind, hjob, Except.mapError] at h

/-! ## Accepted configurations -/

/-- The registry of a configuration, and a shell over it, have the commands of the entries, and run
them as they are declared. -/
structure Config.Runs (c : Config) (registry : Registry) (s : Shell) : Prop where
  names : registry.commands.map Command.name = c.entries.map Entry.name
  commands : registry.commands <+: s.registry.commands
  /-- Commands that are registered later make no difference. -/
  governs : ∀ extended : Registry, registry.commands <+: extended.commands →
    ∀ input argv calls r, (extended.resolve input argv calls).1 = .ok r →
      ∀ e, c.entries[r.index]? = some e → e.Governs r

theorem Config.map_name_of_declares {entries : List Entry} {cs : List Command}
    (h : List.Forall₂ Entry.Declares entries cs) : cs.map Command.name = entries.map Entry.name := by
  induction h with
  | nil => rfl
  | cons hdeclares _ ih => rw [List.map_cons, List.map_cons, hdeclares.name, ih]

/-- The command in the place of an entry is the command of this entry. -/
theorem Config.exists_declares {entries : List Entry} {cs : List Command}
    (h : List.Forall₂ Entry.Declares entries cs) {i : Nat} {e : Entry}
    (he : entries[i]? = some e) : ∃ c, cs[i]? = some c ∧ e.Declares c := by
  obtain ⟨hlt, rfl⟩ := List.getElem?_eq_some_iff.mp he
  have hlt' : i < cs.length := h.length_eq ▸ hlt
  exact ⟨cs[i], List.getElem?_eq_getElem hlt', h.get hlt hlt'⟩

theorem Config.runs_of_declares {c : Config} (h : c.validate = .ok ()) {registry : Registry}
    (hdeclares : List.Forall₂ Entry.Declares c.entries registry.commands) {s : Shell}
    (hs : registry.commands <+: s.registry.commands) : c.Runs registry s := by
  refine ⟨map_name_of_declares hdeclares, hs, ?_⟩
  intro extended hextended input argv calls r hr e he
  obtain ⟨hcommand, hbindings⟩ := Registry.resolve_ok hr
  obtain ⟨declared, hplace, hentry⟩ := exists_declares hdeclares he
  obtain ⟨later, hlater⟩ := hextended
  have hsame : r.command = declared := by
    have hlt := (List.getElem?_eq_some_iff.mp hplace).1
    rw [← hlater, List.getElem?_append_left hlt, hplace] at hcommand
    exact (Option.some.inj hcommand).symm
  obtain ⟨scheme, hsound⟩ := c.validate_eq_ok_iff.mp h e (List.mem_of_getElem? he)
  exact Entry.governs hsound (hsame ▸ hentry) hbindings

/-- **An accepted configuration runs as it is declared.**

* It has a registry, and there is a shell over that. There is one command for each entry, in the
  order of the entries and under their names; and whatever a line is resolved to among them binds
  declared names only: a name that is visited to the values of its visits, and any other name that
  has a default to this default, read by the first variable of the name and by its type.
* Every placeholder in a reply or in a preview names a declared variable.
* The program starts unless its arguments are refused or no configuration is loaded: once one is,
  nothing is wrong with it. -/
theorem accepted_config_runs (c : Config) (h : c.validate = .ok ()) :
    (∀ supply calls, ∃ registry supply' s, c.toRegistry supply = .ok (registry, supply') ∧
      Shell.ofRegistry registry supply' calls = .ok s ∧ c.Runs registry s) ∧
    (∀ e ∈ c.entries, ∀ source, source ∈ e.reply ∨ source ∈ e.preview →
      Template.Covered e.declared source) ∧
    ∀ w args o, Program.start w args = .error o →
      (∃ r, CommandLine.read args = .error r ∧ o = Program.refusal r) ∨
        ∃ e, Config.load w.files (Program.sources w.home w.directory args) = .error e ∧
          o = Program.configFailure e := by
  refine ⟨?_, ?_, fun w args o => Program.start_eq_error⟩
  · intro supply calls
    obtain ⟨registry, supply', hregistry, hdeclares⟩ := Config.toRegistry_ok h supply
    obtain ⟨s, hs, hcommands⟩ := Shell.ofRegistry_ok registry supply' calls
    exact ⟨registry, supply', s, hregistry, hs, Config.runs_of_declares h hdeclares hcommands⟩
  · intro e he source hsource
    obtain ⟨scheme, hsound⟩ := c.validate_eq_ok_iff.mp h e he
    rw [hsound.declared_eq]
    rcases hsource with hreply | hpreview
    · exact hsound.reply source hreply
    · exact hsound.preview source hpreview

/-- One command, whose grammar declares a name twice: as a boolean, and for the rest of a line. -/
def muteConfig : Config :=
  ⟨none, none, some [{
    name := "mute"
    grammar := some "<user> [(report <loud:boolean> | <loud...>)]"
    comment := none
    reply := some "muted {user} (loud: {loud})"
    preview := none
    defaults := some ⟨[("loud", "true")]⟩ }]⟩

/-- The command of the configuration: both variables of the name have the default, each by its
type. -/
def muteCommand : Command :=
  let scheme : Scheme SegmentId := [.keyword ⟨4, "mute", none⟩,
    .var ⟨0, "user", none, [], none, false, none, none⟩,
    .optional [.union [
      [.keyword ⟨1, "report", none⟩,
        .var ⟨2, "loud", some .boolean, [], none, false, some (.boolean true), none⟩],
      [.var ⟨3, "loud", none, [], none, true, some (.text "true"), none⟩]]]]
  let reply : Template := ⟨[.literal "muted ", .placeholder "user", .literal " (loud: ",
    .placeholder "loud", .literal ")"]⟩
  ⟨"mute", none, scheme, (Graph.compile 0 scheme).1, Config.replyAction (some reply), none⟩

/-- A line that visits neither variable gets the default of the first one, which is a boolean and no
list. -/
theorem accepted_config_runs_mute : muteConfig.validate = .ok () ∧
    muteConfig.toRegistry ⟨0, 0⟩ = .ok (⟨[muteCommand]⟩, ⟨5, 5⟩) ∧
    ∃ r, (Registry.resolve ⟨[muteCommand]⟩ "mute bob" ["mute", "bob"] []).1 = .ok r ∧
      (¬ ∃ x ∈ r.path, x.Binds r.command.graph "loud") ∧
      r.bindings.find? "loud" = some (.single (.boolean true)) := by
  have hvalid : muteConfig.validate = .ok () := by cbv
  have hregistry : muteConfig.toRegistry ⟨0, 0⟩ = .ok (⟨[muteCommand]⟩, ⟨5, 5⟩) := by cbv
  have hresolved : ((Registry.resolve ⟨[muteCommand]⟩ "mute bob" ["mute", "bob"] []).1.toOption.map
      fun r => (r.index, r.path.map Visit.node)) = some (0, [2, 3]) := by
    simp only [muteCommand, Registry.resolve, Registry.matchAll, Registry.matchFrom,
      Session.matches, Match.distinct_eq_eraseDupsBy]
    decide +kernel
  obtain ⟨r, hok, hindex, hpath⟩ : ∃ r,
      (Registry.resolve ⟨[muteCommand]⟩ "mute bob" ["mute", "bob"] []).1 = .ok r ∧ r.index = 0 ∧
        r.path.map Visit.node = [2, 3] := by
    generalize (Registry.resolve ⟨[muteCommand]⟩ "mute bob" ["mute", "bob"] []).1 = result
      at hresolved
    cases result with
    | error e => cases hresolved
    | ok r => exact ⟨r, rfl, Prod.mk.inj (Option.some.inj hresolved)⟩
  have hcommand : r.command = muteCommand := by
    have hget := (Registry.resolve_ok hok).1
    rw [hindex] at hget
    exact (Option.some.inj hget).symm
  have hunvisited : ¬ ∃ x ∈ r.path, x.Binds r.command.graph "loud" := by
    have hkeyword : muteCommand.graph.kind? 2 = some (.keyword ⟨4, "mute", none⟩) := by cbv
    have huser : muteCommand.graph.kind? 3
        = some (.var ⟨0, "user", none, [], none, false, none, none⟩) := by cbv
    rintro ⟨x, hx, v, hk, hname⟩
    have hnode : x.node ∈ [2, 3] := hpath ▸ List.mem_map_of_mem hx
    rcases List.mem_cons.mp hnode with hnode | hnode
    · rw [hcommand, hnode, hkeyword] at hk
      cases hk
    · rw [hcommand, List.mem_singleton.mp hnode, huser] at hk
      cases hk
      exact absurd hname (by decide)
  refine ⟨hvalid, hregistry, r, hok, hunvisited, ?_⟩
  obtain ⟨registry, supply', s, hregistry', -, hruns⟩ :=
    (accepted_config_runs muteConfig hvalid).1 ⟨0, 0⟩ []
  cases hregistry.symm.trans hregistry'
  obtain ⟨v, hfind, -, hbound⟩ := (hruns.governs _ List.prefix_rfl _ _ _ r hok _
    (by rw [hindex]; rfl)).default "loud" "true" hunvisited rfl
  have hfirst : some v = some ⟨(), "loud", some .boolean, [], none, false, none, none⟩ := by
    rw [← hfind]
    cbv
  cases hfirst
  exact hbound

end CommandGrammar
