import CommandGrammar.Proofs.Matching.Reach

/-!
# `Proofs.Matching.Caching` — asking once is as good as constant providers

A provider may answer differently each time. Matching a line asks it once at most, so it might as
well be the constant function that gives the answer of that time: to *pin* a provider is to replace
it by that constant. A pinned registry finds the same matches, whatever was asked before.

The two sessions keep the same answers all along; the one with the actual providers asks each of
them for the first time, so its question has the number that the pin was made with.

## Contents
- `Variable.pin`, `Registry.pin`: constant providers.
- `Session.alikeBy_pin`: the sessions stay alike.
- `CommandMatch.mapVariables`, `Registry.matchFrom_mapVariables`: matches of changed commands.
- `caching_transparent`.
-/

namespace CommandGrammar

/-! ## Constant providers -/

/-- The variable with a constant provider, which gives the answer to the question that comes next
after the given calls. -/
def Variable.pin (calls : CallLog) (v : Variable SegmentId) : Variable SegmentId :=
  { v with provider := v.provider.map fun p _ => p (calls.count v.id) }

/-- The registry with all providers pinned. -/
def Registry.pin (calls : CallLog) (r : Registry) : Registry :=
  ⟨r.commands.map (Command.mapVariables (Variable.pin calls))⟩

theorem neutral_pin (calls : CallLog) : Variable.Neutral (Variable.pin calls) where
  id _ := rfl
  isRest _ := rfl
  check v token candidates := by
    have henumerated : (v.pin calls).isEnumerated = v.isEnumerated := by
      simp [Variable.isEnumerated, Variable.pin]
    simp only [Variable.check, henumerated]
    rfl
  coerce _ _ := rfl

/-- The providers of a command are those of its nodes. -/
theorem Command.exists_of_mem_providers {c : Command} {q : SegmentId × Provider}
    (h : q ∈ c.providers) :
    ∃ i v, c.graph.kind? i = some (.var v) ∧ v.id = q.1 ∧ v.provider = some q.2 := by
  obtain ⟨n, hn, hq⟩ := List.mem_filterMap.mp h
  obtain ⟨i, hi⟩ := Array.mem_iff_getElem?.mp (Array.mem_toList_iff.mp hn)
  have hkind : c.graph.kind? i = some n.kind := by simp [Graph.kind?, hi]
  cases hk : n.kind with
  | keyword k => simp [hk] at hq
  | marker scope isEntry => simp [hk] at hq
  | var v =>
      simp only [hk] at hq
      obtain ⟨p, hp, rfl⟩ := Option.map_eq_some_iff.mp hq
      exact ⟨i, v, by rw [hkind, hk], rfl, hp⟩

/-- **Pinned providers do not change their answers.** -/
theorem Registry.fixed_pin (r : Registry) (calls : CallLog) : Fixed (r.pin calls).commands := by
  intro q hq k
  obtain ⟨c', hc', hq⟩ := List.mem_flatMap.mp hq
  obtain ⟨c, -, rfl⟩ := List.mem_map.mp hc'
  obtain ⟨i, v', hk, -, hp⟩ := Command.exists_of_mem_providers hq
  have hmap : (c.graph.kind? i).map (NodeKind.mapVariable (Variable.pin calls))
      = some (.var v') := (c.graph.kind?_mapVariables i).symm.trans hk
  obtain ⟨kind, -, hkind⟩ := Option.map_eq_some_iff.mp hmap
  cases kind with
  | keyword k => cases hkind
  | marker scope isEntry => cases hkind
  | var v =>
      injection hkind with hv
      subst hv
      obtain ⟨p, -, hconstant⟩ := Option.map_eq_some_iff.mp hp
      rw [← hconstant]

/-! ## Sessions that stay alike -/

/-- **A session since the given calls and one that keeps the same answers stay alike** if the second
one asks the pinned providers. -/
theorem Session.alikeBy_pin (calls : CallLog) (g : Graph) :
    Session.AlikeBy (Variable.pin calls)
      (fun s s' => s.Since calls ∧ s'.provided = s.provided) g := by
  intro s s' ⟨hsince, hsame⟩ i v _
  have hsince' := hsince.candidates v
  cases hchoices : v.choices.isEmpty with
  | false =>
      have hchoices' : (v.pin calls).choices.isEmpty = false := hchoices
      rw [candidates_of_choices hchoices, candidates_of_choices hchoices']
      exact ⟨rfl, hsince, hsame⟩
  | true =>
      have hchoices' : (v.pin calls).choices.isEmpty = true := hchoices
      cases hp : v.provider with
      | none =>
          have hp' : (v.pin calls).provider = none := by simp [Variable.pin, hp]
          rw [candidates_of_no_provider hchoices hp, candidates_of_no_provider hchoices' hp']
          exact ⟨rfl, hsince, hsame⟩
      | some p =>
          have hp' : (v.pin calls).provider = some fun _ => p (calls.count v.id) := by
            simp [Variable.pin, hp]
          have hl' : s'.provided.lookup (v.pin calls).id = s.provided.lookup v.id := by
            rw [hsame]
            rfl
          cases hl : s.provided.lookup v.id with
          | some answer =>
              rw [candidates_of_provided hchoices hp hl,
                candidates_of_provided hchoices' hp' (hl'.trans hl)]
              exact ⟨rfl, hsince, hsame⟩
          | none =>
              -- The provider is asked for the first time, with the number that the pin has.
              have hcount := hsince.count (lookup_eq_none.mp hl)
              rw [candidates_of_ask hchoices hp hl] at hsince' ⊢
              rw [candidates_of_ask hchoices' hp' (hl'.trans hl)]
              unfold ask at hsince' ⊢
              rw [hcount] at hsince' ⊢
              refine ⟨rfl, hsince', ?_⟩
              show _ :: s'.provided = _ :: s.provided
              rw [hsame]
              rfl

/-! ## Matches of changed commands -/

/-- The match as one of the command with its variables changed. -/
def CommandMatch.mapVariables (f : Variable SegmentId → Variable SegmentId) (m : CommandMatch) :
    CommandMatch :=
  { m with command := m.command.mapVariables f }

/-- From sessions that are alike, commands and the changed commands have the same matches. -/
theorem Registry.matchFrom_mapVariables {f : Variable SegmentId → Variable SegmentId}
    (hf : Variable.Neutral f) {R : Session → Session → Prop} {cs : List Command}
    (hR : ∀ c ∈ cs, Session.AlikeBy f R c.graph) (argv : List String) (index : Nat)
    {s s' : Session} (h : R s s') :
    (matchFrom argv index (cs.map (Command.mapVariables f)) s').1
      = (matchFrom argv index cs s).1.map (CommandMatch.mapVariables f) := by
  induction cs generalizing index s s' with
  | nil => rfl
  | cons c rest ih =>
      obtain ⟨hmatches, hafter⟩ := Session.matches_mapVariables hf (hR c (by simp)) h argv
      have hlater := ih (fun d hd => hR d (by simp [hd])) (index + 1) hafter
      have hgraph : (c.mapVariables f).graph = c.graph.mapVariables f := rfl
      rw [List.map_cons, matchFrom_cons, matchFrom_cons, hgraph, ← hmatches, List.map_append,
        List.map_map, ← hlater]
      rfl

/-- **Keeping the answers of providers is transparent**, whatever the providers answer, and however
often and in however many commands a variable stands. While a line is matched, a provider is asked
once at most: exactly the providers of those variables without fixed candidates are asked whose
nodes the line reaches. The matches are those of the registry in which every provider is the
constant that gives the answer of its first question, whatever was asked there before. -/
theorem caching_transparent {r : Registry} (h : ∀ c ∈ r.commands, c.Declared)
    (argv : List String) (calls : CallLog) :
    (∃ asked, (r.matchAll argv calls).2 = asked ++ calls ∧ asked.Nodup ∧
      ∀ id, id ∈ asked ↔ ∃ c ∈ r.commands, c.Asks (r.session argv calls) argv id) ∧
    Fixed (r.pin calls).commands ∧ (∀ c ∈ (r.pin calls).commands, c.Declared) ∧
    ∀ calls', ((r.pin calls).matchAll argv calls').1
      = (r.matchAll argv calls).1.map (CommandMatch.mapVariables (Variable.pin calls)) := by
  have hsince := r.since_session argv calls
  refine ⟨⟨(r.session argv calls).asked, hsince.calls_eq, hsince.nodup, ?_⟩, r.fixed_pin calls,
    ?_, ?_⟩
  · intro id
    exact Registry.mem_asked_session h
  · intro c' hc'
    obtain ⟨c, hc, rfl⟩ := List.mem_map.mp hc'
    exact (h c hc).mapVariables (neutral_pin calls)
  · intro calls'
    apply Registry.matchFrom_mapVariables (neutral_pin calls)
      (R := fun s s' => s.Since calls ∧ s'.provided = s.provided)
    · intro c _
      exact Session.alikeBy_pin calls c.graph
    · exact ⟨Session.since_fresh calls, rfl⟩

/-- `set <mode: <provider>...>` and `set [<mode: <provider>...>]` with one and the same mode, of
which the provider knows `fast` at first and `slow` ever after. -/
def shiftyCommands : List Command :=
  let mode : Variable SegmentId := ⟨1, "mode", none, [],
    some fun k => if k = 0 then ["fast"] else ["slow"], true, none, none⟩
  [silentCommand "set" [.keyword ⟨0, "set", none⟩, .var mode],
    silentCommand "set" [.keyword ⟨2, "set", none⟩, .optional [.var mode]]]

/-- For `set fast fast` the provider is asked once; for both tokens and for both commands its first
answer counts. -/
theorem caching_transparent_shifty : (∀ c ∈ shiftyCommands, c.Declared) ∧
    (((⟨shiftyCommands⟩ : Registry).matchAll ["set", "fast", "fast"] []).1.filter
      fun m => m.result.isInvokable).map CommandMatch.index = [0, 1] ∧
    ((⟨shiftyCommands⟩ : Registry).matchAll ["set", "fast", "fast"] []).2 = [1] ∧
    (((⟨shiftyCommands⟩ : Registry).pin []).matchAll ["set", "fast", "fast"] [1]).1
      = ((⟨shiftyCommands⟩ : Registry).matchAll ["set", "fast", "fast"] []).1.map
        (CommandMatch.mapVariables (Variable.pin [])) := by
  have hdeclared : ∀ c ∈ shiftyCommands, c.Declared := by
    simp only [shiftyCommands, List.forall_mem_cons]
    exact ⟨silentCommand_declared (by decide) 0 _, silentCommand_declared (by decide) 2 _, by simp⟩
  refine ⟨hdeclared, ?_, ?_, (caching_transparent (r := ⟨shiftyCommands⟩) hdeclared _ []).2.2.2 [1]⟩
  · simp only [Registry.matchAll, Registry.matchFrom, Session.matches,
      Match.distinct_eq_eraseDupsBy, shiftyCommands]
    decide +kernel
  · simp only [Registry.matchAll, Registry.matchFrom, Session.matches,
      Match.distinct_eq_eraseDupsBy, shiftyCommands]
    decide +kernel

end CommandGrammar
