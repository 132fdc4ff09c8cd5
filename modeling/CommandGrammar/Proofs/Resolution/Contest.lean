import CommandGrammar.Proofs.Command.Declared
import CommandGrammar.Proofs.Matching.Providers
import CommandGrammar.Resolution.Basic
import Mathlib.Data.List.Perm.Basic

/-!
# `Proofs.Resolution.Contest` — which command a line means

With providers that do not change their answers, each command takes part with the matches that it
finds alone, so the meaning of a line is a contest of commands (`contest`): the champions are the
commands with a match of the greatest weight, and one champion wins. The contest does not mention
places in the registry, sessions or calls, and `Registry.resolve_eq_contest` says that it is what
resolution computes.

From this follows what a maintainer relies on when commands are registered in another order, or when
commands are added that do not match: the champions are permuted, or stay as they are.

## Contents
- `Command.ready`, `bestWeight`, `champions`, `contest`.
- `heaviest_grouped`, `distinctCommands_grouped`: the two steps of resolution, command by command.
- `Registry.resolve_eq_contest`.
- `Resolution.Agree`; what the order and other commands can change.
- `order_matters_disputed`: providers of one identity that do not agree.
-/

namespace CommandGrammar

/-! ## The contest -/

/-- The invokable matches of a command. -/
def Command.ready (argv : List String) (c : Command) : List Match :=
  (c.found argv).filter Match.isInvokable

/-- Whether a command has an invokable match. -/
def Command.competes (argv : List String) (c : Command) : Bool :=
  !(c.ready argv).isEmpty

/-- The greatest weight of an invokable match of the commands. -/
def bestWeight (argv : List String) (cs : List Command) : Nat :=
  (cs.flatMap fun c => (c.ready argv).map fun m => m.score c.graph).foldl max 0

/-- The invokable matches of a command that have the given weight. -/
def Command.weighing (argv : List String) (weight : Nat) (c : Command) : List Match :=
  (c.ready argv).filter fun m => m.score c.graph == weight

/-- The first of some matches of each command that has any. -/
def firsts (f : Command → List Match) (cs : List Command) : List (Command × Match) :=
  cs.flatMap fun c => ((f c).take 1).map fun m => (c, m)

@[simp] theorem firsts_cons (f : Command → List Match) (c : Command) (rest : List Command) :
    firsts f (c :: rest) = ((f c).take 1).map (fun m => (c, m)) ++ firsts f rest := rfl

/-- The commands with an invokable match of greatest weight, each with the first such match. -/
def champions (argv : List String) (cs : List Command) : List (Command × Match) :=
  firsts (Command.weighing argv (bestWeight argv cs)) cs

/-- The one champion, if there is one. -/
def crown (input : String) : List (Command × Match) → Except Resolution.Error (Command × Match)
  | [] => .error (.incompleteCommand input)
  | [champion] => .ok champion
  | tied => .error (.ambiguousCommand (tied.map fun q => q.1.name))

/-- The command that a line means, with its match. -/
def contest (input : String) (argv : List String) (cs : List Command) :
    Except Resolution.Error (Command × Match) :=
  if cs.all fun c => (c.found argv).isEmpty then .error (.unknownCommand input)
  else crown input (champions argv cs)

/-! ## Resolution, command by command -/

section

variable {f : Command → List Match}

theorem map_score_grouped (index : Nat) (cs : List Command) :
    (grouped f index cs).map CommandMatch.score
      = cs.flatMap fun c => (f c).map fun m => m.score c.graph := by
  induction cs generalizing index with
  | nil => rfl
  | cons c rest ih =>
      rw [grouped_cons, List.map_append, ih, List.flatMap_cons, List.map_map]
      rfl

/-- The heaviest matches are those of the best weight of each command. -/
theorem heaviest_grouped (argv : List String) (cs : List Command) :
    heaviest ((grouped (Command.found argv) 0 cs).filter fun m => m.result.isInvokable)
      = grouped (Command.weighing argv (bestWeight argv cs)) 0 cs := by
  have hready : (grouped (Command.found argv) 0 cs).filter (fun m => m.result.isInvokable)
      = grouped (Command.ready argv) 0 cs := filter_grouped (fun _ _ _ => rfl) 0 cs
  unfold heaviest
  rw [hready, map_score_grouped]
  exact filter_grouped (fun _ _ _ => rfl) 0 cs

/-- Of the matches of each command the first one is kept. -/
theorem distinctCommands_grouped (index : Nat) (cs : List Command) :
    (distinctCommands (grouped f index cs)).map (fun m => (m.command, m.result))
      = firsts f cs := by
  induction cs generalizing index with
  | nil => rfl
  | cons c rest ih =>
      cases hf : f c with
      | nil =>
          rw [grouped_cons, hf, List.map_nil, List.nil_append, ih, firsts_cons, hf]
          rfl
      | cons m ms =>
          -- Later commands stand at later places, so only other matches of this one are left out.
          have hlater : (grouped f (index + 1) rest).filter
              (fun b => decide ((b.index == index) = false)) = grouped f (index + 1) rest := by
            refine List.filter_eq_self.mpr fun b hb => ?_
            have hle := index_le_of_mem_grouped hb
            have hne : b.index ≠ index := by omega
            simp [hne]
          have hsame : (ms.map fun m => (⟨index, c, m⟩ : CommandMatch)).filter
              (fun b => decide ((b.index == index) = false)) = [] := by
            refine List.filter_eq_nil_iff.mpr fun b hb => ?_
            obtain ⟨x, -, rfl⟩ := List.mem_map.mp hb
            simp
          rw [grouped_cons, hf, List.map_cons, List.cons_append, distinctCommands,
            List.eraseDupsBy_cons, List.filter_append, hsame, hlater, List.nil_append,
            List.map_cons]
          have hrest := ih (index + 1)
          unfold distinctCommands at hrest
          rw [hrest, firsts_cons, hf]
          rfl

end

/-- What a resolution says but for the command's place. -/
def Resolution.content (r : Resolution) : Command × Bindings × List Visit :=
  (r.command, r.bindings, r.path)

/-- What the resolution by a match of a command says. -/
def Resolution.contentOf (q : Command × Match) : Command × Bindings × List Visit :=
  (q.1, Bindings.ofMatch q.1.scheme q.1.graph q.2, q.2.path)

theorem grouped_eq_nil {f : Command → List Match} {index : Nat} {cs : List Command} :
    grouped f index cs = [] ↔ ∀ c ∈ cs, f c = [] := by
  induction cs generalizing index with
  | nil => simp
  | cons c rest ih => simp [ih]

/-- The heaviest matches decide like the champions that they are of. -/
theorem map_content_heaviest (input : String) (best : List CommandMatch) :
    Except.map Resolution.content
      (match best with
      | [] => .error (.incompleteCommand input)
      | winner :: _ =>
        if 1 < (distinctCommands best).length then
          .error (.ambiguousCommand ((distinctCommands best).map fun m => m.command.name))
        else .ok (Resolution.ofMatch winner))
      = (crown input ((distinctCommands best).map fun m => (m.command, m.result))).map
          Resolution.contentOf := by
  cases best with
  | nil => rfl
  | cons winner others =>
      -- The winner is the first of the distinct ones, so it wins alone or is tied.
      have hdistinct : ∃ tied, distinctCommands (winner :: others) = winner :: tied :=
        ⟨_, List.eraseDupsBy_cons⟩
      obtain ⟨tied, htied⟩ := hdistinct
      simp only [htied]
      cases tied with
      | nil => rfl
      | cons second tied => simp [crown, Except.map]

/-- **Resolution is the contest** of the commands that the matches are of. -/
theorem resolve_grouped (input : String) (argv : List String) (cs : List Command) :
    (resolve input (grouped (Command.found argv) 0 cs)).map Resolution.content
      = (contest input argv cs).map Resolution.contentOf := by
  have hempty : (grouped (Command.found argv) 0 cs).isEmpty
      = cs.all fun c => (c.found argv).isEmpty := by
    rw [Bool.eq_iff_iff]
    simp [grouped_eq_nil]
  unfold resolve contest
  rw [hempty, heaviest_grouped]
  cases cs.all fun c => (c.found argv).isEmpty with
  | true => rfl
  | false =>
      have hdecide := map_content_heaviest input
        (grouped (Command.weighing argv (bestWeight argv cs)) 0 cs)
      rw [distinctCommands_grouped] at hdecide
      exact hdecide

/-- **With providers that do not change their answers, the meaning of a line is the contest.** -/
theorem Registry.resolve_eq_contest {r : Registry} (h : Steady r.commands) (input : String)
    (argv : List String) (calls : CallLog) :
    (r.resolve input argv calls).1.map Resolution.content
      = (contest input argv r.commands).map Resolution.contentOf := by
  rw [← resolve_grouped, ← matchAll_eq h argv calls]
  rfl

/-! ## Other orders and other commands -/

section

variable {argv : List String} {cs cs' : List Command}

theorem bestWeight_perm (h : cs'.Perm cs) : bestWeight argv cs' = bestWeight argv cs :=
  (h.flatMap_right _).foldl_eq 0

/-- **In another order the champions are the same**, in that order. -/
theorem champions_perm (h : cs'.Perm cs) : (champions argv cs').Perm (champions argv cs) := by
  unfold champions
  rw [bestWeight_perm h]
  exact h.flatMap_right _

theorem firsts_sublist (f : Command → List Match) (cs : List Command) :
    ((firsts f cs).map Prod.fst).Sublist cs := by
  induction cs with
  | nil => exact .slnil
  | cons c rest ih =>
      rw [firsts_cons]
      cases f c with
      | nil => exact ih.cons c
      | cons m ms => exact ih.cons_cons c

theorem Command.ready_eq_nil {c : Command} (h : c.competes argv = false) : c.ready argv = [] := by
  simpa [competes] using h

/-- What commands contribute by their invokable matches comes of those that compete. -/
theorem flatMap_competes {β : Type} {f : Command → List β}
    (hf : ∀ c : Command, c.ready argv = [] → f c = []) (cs : List Command) :
    (cs.filter (Command.competes argv)).flatMap f = cs.flatMap f := by
  induction cs with
  | nil => rfl
  | cons c rest ih =>
      cases hc : c.competes argv with
      | true => rw [List.filter_cons_of_pos hc, List.flatMap_cons, List.flatMap_cons, ih]
      | false =>
          rw [List.filter_cons_of_neg (by simp [hc]), List.flatMap_cons,
            hf c (Command.ready_eq_nil hc), ih, List.nil_append]

/-- **The champions are among the commands that compete**, and the others change nothing. -/
theorem champions_competes (argv : List String) (cs : List Command) :
    champions argv (cs.filter (Command.competes argv)) = champions argv cs := by
  have hbest : bestWeight argv (cs.filter (Command.competes argv)) = bestWeight argv cs := by
    unfold bestWeight
    rw [flatMap_competes (fun c hc => by rw [hc, List.map_nil])]
  unfold champions firsts
  rw [hbest, flatMap_competes]
  intro c hc
  rw [Command.weighing, hc, List.filter_nil, List.take_nil, List.map_nil]

/-- If a command competes, some command is found. -/
theorem contest_of_competes (input : String) (h : ∃ c ∈ cs, c.competes argv = true) :
    contest input argv cs = crown input (champions argv cs) := by
  obtain ⟨c, hc, hcompetes⟩ := h
  have hfound : c.found argv ≠ [] := by
    intro hnil
    simp [Command.competes, Command.ready, hnil] at hcompetes
  refine if_neg ?_
  simp only [List.all_eq_true, not_forall]
  exact ⟨c, hc, by simpa using hfound⟩

end

/-! ## Answers that agree -/

/-- The commands of the champions, in order of registration. -/
def tied (argv : List String) (cs : List Command) : List Command :=
  (champions argv cs).map Prod.fst

theorem tied_sublist (argv : List String) (cs : List Command) : (tied argv cs).Sublist cs :=
  firsts_sublist _ cs

/-- Two registries answer alike: they choose the same command with the same bindings and the same
path, or refuse alike. If commands are tied, the same ones are, and each registry names them in its
own order. -/
inductive Resolution.Agree (argv : List String) (cs cs' : List Command) :
    Except Resolution.Error Resolution → Except Resolution.Error Resolution → Prop
  | resolved {x x' : Resolution} (command : x'.command = x.command)
      (bindings : x'.bindings = x.bindings) (path : x'.path = x.path) :
      Agree argv cs cs' (.ok x) (.ok x')
  | unknown (input : String) :
      Agree argv cs cs' (.error (.unknownCommand input)) (.error (.unknownCommand input))
  | incomplete (input : String) :
      Agree argv cs cs' (.error (.incompleteCommand input)) (.error (.incompleteCommand input))
  | ambiguous (same : (tied argv cs').Perm (tied argv cs))
      (order : (tied argv cs).Sublist cs) (order' : (tied argv cs').Sublist cs') :
      Agree argv cs cs' (.error (.ambiguousCommand ((tied argv cs).map Command.name)))
        (.error (.ambiguousCommand ((tied argv cs').map Command.name)))

theorem map_eq_error {ε α β : Type} {a : Except ε α} {f : α → β} {e : ε}
    (h : a.map f = .error e) : a = .error e := by
  cases a with
  | error e' => exact congrArg Except.error (Except.error.inj h)
  | ok x => exact absurd h (by simp [Except.map])

theorem map_eq_ok {ε α β : Type} {a : Except ε α} {f : α → β} {b : β}
    (h : a.map f = .ok b) : ∃ x, a = .ok x ∧ f x = b := by
  cases a with
  | error e => exact absurd h (by simp [Except.map])
  | ok x => exact ⟨x, rfl, Except.ok.inj h⟩

/-- More than one champion make a line ambiguous. -/
theorem crown_champions {input : String} {argv : List String} {cs : List Command}
    (h : 1 < (champions argv cs).length) :
    crown input (champions argv cs)
      = .error (.ambiguousCommand ((tied argv cs).map Command.name)) := by
  unfold tied
  match champions argv cs, h with
  | q :: p :: rest, _ => simp [crown]

/-- Answers that come of permuted champions agree. -/
theorem Resolution.Agree.of_perm {input : String} {argv : List String} {cs cs' : List Command}
    (hperm : cs'.Perm cs) {a a' : Except Resolution.Error Resolution}
    (ha : a.map content = (crown input (champions argv cs)).map contentOf)
    (ha' : a'.map content = (crown input (champions argv cs')).map contentOf) :
    Agree argv cs cs' a a' := by
  have hchampions : (champions argv cs').Perm (champions argv cs) := champions_perm hperm
  cases hc : champions argv cs with
  | nil =>
      rw [hc] at ha hchampions
      rw [hchampions.eq_nil] at ha'
      rw [map_eq_error ha, map_eq_error ha']
      exact .incomplete input
  | cons q others =>
      cases others with
      | nil =>
          rw [hc] at ha hchampions
          rw [List.perm_singleton.mp hchampions] at ha'
          obtain ⟨x, rfl, hx⟩ := map_eq_ok ha
          obtain ⟨x', rfl, hx'⟩ := map_eq_ok ha'
          have hcontent : x'.content = x.content := hx'.trans hx.symm
          simp only [content, Prod.mk.injEq] at hcontent
          exact .resolved hcontent.1 hcontent.2.1 hcontent.2.2
      | cons p others =>
          have hmany : 1 < (champions argv cs).length := by simp [hc]
          rw [crown_champions hmany] at ha
          rw [crown_champions (hchampions.length_eq ▸ hmany)] at ha'
          rw [map_eq_error ha, map_eq_error ha']
          exact .ambiguous (hchampions.map _) (tied_sublist argv cs) (tied_sublist argv cs')

/-- **The meaning of a line depends neither on the order of registration nor on commands that do not
compete**, where providers are constant and clones of a segment share theirs. If the commands are
permuted, the answers agree. If at least one command has an invokable match, and two registries have
the same commands with invokable matches in the same order, they choose the same command with the
same bindings and the same path, or name the same tied commands. Neither depends on which providers
were asked before. -/
theorem Registry.resolve_stable {r : Registry} (hr : Steady r.commands) :
    (∀ r' : Registry, r'.commands.Perm r.commands → ∀ input argv calls calls',
      Resolution.Agree argv r.commands r'.commands (r.resolve input argv calls).1
        (r'.resolve input argv calls').1) ∧
    ∀ r' : Registry, Steady r'.commands → ∀ argv,
      r'.commands.filter (Command.competes argv) = r.commands.filter (Command.competes argv) →
      (∃ c ∈ r.commands, c.competes argv = true) → ∀ input calls calls',
        (r'.resolve input argv calls').1.map Resolution.content
          = (r.resolve input argv calls).1.map Resolution.content := by
  constructor
  · intro r' hperm input argv calls calls'
    have hr' : Steady r'.commands := hr.mono hperm.subset
    have ha := resolve_eq_contest hr input argv calls
    have ha' := resolve_eq_contest hr' input argv calls'
    unfold contest at ha ha'
    rw [hperm.all_eq] at ha'
    by_cases hall : (r.commands.all fun c => (c.found argv).isEmpty) = true
    · rw [if_pos hall] at ha ha'
      rw [map_eq_error ha, map_eq_error ha']
      exact .unknown input
    · rw [if_neg hall] at ha ha'
      exact .of_perm hperm ha ha'
  · intro r' hr' argv hsame hcompetes input calls calls'
    have hcompetes' : ∃ c ∈ r'.commands, c.competes argv = true := by
      obtain ⟨c, hc, hready⟩ := hcompetes
      have hmem : c ∈ r'.commands.filter (Command.competes argv) := by
        rw [hsame]
        exact List.mem_filter.mpr ⟨hc, hready⟩
      exact ⟨c, (List.mem_filter.mp hmem).1, hready⟩
    rw [resolve_eq_contest hr, resolve_eq_contest hr', contest_of_competes input hcompetes,
      contest_of_competes input hcompetes', ← champions_competes argv r'.commands, hsame,
      champions_competes]

/-- A mode that a provider knows. -/
def modeVariable : Variable SegmentId :=
  ⟨1, "mode", none, [], some fun _ => ["fast", "slow"], false, none, none⟩

/-- `set <mode: <provider>>`, `set fast` and `get <mode: <provider>>`, with one and the same
mode. -/
def modeCommands : List Command :=
  [silentCommand "set" [.keyword ⟨0, "set", none⟩, .var modeVariable],
    silentCommand "set" [.keyword ⟨2, "set", none⟩, .keyword ⟨3, "fast", none⟩],
    silentCommand "get" [.keyword ⟨4, "get", none⟩, .var modeVariable]]

/-- For `set fast` the first two commands compete, in whatever order, and the third does not. -/
theorem resolve_stable_modes : Steady modeCommands ∧
    Resolution.Agree ["set", "fast"] modeCommands modeCommands.reverse
      ((⟨modeCommands⟩ : Registry).resolve "set fast" ["set", "fast"] []).1
      ((⟨modeCommands.reverse⟩ : Registry).resolve "set fast" ["set", "fast"] []).1 ∧
    ((⟨modeCommands.take 2⟩ : Registry).resolve "set fast" ["set", "fast"] []).1.map
        Resolution.content
      = ((⟨modeCommands⟩ : Registry).resolve "set fast" ["set", "fast"] []).1.map
        Resolution.content := by
  have hproviders : modeCommands.flatMap Command.providers
      = [(1, fun _ => ["fast", "slow"]), (1, fun _ => ["fast", "slow"])] := by cbv
  have hr : Steady modeCommands := by
    constructor
    · rw [Fixed, hproviders]
      simp
    · rw [hproviders]
      simp
  have hcompetes : (modeCommands.map fun c => c.competes ["set", "fast"])
      = [true, true, false] := by
    simp only [Command.competes, Command.ready, Command.found_eq]
    decide +kernel
  have hfilter : modeCommands.filter (Command.competes ["set", "fast"]) = modeCommands.take 2 := by
    simp only [modeCommands, List.map_cons, List.map_nil, List.cons.injEq] at hcompetes
    simp [modeCommands, hcompetes]
  have hstable := Registry.resolve_stable (r := ⟨modeCommands⟩) hr
  refine ⟨hr, hstable.1 _ (List.reverse_perm _) _ _ _ _, ?_⟩
  refine hstable.2 ⟨modeCommands.take 2⟩ (hr.mono (List.take_subset _ _)) _ ?_ ?_ _ _ _
  · show (modeCommands.take 2).filter _ = modeCommands.filter _
    rw [← hfilter, List.filter_filter]
    simp
  · have hfirst : modeCommands.take 2 ≠ [] := by simp [modeCommands]
    rw [← hfilter] at hfirst
    obtain ⟨c, hc⟩ := List.exists_mem_of_ne_nil _ hfirst
    exact ⟨c, List.mem_filter.mp hc⟩

/-- Two commands `set <mode: <provider>>` with one identity for both modes, and providers that
disagree: the first knows `fast`, the second `slow`. -/
def disputedCommands : List Command :=
  ["fast", "slow"].map fun answer => silentCommand "set" [.keyword ⟨0, "set", none⟩,
    .var { modeVariable with provider := some fun _ => [answer] }]

/-- **Providers of one identity have to agree.** If they do not, the order matters even if none of
them changes its answer: the session keeps what the first of them answers. So `set slow` is unknown
in one order of these commands and ambiguous in the other. Nor can the command be left out that does
not compete: alone, the other one is chosen. -/
theorem order_matters_disputed :
    let answer (cs : List Command) := ((⟨cs⟩ : Registry).resolve "set slow" ["set", "slow"] []).1
    Fixed disputedCommands ∧
    (disputedCommands.reverse.Perm disputedCommands ∧
      (answer disputedCommands).map Resolution.index = .error (.unknownCommand "set slow") ∧
      (answer disputedCommands.reverse).map Resolution.index
        = .error (.ambiguousCommand ["set", "set"]) ∧
      ¬ Resolution.Agree ["set", "slow"] disputedCommands disputedCommands.reverse
        (answer disputedCommands) (answer disputedCommands.reverse)) ∧
    (disputedCommands.drop 1 = disputedCommands.filter (Command.competes ["set", "slow"]) ∧
      (answer (disputedCommands.drop 1)).map Resolution.index = .ok 0) := by
  intro answer
  have hproviders : disputedCommands.flatMap Command.providers
      = [(1, fun _ => ["fast"]), (1, fun _ => ["slow"])] := by cbv
  have hanswers : (answer disputedCommands).map Resolution.index
        = .error (.unknownCommand "set slow") ∧
      (answer disputedCommands.reverse).map Resolution.index
        = .error (.ambiguousCommand ["set", "set"]) ∧
      (answer (disputedCommands.drop 1)).map Resolution.index = .ok 0 := by
    simp only [answer, Registry.resolve, Registry.matchAll, Registry.matchFrom, Session.matches,
      Match.distinct_eq_eraseDupsBy, disputedCommands, List.map_cons, List.map_nil,
      List.reverse_cons, List.reverse_nil, List.nil_append, List.cons_append, List.drop_succ_cons,
      List.drop_zero]
    decide +kernel
  have hcompetes : (disputedCommands.map fun c => c.competes ["set", "slow"]) = [false, true] := by
    simp only [Command.competes, Command.ready, Command.found_eq]
    decide +kernel
  obtain ⟨hunknown, hambiguous, halone⟩ := hanswers
  refine ⟨?_, ⟨List.reverse_perm _, hunknown, hambiguous, ?_⟩, ?_, halone⟩
  · rw [Fixed, hproviders]
    simp
  · rw [map_eq_error hunknown, map_eq_error hambiguous]
    rintro ⟨⟩
  · simp only [disputedCommands, List.map_cons, List.map_nil, List.cons.injEq] at hcompetes
    simp [disputedCommands, hcompetes]

end CommandGrammar
