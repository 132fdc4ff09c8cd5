import CommandGrammar.Proofs.CommandLine.Arguments
import CommandGrammar.Proofs.Matching.Reach
import CommandGrammar.Proofs.Resolution.Leftmost
import CommandGrammar.Proofs.Resolution.Naming

/-!
# `Proofs.Shell.Help` — help knows every command

A shell is given `help` when it is made. The topics of `help` are the names that its provider lists,
and its reply is made of what is listed then; both are fixed before the shell sees a line. The
topics turn out to be the names of all commands of the shell, and the reply to have a line for each
of them, so help describes a name if and only if a command has it.

Only commands that are named `help` go beyond the first word of such a line, and there is only one.
Hence no other command is asked anything, whatever its segments are (`Registry.ready_eq`), and the
line means what a search through the scheme of `help` makes of it.

## Contents
- `helpTopic`, `helpScheme`, `Command.IsHelp`: the command `help` and what it is made of.
- `Registry.Helped`, `Registry.exists_helped`: the registry of a shell.
- `Registry.provided_of_foreign`, `Registry.ready_eq`: lines for one command only.
- `IsHelp.ready_bare`, `IsHelp.ready_topic`, `IsHelp.find?_bare`, `IsHelp.find?_topic`: what `help`
  makes of a line.
- `help_complete`.
-/

namespace CommandGrammar

/-! ## The command `help` -/

/-- The variable of `help`: one of the given names. -/
def helpTopic (id : SegmentId) (names : List String) : Variable SegmentId :=
  ⟨id, "command", none, [], some fun _ => names, false, none, some "command to describe"⟩

/-- The scheme of `help`. -/
def helpScheme (id : SegmentId) (names : List String) : Scheme SegmentId :=
  [.keyword ⟨id + 1, "help", none⟩, .optional [.var (helpTopic id names)]]

/-- The command is `help`, with the given names as its topics and the given listing for its
reply. -/
structure Command.IsHelp (c : Command) (id : SegmentId) (names : List String)
    (all : List Listing) : Prop where
  declared : c.Declared
  name : c.name = "help"
  scheme : c.scheme = helpScheme id names
  action : ∀ i, c.action i = .ok (.text (helpText all i))

/-- The line of help for a command: its usage, and its comment if it has one. -/
def Command.described (c : Command) : String :=
  c.usage ++ (c.comment.elim "" fun comment => " - " ++ comment)

theorem Command.line_listing (c : Command) : c.listing.line = c.described := by
  unfold listing Listing.line described
  cases c.comment with
  | none => simp
  | some comment => simp [String.append_assoc]

/-- The lines of a listing describe the commands, those of a name the commands of that name. -/
theorem Registry.lines_listing (r : Registry) :
    r.listing.map Listing.line = r.commands.map Command.described ∧
      ∀ name, (r.listing.filter fun l => l.name == name).map Listing.line
        = (r.commands.filter fun c => c.name == name).map Command.described := by
  have hline : Listing.line ∘ Command.listing = Command.described := funext Command.line_listing
  refine ⟨by rw [listing, List.map_map, hline], fun name => ?_⟩
  rw [listing, List.filter_map, List.map_map, hline]
  rfl

theorem helpScheme_distinct (id : SegmentId) (names : List String) :
    Scheme.Distinct (helpScheme id names) := by
  show [id + 1, id].Nodup
  simp

/-- A registry has commands, among them one `help`, whose topics are the names of all of them and
whose reply is made of all of them. -/
structure Registry.Helped (r : Registry) (before after : List Command) (help : Command)
    (id : SegmentId) (names : List String) : Prop where
  commands : r.commands = before ++ help :: after
  isHelp : help.IsHelp id names r.listing
  others : ∀ c ∈ before ++ after, c.Declared ∧ c.name ≠ "help"
  names : ∀ name, name ∈ names ↔ ∃ c ∈ r.commands, c.name = name

/-! ## The registry of a shell -/

/-- `help` as it is declared when a shell is made. -/
def builtinHelp (supply : Supply) (names : List String) (all : List Listing) : Command :=
  let scheme := helpScheme supply.segment names
  ⟨"help", some "List commands, or describe one", scheme, (Graph.compile supply.scope scheme).1,
    fun i => .ok (.text (helpText all i)), none⟩

/-- `exit` as it is declared when a shell is made. -/
def builtinExit (supply : Supply) : Command :=
  let scheme : Scheme SegmentId := [.keyword ⟨supply.segment, "exit", none⟩]
  ⟨"exit", some "Leave the shell", scheme, (Graph.compile supply.scope scheme).1,
    fun _ => .ok .exit, none⟩

theorem builtinHelp_isHelp (supply : Supply) (names : List String) (all : List Listing) :
    (builtinHelp supply names all).IsHelp supply.segment names all where
  declared := Command.declared_iff.mpr ⟨by simp [builtinHelp], _, _, _, rfl, rfl⟩
  name := rfl
  scheme := rfl
  action _ := rfl

theorem builtinExit_declared (supply : Supply) : (builtinExit supply).Declared :=
  Command.declared_iff.mpr ⟨by simp [builtinExit], _, _, _, rfl, rfl⟩

theorem helpCommand_eq (supply : Supply) (names : List String) : ∃ supply',
    helpCommand supply names
      = .ok ({ builtinHelp supply names [] with action := fun _ => .ok .silent }, supply') :=
  ⟨_, rfl⟩

theorem exitCommand_eq (supply : Supply) : ∃ supply',
    exitCommand supply = .ok (builtinExit supply, supply') := ⟨_, rfl⟩

theorem Registry.find?_isNone {r : Registry} {name : String} :
    (r.find? name).isNone = true ↔ ∀ c ∈ r.commands, c.name ≠ name := by
  rw [find?, Option.isNone_iff_eq_none, List.find?_eq_none]
  simp

/-- **What a registry without `help` is given**: `help`, whose topics are the names there are by
then and whose reply describes the result, and `exit` if the registry lacks it. -/
theorem Registry.withBuiltins_eq {r : Registry} (hhelp : ∀ c ∈ r.commands, c.name ≠ "help")
    (supply : Supply) :
    ∃ exits supply', (∀ c ∈ exits, c.Declared ∧ c.name ≠ "help") ∧
      exits.map Command.name = (if (r.find? "exit").isNone then ["exit"] else []) ∧
      let names := r.names ++ ["help"] ++ exits.map Command.name
      let all := (⟨r.commands ++ [builtinHelp supply names []] ++ exits⟩ : Registry).listing
      r.withBuiltins supply
        = .ok (⟨r.commands ++ [builtinHelp supply names all] ++ exits⟩, supply') := by
  unfold Registry.withBuiltins
  rw [Registry.find?_isNone.mpr hhelp]
  cases hexit : (r.find? "exit").isNone with
  | true =>
      obtain ⟨supply₁, hhelp⟩ := helpCommand_eq supply (r.names ++ ["help"] ++ ["exit"])
      obtain ⟨supply₂, hexit⟩ := exitCommand_eq supply₁
      refine ⟨[builtinExit supply₁], supply₂, ?_, rfl, ?_⟩
      · intro c hc
        rw [List.mem_singleton.mp hc]
        exact ⟨builtinExit_declared supply₁, by simp [builtinExit]⟩
      · simp only [if_true, hhelp, bind, Except.bind, pure, Except.pure, hexit, Registry.listing,
          List.map_append]
        rfl
  | false =>
      obtain ⟨supply₁, hhelp⟩ := helpCommand_eq supply (r.names ++ ["help"] ++ [])
      refine ⟨[], supply₁, List.forall_mem_nil _, rfl, ?_⟩
      simp only [if_true, Bool.false_eq_true, if_false, hhelp, bind, Except.bind, pure, Except.pure,
        Registry.listing, List.map_append]
      rfl

/-- A registry with `help` and `exit` is given nothing. -/
theorem Registry.withBuiltins_self {r : Registry} (hhelp : ∃ c ∈ r.commands, c.name = "help")
    (hexit : ∃ c ∈ r.commands, c.name = "exit") (supply : Supply) :
    r.withBuiltins supply = .ok (r, supply) := by
  have hfound : ∀ {name : String}, (∃ c ∈ r.commands, c.name = name) →
      (r.find? name).isNone = false := by
    rintro name ⟨c, hc, hname⟩
    rw [← Bool.not_eq_true, Registry.find?_isNone]
    exact fun hnone => hnone c hc hname
  unfold Registry.withBuiltins
  rw [hfound hhelp, hfound hexit]
  simp [bind, Except.bind, pure, Except.pure]

/-- Among a registry's commands and those it is given, one is named `exit`. -/
theorem Registry.exists_exit {r : Registry} {exits : List Command}
    (h : exits.map Command.name = if (r.find? "exit").isNone then ["exit"] else []) :
    ∃ c ∈ r.commands ++ exits, c.name = "exit" := by
  by_cases hexit : (r.find? "exit").isNone = true
  · rw [if_pos hexit] at h
    have hmem : "exit" ∈ exits.map Command.name := by
      rw [h]
      exact List.mem_singleton_self _
    obtain ⟨c, hc, hname⟩ := List.mem_map.mp hmem
    exact ⟨c, List.mem_append_right _ hc, hname⟩
  · rw [Registry.find?_isNone] at hexit
    push Not at hexit
    obtain ⟨c, hc, hname⟩ := hexit
    exact ⟨c, List.mem_append_left _ hc, hname⟩

theorem Registry.helped_append {r : Registry} {exits : List Command}
    (h : ∀ c ∈ r.commands, c.Declared ∧ c.name ≠ "help")
    (hexits : ∀ c ∈ exits, c.Declared ∧ c.name ≠ "help") (supply : Supply) :
    let names := r.names ++ ["help"] ++ exits.map Command.name
    let all := (⟨r.commands ++ [builtinHelp supply names []] ++ exits⟩ : Registry).listing
    (⟨r.commands ++ [builtinHelp supply names all] ++ exits⟩ : Registry).Helped r.commands exits
      (builtinHelp supply names all) supply.segment names := by
  intro names all
  -- The reply does not show in the listing.
  have hlisting : (⟨r.commands ++ [builtinHelp supply names all] ++ exits⟩ : Registry).listing
      = all := by
    simp only [all, Registry.listing, List.map_append]
    rfl
  refine ⟨List.append_assoc _ _ _, ?_, ?_, ?_⟩
  · rw [hlisting]
    exact builtinHelp_isHelp supply names all
  · intro c hc
    exact (List.mem_append.mp hc).elim (h c) (hexits c)
  · intro name
    simp [names, Registry.names, builtinHelp, or_and_right, exists_or, eq_comm]

/-- **The registry of a shell has one `help`**, whose topics are the names of all commands. -/
theorem Registry.exists_helped {r : Registry} (h : ∀ c ∈ r.commands, c.Declared ∧ c.name ≠ "help")
    (supply : Supply) :
    ∃ r' supply' help exits names, r.withBuiltins supply = .ok (r', supply') ∧
      r'.Helped r.commands exits help supply.segment names ∧
      exits.map Command.name = if (r.find? "exit").isNone then ["exit"] else [] := by
  obtain ⟨exits, supply', hexits, hnames, heq⟩ :=
    Registry.withBuiltins_eq (fun c hc => (h c hc).2) supply
  exact ⟨_, supply', _, exits, _, heq, Registry.helped_append h hexits supply, hnames⟩

/-! ## Lines for one command only -/

/-- A line that does not begin with the name of a command asks nothing for it. -/
theorem Command.Declared.not_asks {c : Command} (h : c.Declared) {argv : List String}
    (hname : argv.head? ≠ some c.name) (s : Session) (id : SegmentId) : ¬ c.Asks s argv id := by
  rintro ⟨n, v, hk, -, -, ns, used, rest, rfl, hchain, htakes, hleads⟩
  obtain ⟨lead, node, hg⟩ := h.entrance
  cases htakes with
  | nil =>
      -- Without a token only the keyword is reached.
      have hlead := Graph.solid?_eq_some.mp hg.keyword
      rw [← hg.leads_iff.mp hleads, hk] at hlead
      cases hlead
  | @cons m token ns used htoken _ =>
      obtain ⟨hm, -⟩ := List.isChain_cons_cons.mp hchain
      obtain ⟨t, ht, ha⟩ := htoken
      rw [hg.leads_iff.mp hm, hg.keyword] at ht
      cases ht
      rw [Solid.accepts, beq_iff_eq] at ha
      exact hname (congrArg some ha)

namespace Registry

variable {argv : List String}

theorem matchFrom_append (argv : List String) (index : Nat) (cs cs' : List Command) (s : Session) :
    let first := matchFrom argv index cs s
    let later := matchFrom argv (index + cs.length) cs' first.2
    matchFrom argv index (cs ++ cs') s = (first.1 ++ later.1, later.2) := by
  induction cs generalizing index s with
  | nil => rfl
  | cons c rest ih =>
      intro first later
      rw [List.cons_append, matchFrom_cons, ih]
      simp only [first, later, matchFrom_cons, List.length_cons, List.append_assoc,
        Nat.add_right_comm index 1, Nat.add_assoc]

/-- **Commands that the line does not name are not asked.** -/
theorem provided_of_foreign {cs : List Command}
    (h : ∀ c ∈ cs, c.Declared ∧ argv.head? ≠ some c.name) (index : Nat) (calls : CallLog) :
    (matchFrom argv index cs (Session.fresh calls)).2.provided = [] := by
  have hasked : (matchFrom argv index cs (Session.fresh calls)).2.asked = [] := by
    refine List.eq_nil_iff_forall_not_mem.mpr fun id hid => ?_
    rcases (mem_asked_matchFrom (fun c hc => (h c hc).1) (.refl _)).mp hid with hid | ⟨c, hc, hasks⟩
    · cases hid
    · exact (h c hc).1.not_asks (h c hc).2 _ id hasks
  exact List.map_eq_nil_iff.mp hasked

/-- **A line that names one command only can be invoked with that command only**, which finds what
it finds alone. -/
theorem ready_eq {r : Registry} {before after : List Command} {c : Command}
    (hr : r.commands = before ++ c :: after) (hc : c.Declared)
    (hothers : ∀ d ∈ before ++ after, d.Declared ∧ argv.head? ≠ some d.name) (calls : CallLog) :
    ∃ s : Session, s.provided = [] ∧
      (r.matchAll argv calls).1.filter (fun m => m.result.isInvokable)
        = ((c.foundIn s argv).filter Match.isInvokable).map fun m => ⟨before.length, c, m⟩ := by
  have hdeclared : ∀ d ∈ r.commands, d.Declared := by
    intro d hd
    rw [hr] at hd
    simp only [List.mem_append, List.mem_cons] at hd hothers
    rcases hd with hd | rfl | hd
    · exact (hothers d (.inl hd)).1
    · exact hc
    · exact (hothers d (.inr hd)).1
  have hbefore : ∀ d ∈ before, d.Declared ∧ argv.head? ≠ some d.name :=
    fun d hd => hothers d (List.mem_append_left after hd)
  have hsplit := matchFrom_append argv 0 before (c :: after) (Session.fresh calls)
  dsimp only at hsplit
  rw [matchFrom_cons, Nat.zero_add] at hsplit
  refine ⟨(matchFrom argv 0 before (Session.fresh calls)).2,
    provided_of_foreign hbefore 0 calls, ?_⟩
  have hmatches : (r.matchAll argv calls).1
      = (matchFrom argv 0 (before ++ c :: after) (Session.fresh calls)).1 := by
    rw [← hr]
    rfl
  -- Other matches cannot be invoked: the line does not begin with the names of their commands.
  have hforeign : ∀ {index : Nat} {cs : List Command} {s : Session}, cs ⊆ before ++ after →
      (matchFrom argv index cs s).1 ⊆ (r.matchAll argv calls).1 →
      (matchFrom argv index cs s).1.filter (fun m => m.result.isInvokable) = [] := by
    intro index cs s hcs hsub
    refine List.filter_eq_nil_iff.mpr fun m hm hinvokable => ?_
    obtain ⟨-, hget⟩ := getElem?_of_mem_matchFrom hm
    have hmem := hcs (List.mem_of_getElem? hget)
    exact (hothers _ hmem).2 (head_of_invokable hdeclared (hsub hm) hinvokable)
  rw [hmatches, hsplit] at hforeign ⊢
  have hfirst := hforeign (List.subset_append_left before after) (List.subset_append_left _ _)
  have hlast := hforeign (List.subset_append_right before after)
    (List.Subset.trans (List.subset_append_right _ _) (List.subset_append_right _ _))
  rw [List.filter_append, List.filter_append, hfirst, hlast, List.nil_append, List.append_nil,
    List.filter_map]
  rfl

end Registry

/-! ## What `help` makes of a line -/

namespace Command.IsHelp

variable {help : Command} {id : SegmentId} {names : List String} {all : List Listing}

/-- The keyword and the topic have nodes. -/
theorem kind?_nodeOf (h : help.IsHelp id names all) {t : Solid}
    (ht : t = .keyword ⟨id + 1, "help", none⟩ ∨ t = .var (helpTopic id names)) :
    help.graph.kind? (help.graph.nodeOf t) = some t.kind := by
  obtain ⟨scope, hgraph⟩ := h.declared.compiled
  have hmem : t ∈ Scheme.solids (helpScheme id names) := by
    show t ∈ [Solid.keyword ⟨id + 1, "help", none⟩, .var (helpTopic id names)]
    simpa using ht
  rw [hgraph, h.scheme]
  exact Graph.solid?_eq_some.mp (Graph.solid?_nodeOf scope (helpScheme_distinct id names) hmem)

/-- The visit of the keyword. -/
def lead (help : Command) (id : SegmentId) : Visit :=
  ⟨help.graph.nodeOf (.keyword ⟨id + 1, "help", none⟩), "help", none, []⟩

/-- The visit of the topic. -/
def visit (help : Command) (id : SegmentId) (names : List String) (topic : String) : Visit :=
  ⟨help.graph.nodeOf (.var (helpTopic id names)), topic, some (.text topic),
    ((helpTopic id names).check topic names.eraseDups).candidates⟩

/-- The topic accepts the names that its provider lists. -/
theorem isFull_topic (topic : String) :
    ((helpTopic id names).check topic names.eraseDups).isFull = true ↔ topic ∈ names := by
  simp [Variable.check, helpTopic, Variable.isEnumerated, startsWith]

theorem answers_topic {s : Session} (hs : s.provided = []) :
    s.answers (helpTopic id names) = names.eraseDups := by
  unfold Session.answers
  rw [Session.candidates_of_ask rfl rfl (by rw [hs]; rfl)]
  rfl

/-- The scheme of `help` has no repetitions. -/
theorem distinct_scheme (h : help.IsHelp id names all) : Scheme.Distinct help.scheme :=
  h.scheme ▸ helpScheme_distinct id names

/-- Behind the keyword, the topic is searched or skipped. -/
theorem parses_eq (h : help.IsHelp id names all) (answers : Variable SegmentId → List String)
    (rest : List String) :
    help.parses answers ("help" :: rest)
      = ((Solid.var (helpTopic id names)).search answers help.graph.nodeOf Search.finish rest
          ++ Search.finish rest).map (.behind [lead help id]) := by
  unfold Command.parses
  rw [h.scheme]
  show (Solid.keyword _).search answers _ _ _ = _
  rw [Solid.search, if_pos (by simp [Solid.accepts])]
  rfl

/-- **Without a topic the keyword alone can be invoked.** -/
theorem ready_bare (h : help.IsHelp id names all) (s : Session) :
    (help.foundIn s ["help"]).filter Match.isInvokable = [.ofWalk [lead help id] true] := by
  have hnone : Match.distinct [] = [] := rfl
  rw [h.declared.foundIn_eq h.distinct_scheme, h.parses_eq]
  simp [Solid.search, Search.finish, Match.behind, Match.ofWalk, Match.distinct_cons, Match.key,
    hnone]

/-- **With a topic that the provider lists, keyword and topic can be invoked.** -/
theorem ready_topic (h : help.IsHelp id names all) {s : Session} (hs : s.provided = [])
    {topic : String} (ht : topic ∈ names) :
    (help.foundIn s ["help", topic]).filter Match.isInvokable
      = [.ofWalk [lead help id, visit help id names topic] true] := by
  have haccepts : (Solid.var (helpTopic id names)).accepts s.answers topic = true := by
    rw [Solid.accepts, answers_topic hs]
    exact (isFull_topic topic).mpr ht
  have hvisit : (Solid.var (helpTopic id names)).acceptedVisit s.answers
      (help.graph.nodeOf (.var (helpTopic id names))) topic = visit help id names topic := by
    rw [Solid.acceptedVisit, answers_topic hs]
    rfl
  have hrepeats : (Solid.var (helpTopic id names)).repeats = false := rfl
  have hone : ∀ m, Match.distinct [m] = [m] := by
    intro m
    rw [Match.distinct_cons]
    rfl
  rw [h.declared.foundIn_eq h.distinct_scheme, h.parses_eq, Solid.search, if_pos haccepts, hrepeats,
    hvisit]
  show (Match.distinct [.ofWalk [lead help id, visit help id names topic] true]).filter _ = _
  rw [hone]
  rfl

/-- **With any other topic nothing can be invoked.** -/
theorem ready_foreign (h : help.IsHelp id names all) {s : Session} (hs : s.provided = [])
    {topic : String} (ht : topic ∉ names) :
    (help.foundIn s ["help", topic]).filter Match.isInvokable = [] := by
  have haccepts : (Solid.var (helpTopic id names)).accepts s.answers topic = false := by
    rw [← Bool.not_eq_true, Solid.accepts, answers_topic hs]
    exact fun hfull => ht ((isFull_topic topic).mp hfull)
  have hnone : ∀ m ∈ help.parses s.answers ["help", topic], m.isInvokable = false := by
    intro m hm
    rw [h.parses_eq, Solid.search, haccepts] at hm
    obtain ⟨m', hm', rfl⟩ := List.mem_map.mp hm
    simp only [Search.finish, List.append_nil, Bool.false_eq_true, if_false] at hm'
    split at hm'
    · rw [List.mem_singleton.mp hm']
      rfl
    · cases hm'
  rw [h.declared.foundIn_eq h.distinct_scheme, List.filter_eq_nil_iff]
  intro m hm
  rw [hnone m ((Match.distinct_spec _).2.1 m hm)]
  exact Bool.false_ne_true

/-! ### What it binds -/

theorem find?_bare (h : help.IsHelp id names all) :
    (Bindings.ofMatch help.scheme help.graph (.ofWalk [lead help id] true)).find? "command"
      = none := by
  have hlead := h.kind?_nodeOf (.inl rfl)
  have hnot : ¬ ∃ x ∈ [lead help id], x.Binds help.graph "command" := by
    rintro ⟨x, hx, v, hk, -⟩
    rw [List.mem_singleton.mp hx] at hk
    cases hlead.symm.trans hk
  rw [Bindings.find?_ofMatch, Match.path_ofWalk, Bindings.find?_ofPath_eq_none hnot, h.scheme]
  rfl

theorem find?_topic (h : help.IsHelp id names all) (topic : String) :
    (Bindings.ofMatch help.scheme help.graph
      (.ofWalk [lead help id, visit help id names topic] true)).find? "command"
        = some (.single (.text topic)) := by
  have hk : help.graph.kind? (visit help id names topic).node = some (.var (helpTopic id names)) :=
    h.kind?_nodeOf (.inr rfl)
  rw [Bindings.find?_ofMatch]
  show ((Bindings.ofPath help.graph
    ([lead help id] ++ [visit help id names topic])).find? "command").or _ = _
  rw [Bindings.ofPath_concat, Bindings.visit_of_var hk]
  show ((NameMap.insert _ "command" (Binding.single (.text topic))).find? "command").or _ = _
  rw [NameMap.find?_insert, if_pos rfl, Option.some_or]

end Command.IsHelp

/-- A match that is the only one to be invokable is what the line means. -/
theorem resolve_of_ready {input : String} {ms : List CommandMatch} {m : CommandMatch}
    (h : ms.filter (fun m => m.result.isInvokable) = [m]) :
    resolve input ms = .ok (.ofMatch m) := by
  have hcontenders : contenders ms = [m] := by
    unfold contenders
    rw [h]
    simp [heaviest]
  refine resolve_eq_ok.mpr ⟨m, [], hcontenders, ?_, rfl⟩
  rw [hcontenders, distinctCommands_cons]
  rfl

theorem resolve_of_not_ready {input : String} {ms : List CommandMatch}
    (h : ms.filter (fun m => m.result.isInvokable) = []) :
    ∃ e, resolve input ms = .error e := by
  rw [List.filter_eq_nil_iff] at h
  rcases resolve_cases input ms with ⟨-, h'⟩ | ⟨-, -, h'⟩ | ⟨-, ⟨m, hm, hinvokable⟩, -⟩
  · exact ⟨_, h'⟩
  · exact ⟨_, h'⟩
  · exact absurd hinvokable (h m hm)

/-! ## The replies of `help` -/

namespace Registry.Helped

variable {s : Shell} {before after : List Command} {help : Command} {id : SegmentId}
  {names : List String} (h : s.registry.Helped before after help id names)

include h

/-- A line that begins with `help` is for `help` only. -/
theorem ready_eq (rest : List String) :
    ∃ session : Session, session.provided = [] ∧
      (s.registry.matchAll ("help" :: rest) s.calls).1.filter (fun m => m.result.isInvokable)
        = ((help.foundIn session ("help" :: rest)).filter Match.isInvokable).map
          fun m => ⟨before.length, help, m⟩ := by
  apply Registry.ready_eq h.commands h.isHelp.declared
  intro c hc
  obtain ⟨hdeclared, hname⟩ := h.others c hc
  exact ⟨hdeclared, fun hhead => hname (Option.some.inj hhead).symm⟩

/-- If one match of `help` can be invoked, the reply is made of what it binds. -/
theorem dispatch_of_ready {line : String} {rest : List String}
    (hwords : Line.words .strict line = .ok ("help" :: rest)) {m : Match}
    (hready : (s.registry.matchAll ("help" :: rest) s.calls).1.filter (fun m => m.result.isInvokable)
      = [⟨before.length, help, m⟩]) :
    ∃ i : Invocation, i.bindings = Bindings.ofMatch help.scheme help.graph m ∧
      (s.dispatch line).1 = .ok (.text (helpText s.registry.listing i)) := by
  rw [Shell.dispatch_ok hwords (List.cons_ne_nil _ _)]
  have hresolve : (s.resolve line ("help" :: rest)).1 = .ok (.ofMatch ⟨before.length, help, m⟩) :=
    resolve_of_ready hready
  rw [hresolve]
  refine ⟨Resolution.invocation (.ofMatch ⟨before.length, help, m⟩) line ("help" :: rest), rfl, ?_⟩
  show (help.action _).mapError _ = _
  rw [h.isHelp.action]
  rfl

/-- **Without a topic help describes all commands.** -/
theorem dispatch_bare {line : String} (hwords : Line.words .strict line = .ok ["help"]) :
    (s.dispatch line).1
      = .ok (.text ("\n".intercalate (s.registry.commands.map Command.described))) := by
  obtain ⟨session, -, hready⟩ := h.ready_eq []
  rw [h.isHelp.ready_bare session] at hready
  obtain ⟨i, hi, hdispatch⟩ := h.dispatch_of_ready hwords hready
  rw [hdispatch, helpText, hi, h.isHelp.find?_bare, ← s.registry.lines_listing.1]

/-- **With the name of a command help describes the commands of that name.** -/
theorem dispatch_topic {line topic : String}
    (hwords : Line.words .strict line = .ok ["help", topic])
    (htopic : ∃ c ∈ s.registry.commands, c.name = topic) :
    (s.dispatch line).1 = .ok (.text ("\n".intercalate
      ((s.registry.commands.filter fun c => c.name == topic).map Command.described))) := by
  obtain ⟨session, hsession, hready⟩ := h.ready_eq [topic]
  rw [h.isHelp.ready_topic hsession ((h.names topic).mpr htopic)] at hready
  obtain ⟨i, hi, hdispatch⟩ := h.dispatch_of_ready hwords hready
  rw [hdispatch, helpText, hi, h.isHelp.find?_topic, ← s.registry.lines_listing.2]
  rfl

/-- **With any other topic help fails.** -/
theorem dispatch_foreign {line topic : String}
    (hwords : Line.words .strict line = .ok ["help", topic])
    (htopic : ∀ c ∈ s.registry.commands, c.name ≠ topic) : ∃ e, (s.dispatch line).1 = .error e := by
  obtain ⟨session, hsession, hready⟩ := h.ready_eq [topic]
  have hnot : topic ∉ names := by
    intro hmem
    obtain ⟨c, hc, hname⟩ := (h.names topic).mp hmem
    exact htopic c hc hname
  rw [h.isHelp.ready_foreign hsession hnot] at hready
  obtain ⟨e, he⟩ : ∃ e, CommandGrammar.resolve line _ = .error e := resolve_of_not_ready hready
  refine ⟨.unresolved e, ?_⟩
  rw [Shell.dispatch_ok hwords (List.cons_ne_nil _ _), Shell.answer_eq_unresolved]
  exact he

end Registry.Helped

/-- **Help knows every command and nothing else.** A registry without a command named `help` makes a
shell, which has its commands, then `help`, then `exit` unless there is one. Whatever happens in
between, `help` replies with a line for each command of the shell in order of registration, its
usage and its comment; with the name of a command it replies with the lines of all commands of that
name, one at least; and with any other topic it fails. Built-in commands are not added a second
time. -/
theorem help_complete {r : Registry} (h : ∀ c ∈ r.commands, c.Declared)
    (hhelp : ∀ c ∈ r.commands, c.name ≠ "help") (supply : Supply) (calls : CallLog) :
    ∃ s, Shell.ofRegistry r supply calls = .ok s ∧
      (∃ help exits, s.registry.commands = r.commands ++ help :: exits ∧ help.name = "help" ∧
        exits.map Command.name = if (r.find? "exit").isNone then ["exit"] else []) ∧
      (∀ s' : Shell, s'.registry = s.registry →
        (s'.dispatch "help").1
          = .ok (.text ("\n".intercalate (s.registry.commands.map Command.described))) ∧
        (∀ c ∈ s.registry.commands,
          let shown := s.registry.commands.filter fun d => d.name == c.name
          shown ≠ [] ∧ (s'.dispatch (Line.join ["help", c.name])).1
            = .ok (.text ("\n".intercalate (shown.map Command.described)))) ∧
        ∀ topic, (∀ c ∈ s.registry.commands, c.name ≠ topic) →
          ∃ e, (s'.dispatch (Line.join ["help", topic])).1 = .error e) ∧
      ∀ supply', s.registry.withBuiltins supply' = .ok (s.registry, supply') := by
  obtain ⟨r', supply₁, help, exits, names, hbuiltins, hhelped, hexits⟩ :=
    Registry.exists_helped (fun c hc => ⟨h c hc, hhelp c hc⟩) supply
  refine ⟨⟨r', .none, calls⟩, ?_, ⟨help, exits, hhelped.commands, hhelped.isHelp.name, hexits⟩,
    ?_, ?_⟩
  · rw [Shell.ofRegistry, hbuiltins]
    rfl
  · rintro s' (hsame : s'.registry = r')
    subst hsame
    refine ⟨hhelped.dispatch_bare (Line.words_join .strict ["help"]), ?_, ?_⟩
    · intro c hc shown
      refine ⟨List.ne_nil_of_mem (List.mem_filter.mpr ⟨hc, beq_self_eq_true c.name⟩), ?_⟩
      exact hhelped.dispatch_topic (Line.words_join .strict _) ⟨c, hc, rfl⟩
    · intro topic htopic
      exact hhelped.dispatch_foreign (Line.words_join .strict _) htopic
  · intro supply'
    have hmem : help ∈ r'.commands := by simp [hhelped.commands]
    apply Registry.withBuiltins_self ⟨help, hmem, hhelped.isHelp.name⟩
    obtain ⟨c, hc, hname⟩ := Registry.exists_exit hexits
    refine ⟨c, ?_, hname⟩
    rw [hhelped.commands]
    exact (List.Sublist.append_left (List.sublist_cons_self help exits) r.commands).subset hc

/-- `'to do'`, `exit` and `'to do' <task>`. -/
def choreCommands : List Command :=
  [silentCommand "to do" [.keyword ⟨0, "to do", none⟩],
    silentCommand "exit" [.keyword ⟨1, "exit", none⟩],
    silentCommand "to do" [.keyword ⟨2, "to do", none⟩,
      .var ⟨3, "task", none, [], none, false, none, none⟩]]

/-- Both commands named `to do` are described, `exit` is not added, and a usage is no topic. -/
theorem help_complete_chores :
    (∀ c ∈ choreCommands, c.Declared) ∧ (∀ c ∈ choreCommands, c.name ≠ "help") ∧
    ∃ s, Shell.ofRegistry ⟨choreCommands⟩ ⟨4, 0⟩ [] = .ok s ∧
      s.registry.commands.map Command.name = ["to do", "exit", "to do", "help"] ∧
      (s.dispatch (Line.join ["help", "to do"])).1 = .ok (.text "to do\nto do <task>") ∧
      ∃ e, (s.dispatch (Line.join ["help", "task"])).1 = .error e := by
  have hdeclared : ∀ c ∈ choreCommands, c.Declared := by
    simp only [choreCommands, List.forall_mem_cons]
    exact ⟨silentCommand_declared (by decide) 0 _, silentCommand_declared (by decide) 1 _,
      silentCommand_declared (by decide) 2 _, List.forall_mem_nil _⟩
  have hhelp : ∀ c ∈ choreCommands, c.name ≠ "help" := by decide
  obtain ⟨s, hs, ⟨help, exits, hcommands, hname, hexits⟩, hreplies, -⟩ :=
    help_complete (r := ⟨choreCommands⟩) hdeclared hhelp ⟨4, 0⟩ []
  obtain ⟨-, htopic, hforeign⟩ := hreplies s rfl
  -- There is an `exit` already, so `help` is the last command.
  obtain rfl : exits = [] := List.map_eq_nil_iff.mp hexits
  refine ⟨hdeclared, hhelp, s, hs, ?_, ?_, ?_⟩
  · rw [hcommands, List.map_append, List.map_cons, hname]
    decide
  · have hfirst : choreCommands.head (by decide) ∈ s.registry.commands := by
      rw [hcommands]
      exact List.mem_append_left _ (List.head_mem _)
    have hshown : s.registry.commands.filter (fun c => c.name == "to do")
        = choreCommands.filter fun c => c.name == "to do" := by
      rw [hcommands, List.filter_append, List.filter_cons_of_neg (by simp [hname]), List.filter_nil,
        List.append_nil]
    have hreply : (s.dispatch (Line.join ["help", "to do"])).1 = .ok (.text ("\n".intercalate
        ((s.registry.commands.filter fun c => c.name == "to do").map Command.described))) :=
      (htopic _ hfirst).2
    rw [hreply, hshown]
    exact congrArg (fun text => Except.ok (Outcome.text text)) (by decide)
  · apply hforeign
    rw [hcommands]
    simp [choreCommands, silentCommand, hname]

end CommandGrammar
