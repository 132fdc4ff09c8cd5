import CommandGrammar.Proofs.Command.Declared
import CommandGrammar.Proofs.Matching.Asking
import CommandGrammar.Proofs.Matching.Beginnings
import CommandGrammar.Proofs.Resolution.Bindings
import CommandGrammar.Proofs.Value.Denotation

/-!
# `Proofs.Resolution.Values` — matched values have the declared type

Two decisions have to fit together. Whether a variable accepts a token depends on its type, its
candidates and, for a flag, its name (`Variable.check`); what the value of the token is depends on
the type only (`Variable.coerce`), and a token that cannot be read keeps its text. Along a match the
first decision has always been made before the second, so every value is one that the token denotes,
and the texts in reserve are never used: neither the one of a token that cannot be read, nor the one
that is bound for a visit without a value.

Only the node that a partial match waits at has taken no token. All other visits are what a match
has accepted (`Match.accepted`); a match that can be invoked has accepted its whole path.

## Contents
- `Match.accepted`: the visits that took a token.
- `Variable.Took`: what a variable may take; `Graph.Walks.took`, `Session.took`: nothing else is
  taken.
- `Registry.took_of_resolve`, `Registry.denotes_of_resolve`: the line of a resolved command.
- `matched_values_denote`.
-/

namespace CommandGrammar

/-- The visits of a match that took a token: all of them, but for the one that a partial match ends
with. -/
def Match.accepted (m : Match) : List Visit :=
  if m.isInvokable then m.path else m.path.dropLast

/-- The visit has a value, which its token denotes under the declared type of the variable. A
variable with candidates took one of them, unless it is a flag, whose name it takes in any case. -/
structure Variable.Took (v : Variable SegmentId) (candidates : List String) (x : Visit) : Prop where
  value : ∃ value, x.value = some value ∧ v.Denotes x.raw value
  candidate : v.isEnumerated = true → v.type ≠ some .flag → x.raw ∈ candidates

/-! ## Matches -/

section

variable {g : Graph} {c : Variable SegmentId → List String}

/-- A variable that accepts a token takes it with a value. -/
theorem Variable.took_of_accepts {v : Variable SegmentId} {token : String} (node : Nat)
    (ha : (Solid.var v).accepts c token = true) :
    v.Took (c v) ((Solid.var v).acceptedVisit c node token) := by
  obtain ⟨haccepts, hcandidate⟩ := (v.isFull_check_iff token (c v)).mp ha
  refine ⟨⟨v.coerce token, rfl, Variable.denotes_coerce haccepts⟩, ?_⟩
  intro henumerated hflag
  exact (hcandidate henumerated).resolve_left hflag

/-- What is accepted behind a visit is accepted with it in front. -/
theorem Match.mem_accepted_cons {x y : Visit} {vs : List Visit} {b : Bool}
    (h : x ∈ (ofWalk (y :: vs) b).accepted) : x = y ∨ x ∈ (ofWalk vs b).accepted := by
  cases b with
  | true => exact List.mem_cons.mp h
  | false =>
      cases vs with
      | nil => exact absurd h (by simp [accepted])
      | cons z vs => exact List.mem_cons.mp h

/-- **On a walk variables take what they may take**, up to the node where the walk waits. -/
theorem Graph.Walks.took {i : Nat} {rest : List String} {vs : List Visit} {b : Bool}
    (hw : g.Walks c i rest vs b) : ∀ x ∈ (Match.ofWalk vs b).accepted, ∀ v,
      g.kind? x.node = some (.var v) → v.Took (c v) x := by
  induction hw with
  | whole h => exact fun x hx => absurd hx (by simp [Match.accepted])
  | pending h ht => exact fun x hx => absurd hx (by simp [Match.accepted])
  | stopped h ht hs => exact fun x hx => absurd hx (by simp [Match.accepted])
  | @accepted i n t token rest vs b h ht ha hw ih =>
      intro x hx v hv
      rcases Match.mem_accepted_cons hx with rfl | hx
      · rw [Solid.acceptedVisit_node] at hv
        rw [Graph.eq_var_of_solid? ht hv] at ha ⊢
        exact Variable.took_of_accepts n ha
      · exact ih x hx v hv

/-- **In a match variables take what they may take**, whatever the providers answer. -/
theorem Session.took {rank : Nat → Nat} (hr : g.Ranked rank) (hu : g.UniqueIds) (hg : g.Framed)
    (s : Session) {argv : List String} {m : Match} (hm : m ∈ (s.matches g argv).1) :
    ∀ x ∈ m.accepted, ∀ v, g.kind? x.node = some (.var v) → v.Took (s.answers v) x :=
  (s.walks_of_mem_matches hr hu hg hm).took

end

/-! ## Resolved commands -/

namespace Registry

variable {r : Registry} {input : String} {argv : List String} {calls : CallLog} {res : Resolution}

/-- The path of a resolved command is that of a match that can be invoked. -/
theorem exists_match_of_resolve (h : (r.resolve input argv calls).1 = .ok res) :
    res.command ∈ r.commands ∧
      ∃ m ∈ res.command.foundIn (r.session argv calls) argv, m.isInvokable = true ∧
        m.path = res.path := by
  obtain ⟨m, others, hbest, -, rfl⟩ := resolve_eq_ok.mp h
  obtain ⟨hm, hinvokable, -⟩ := mem_contenders.mp (hbest ▸ List.mem_cons_self)
  obtain ⟨hcommand, hfound⟩ := mem_matchAll.mp hm
  exact ⟨List.mem_of_getElem? hcommand, m.result, hfound, hinvokable, rfl⟩

/-- **Every variable on the path of a resolved command took a token that it may take.** -/
theorem took_of_resolve (hdeclared : ∀ c ∈ r.commands, c.Declared)
    (h : (r.resolve input argv calls).1 = .ok res) : ∀ x ∈ res.path, ∀ v,
      res.command.graph.kind? x.node = some (.var v) →
        v.Took ((r.session argv calls).answers v) x := by
  obtain ⟨hc, m, hm, hinvokable, hpath⟩ := exists_match_of_resolve h
  obtain ⟨rank, hr⟩ := (hdeclared _ hc).ranked
  have haccepted : m.accepted = res.path := by
    rw [Match.accepted, if_pos hinvokable, hpath]
  rw [← haccepted]
  exact Session.took hr (hdeclared _ hc).uniqueIds (hdeclared _ hc).framed _ hm

/-- **What is bound for a name on the path was read by the declared type.** -/
theorem denotes_of_resolve (hdeclared : ∀ c ∈ r.commands, c.Declared)
    (h : (r.resolve input argv calls).1 = .ok res) {name : String} {bound : Binding}
    (hbound : res.bindings.find? name = some bound)
    (hvisited : ∃ x ∈ res.path, x.Binds res.command.graph name) :
    ∀ value ∈ bound.values, ∃ x ∈ res.path, ∃ v,
      res.command.graph.kind? x.node = some (.var v) ∧ v.name = name ∧ v.Denotes x.raw value := by
  intro value hvalue
  -- A name on the path is not bound by a default.
  have hpath : (Bindings.ofPath res.command.graph res.path).find? name = some bound := by
    obtain ⟨bound', hbound', -⟩ := Bindings.find?_ofPath_of_binds hvisited
    rw [(resolve_ok h).2 name, hbound', Option.some_or] at hbound
    rw [hbound', hbound]
  obtain ⟨x, hx, ⟨v, hv, hname⟩, rfl⟩ := Bindings.mem_values_ofPath hpath hvalue
  obtain ⟨read, hread, hdenotes⟩ := (took_of_resolve hdeclared h x hx v hv).value
  refine ⟨x, hx, v, hv, hname, ?_⟩
  rw [Visit.taken, hread, Option.getD_some]
  exact hdenotes

end Registry

/-- **Matched values have the declared type.** In a match of a line in a compiled graph every
variable that the match has passed has a value, which its token denotes under the declared type: a
number or a date that the token can be read as, a boolean that it spells, true for a flag that it
names, and else the token itself. A variable with candidates took one of those that the session
gives, unless it is a flag. This holds whatever providers answer, and only the last node of a
partial match is left out. So a command that is resolved has a value for every variable on its path,
and what is bound for such a variable is a value that a token denotes; no text stands in for a value
that could not be read. -/
theorem matched_values_denote :
    (∀ (nextScope : Nat) (scheme : Scheme SegmentId) (s : Session) (argv : List String),
      let g := (Graph.compile nextScope scheme).1
      ∀ m ∈ (s.matches g argv).1, ∀ x ∈ m.accepted, ∀ v, g.kind? x.node = some (.var v) →
        v.Took (s.answers v) x) ∧
    ∀ r : Registry, (∀ c ∈ r.commands, c.Declared) → ∀ input argv calls res,
      (r.resolve input argv calls).1 = .ok res →
      (∀ x ∈ res.path, ∀ v, res.command.graph.kind? x.node = some (.var v) →
        v.Took ((r.session argv calls).answers v) x) ∧
      ∀ name bound, res.bindings.find? name = some bound →
        (∃ x ∈ res.path, x.Binds res.command.graph name) → ∀ value ∈ bound.values,
          ∃ x ∈ res.path, ∃ v, res.command.graph.kind? x.node = some (.var v) ∧ v.name = name ∧
            v.Denotes x.raw value := by
  constructor
  · intro nextScope scheme s argv g m hm
    obtain ⟨rank, hr⟩ := Graph.compile_ranked nextScope scheme
    exact s.took hr (Graph.compile_uniqueIds nextScope scheme)
      (Graph.compile_framed nextScope scheme) hm
  · intro r hdeclared input argv calls res h
    refine ⟨Registry.took_of_resolve hdeclared h, ?_⟩
    intro name bound hbound hvisited
    exact Registry.denotes_of_resolve hdeclared h hbound hvisited

/-- `volume <level: number> <mode: ramp | jump>`. -/
def volumeCommand : Command :=
  silentCommand "volume" [.keyword ⟨0, "volume", none⟩,
    .var ⟨1, "level", some .number, [], none, false, none, none⟩,
    .var ⟨2, "mode", none, ["ramp", "jump"], none, false, none, none⟩]

/-- In `volume 0x1F jump` the level is bound to the number that its token denotes. -/
theorem matched_values_denote_volume :
    let r : Registry := ⟨[volumeCommand]⟩
    (∀ c ∈ r.commands, c.Declared) ∧
    ∃ res, (r.resolve "volume 0x1F jump" ["volume", "0x1F", "jump"] []).1 = .ok res ∧
      ∃ x ∈ res.path, x.raw = "0x1F" ∧
        ∃ y, Value.readNumber "0x1F" = some y ∧ x.value = some (.number y) := by
  intro r
  have hdeclared : ∀ c ∈ r.commands, c.Declared := by
    intro c hc
    rw [List.mem_singleton.mp hc]
    exact silentCommand_declared (by decide) 0 _
  have hpath : (r.resolve "volume 0x1F jump" ["volume", "0x1F", "jump"] []).1.toOption.map
      (fun res => res.path.map fun x => (x.node, x.raw))
      = some [(2, "volume"), (3, "0x1F"), (4, "jump")] := by
    simp only [Registry.resolve, Registry.matchAll, Registry.matchFrom, Session.matches,
      Match.distinct_eq_eraseDupsBy, r, volumeCommand]
    decide +kernel
  obtain ⟨res, hres, hvisits⟩ := Option.map_eq_some_iff.mp hpath
  have hok : (r.resolve "volume 0x1F jump" ["volume", "0x1F", "jump"] []).1 = .ok res := by
    generalize (r.resolve "volume 0x1F jump" ["volume", "0x1F", "jump"] []).1 = answer at hres
    cases answer with
    | error e => cases hres
    | ok res' => cases hres; rfl
  have hcommand : res.command = volumeCommand :=
    List.mem_singleton.mp (Registry.exists_match_of_resolve hok).1
  have hlevel : ((3, "0x1F") : Nat × String) ∈ res.path.map fun x => (x.node, x.raw) := by
    simp [hvisits]
  obtain ⟨x, hx, hvisit⟩ := List.mem_map.mp hlevel
  obtain ⟨hnode, hraw⟩ := Prod.ext_iff.mp hvisit
  simp only at hnode hraw
  have hkind : res.command.graph.kind? x.node
      = some (.var ⟨1, "level", some .number, [], none, false, none, none⟩) := by
    rw [hcommand, hnode]
    cbv
  obtain ⟨value, hvalue, hdenotes⟩ :=
    ((matched_values_denote.2 r hdeclared _ _ _ _ hok).1 x hx _ hkind).value
  refine ⟨hdeclared, res, hok, x, hx, hraw, ?_⟩
  rw [hraw] at hdenotes
  cases hdenotes with
  | number htype hread => exact ⟨_, hread, hvalue⟩
  | boolean b htype hread => cases htype
  | date htype hread => cases htype
  | flag htype hread => cases htype
  | text htype => simp at htype

end CommandGrammar
