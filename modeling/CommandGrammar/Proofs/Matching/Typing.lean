import CommandGrammar.Proofs.Command.Declared
import CommandGrammar.Proofs.Graph.Trim
import CommandGrammar.Proofs.Matching.Beginnings
import CommandGrammar.Proofs.Shell.Agreement

/-!
# `Proofs.Matching.Typing` — a line whose last token is being typed

If a line matches, it has matched all the time while its last token was typed. A walk that stops at
the whole token may have been one that stopped earlier, and one that accepts the whole token may
have stopped at its beginning; or the beginning is accepted, and the walk goes on to something else.
That it can go on is where unions must offer a branch (`Graph.Lively`).

The two lines are matched in runs of their own, which may ask providers in different order and so
come to different answers, but only after one of them has found something. Until then they stay
abreast (`Walk.Abreast`): they have the same frames but for the last token, and the same session.

## Contents
- `Graph.Lively`, `Graph.Lively.walks`: a walk that takes the last token does not fail.
- `Graph.Guided`, `Graph.Walks.shorten`: walks for the line with its last token cut short.
- `Frame.followedBy`, `Walk.Abreast`, `Walk.Barren`: two runs side by side.
- `Session.matches_longer`, `Registry.matchFrom_longer`: lines without matches.
- `beginnings_match`.
-/

namespace CommandGrammar

/-! ## A way on after every token -/

section

variable {g : Graph} {c : Variable SegmentId → List String} {rank : Nat → Nat}

namespace Graph

/-- A node where a walk can end or take a token. -/
def Stands (g : Graph) (n : Nat) : Prop := n = g.exit ∨ ∃ t, g.solid? n = some t

/-- From a marker on, markers lead to the exit or to a segment, since their rank falls. -/
theorem GoesOn.leads (h : g.GoesOn) (hr : g.Ranked rank) (hc : g.Closed) {i : Nat}
    (hi : i < g.nodes.size) (hne : i ≠ g.exit) : ∃ n, g.Leads i n ∧ g.Stands n := by
  -- On the rank of a successor: a marker is left for one of lower rank.
  have hahead : ∀ r j, rank j < r → j < g.nodes.size →
      g.Stands j ∨ g.IsMarker j ∧ ∃ n, g.Leads j n ∧ g.Stands n := by
    intro r
    induction r with
    | zero => exact fun j hj => absurd hj (Nat.not_lt_zero _)
    | succ r ih =>
        intro j hj hlt
        cases ht : g.solid? j with
        | some t => exact Or.inl (Or.inr ⟨t, ht⟩)
        | none =>
            by_cases hexit : j = g.exit
            · exact Or.inl (Or.inl hexit)
            · have hmarker : g.IsMarker j := by
                rcases Graph.solid?_eq_none.mp ht with hk | hmarker
                · have hsome : g.kind? j = some g.nodes[j].kind := by simp [Graph.kind?, hlt]
                  rw [hk] at hsome
                  exact absurd hsome (by simp)
                · exact hmarker
              obtain ⟨k, hk⟩ := List.exists_mem_of_ne_nil _ (h j hlt hexit)
              have hfalls := hr.falls j hmarker k hk
              right
              refine ⟨hmarker, ?_⟩
              rcases ih k (by omega) (hc j k hk) with hstands | ⟨hm, n, hlead, hstands⟩
              · exact ⟨k, .link hk, hstands⟩
              · exact ⟨n, .through hk hm hlead, hstands⟩
  obtain ⟨j, hj⟩ := List.exists_mem_of_ne_nil _ (h i hi hne)
  rcases hahead (rank j + 1) j (Nat.lt_succ_self _) (hc i j hj) with hstands | ⟨hm, n, hlead, hstands⟩
  · exact ⟨j, .link hj, hstands⟩
  · exact ⟨n, .through hj hm hlead, hstands⟩

/-- A graph in which no walk gets stuck: after a segment there is always something to come. -/
structure Lively (g : Graph) (rank : Nat → Nat) : Prop where
  ranked : g.Ranked rank
  closed : g.Closed
  framed : g.Framed
  goesOn : g.GoesOn

theorem compile_lively (nextScope : Nat) {scheme : Scheme SegmentId}
    (h : Scheme.choosable scheme = true) :
    ∃ rank, (Graph.compile nextScope scheme).1.Lively rank := by
  obtain ⟨rank, hr⟩ := Graph.compile_ranked nextScope scheme
  exact ⟨rank, hr, Graph.compile_closed nextScope scheme, Graph.compile_framed nextScope scheme,
    Graph.compile_goesOn nextScope h⟩

/-- **Having taken the last token, a walk has not failed.** -/
theorem Lively.walks (h : g.Lively rank) {n : Nat} {t : Solid} (ht : g.solid? n = some t) :
    ∃ vs b, g.Walks c n [] vs b := by
  have hlt := Graph.lt_size_of_kind? (Graph.solid?_eq_some.mp ht)
  have hne : n ≠ g.exit := by
    intro he
    obtain ⟨scope, hk⟩ := h.framed.kind?_exit
    have hmarker : g.IsMarker g.exit := ⟨scope, false, hk⟩
    rw [he] at ht
    exact hmarker.solid?_ne_some t ht
  obtain ⟨m, hlead, hexit | ⟨u, hu⟩⟩ := h.goesOn.leads h.ranked h.closed hlt hne
  · rw [hexit] at hlead
    exact ⟨[], true, .whole hlead⟩
  · exact ⟨_, false, .pending hlead hu⟩

/-- A segment that meets the last token ends a walk there or goes on. -/
theorem Lively.walks_of_meets (h : g.Lively rank) {i n : Nat} {t : Solid} {token : String}
    (hlead : g.Leads i n) (ht : g.solid? n = some t) (hmeets : t.Meets c token) :
    ∃ vs b, g.Walks c i [token] vs b := by
  rcases hmeets with ha | hs
  · obtain ⟨vs, b, hw⟩ := h.walks (c := c) ht
    exact ⟨_, b, .accepted hlead ht ha hw⟩
  · exact ⟨_, false, .stopped hlead ht hs⟩

/-- Every variable at a node has candidates where it needs them. -/
def Guided (g : Graph) : Prop := ∀ i v, g.kind? i = some (.var v) → v.Guided

theorem Guided.solid (h : g.Guided) {n : Nat} {t : Solid} (ht : g.solid? n = some t) :
    ∀ v, t = .var v → v.Guided := by
  intro v hv
  apply h n v
  rw [Graph.solid?_eq_some.mp ht, hv]
  rfl

/-- **A walk for a line is left when the last token is cut short.** -/
theorem Walks.shorten (h : g.Lively rank) (hg : g.Guided) {i : Nat} {before : List String}
    {token more : String} {vs : List Visit} {b : Bool}
    (hw : g.Walks c i (before ++ [token ++ more]) vs b) :
    ∃ vs b, g.Walks c i (before ++ [token]) vs b := by
  induction before generalizing i vs with
  | nil =>
      cases hw with
      | stopped hlead ht hs =>
          have hmeets : Solid.Meets c _ (token ++ more) := Or.inr hs
          exact h.walks_of_meets hlead ht (hmeets.beginning (hg.solid ht))
      | accepted hlead ht ha hw =>
          have hmeets : Solid.Meets c _ (token ++ more) := Or.inl ha
          exact h.walks_of_meets hlead ht (hmeets.beginning (hg.solid ht))
  | cons first before ih =>
      rw [List.cons_append] at hw ⊢
      cases hw with
      | stopped hlead ht hs =>
          have hlast : (before ++ [token ++ more]).isEmpty = (before ++ [token]).isEmpty := by
            cases before <;> rfl
          rw [hlast] at hs
          exact ⟨_, false, .stopped hlead ht hs⟩
      | accepted hlead ht ha hw =>
          obtain ⟨vs, b, hw⟩ := ih hw
          exact ⟨_, b, .accepted hlead ht ha hw⟩

/-- A segment that meets the last token leaves something to be found at its node. -/
theorem Lively.ends_of_meets (h : g.Lively rank) {n : Nat} {t : Solid} {token : String}
    (ht : g.solid? n = some t) (hmeets : t.Meets c token) : ∃ vs b, g.Ends c n [token] vs b := by
  rcases hmeets with ha | hs
  · obtain ⟨vs, b, hw⟩ := h.walks (c := c) ht
    obtain ⟨j, hj, hends⟩ := hw.ends h.framed
    exact ⟨_, b, .accepted ht ha hj hends⟩
  · exact ⟨_, false, .stopped ht hs⟩

end Graph

/-! ## Two runs side by side -/

/-- The frame with one more token at the end of its line. -/
def Frame.followedBy (last : String) (f : Frame) : Frame := { f with rest := f.rest ++ [last] }

/-- A frame goes on as it does without the last token, as long as that is not accepted. -/
theorem Frame.outcome_followedBy {f : Frame} {last : String}
    (hlast : f.rest = [] → ∀ t, g.solid? f.node = some t → t.accepts c last = false) :
    ((f.followedBy last).outcome g c).1 = (f.outcome g c).1.map (followedBy last) := by
  have hstays : ∀ {t : Solid} {token : String} {rest : List String}, g.solid? f.node = some t →
      (f.followedBy last).rest = token :: rest → t.accepts c token = false →
      ((f.followedBy last).outcome g c).1 = [] := by
    intro t token rest ht hr ha
    cases hs : t.stops c token rest.isEmpty with
    | true => rw [outcome_stopped (f := f.followedBy last) ht hr hs]
    | false => rw [outcome_refused (f := f.followedBy last) ht hr ha hs]
  have hcons : ∀ {token : String} {rest : List String}, f.rest = token :: rest →
      (f.followedBy last).rest = token :: (rest ++ [last]) := by
    intro token rest hr
    show f.rest ++ [last] = _
    rw [hr, List.cons_append]
  have hne : (f.followedBy last).rest ≠ [] := by simp [followedBy]
  have hcomes := f.outcome_comes (g := g) (c := c)
  generalize (f.outcome g c).1 = frames at *
  generalize (f.outcome g c).2 = found at *
  cases hcomes with
  | absent hk => rw [outcome_absent (f := f.followedBy last) hk, List.map_nil]
  | whole scope hk he hr =>
      rw [outcome_surplus (f := f.followedBy last) hk he hne, List.map_nil]
  | surplus scope hk he hr =>
      rw [outcome_surplus (f := f.followedBy last) hk he hne, List.map_nil]
  | through scope isEntry hk he =>
      rw [outcome_through (f := f.followedBy last) hk he]
      simp [Walk.advance, followedBy]
  | pending t ht hr =>
      have hrest : (f.followedBy last).rest = [last] := by
        show f.rest ++ [last] = _
        rw [hr, List.nil_append]
      exact hstays ht hrest (hlast hr t ht)
  | accepted t token rest ht hr ha =>
      rw [outcome_accepted (f := f.followedBy last) ht (hcons hr) ha]
      simp [Walk.advance, followedBy]
  | stopped t token rest ht hr hs =>
      exact hstays ht (hcons hr) (Solid.accepts_eq_false_of_stops c hs)
  | refused t token rest ht hr ha hs => exact hstays ht (hcons hr) ha

namespace Walk

/-- Worklists of two lines that differ in their last token only: the sessions and the frames are the
same but for that token. -/
structure Abreast (last last' : String) (w w' : Walk) : Prop where
  session : w.session = w'.session
  stack : ∃ fs : List Frame, w.stack = fs.map (Frame.followedBy last) ∧
    w'.stack = fs.map (Frame.followedBy last')

/-- Nothing will be found on the stack. -/
def Barren (g : Graph) (c : Variable SegmentId → List String) (w : Walk) : Prop :=
  ∀ f ∈ w.stack, ∀ vs b, ¬ g.Ends c f.node f.rest vs b

/-- Which provider a step asks depends on the node only. -/
theorem session_step {w w' : Walk} {f f' : Frame} {stack stack' : List Frame}
    (hw : w.stack = f :: stack) (hw' : w'.stack = f' :: stack') (hnode : f.node = f'.node)
    (hsession : w.session = w'.session) : (w.step g).session = (w'.step g).session := by
  cases hk : g.kind? f'.node with
  | none => simp [step, hw, hw', hnode, hk, hsession]
  | some kind => cases kind <;> simp [step, hw, hw', hnode, hk, hsession]

/-- A step of a barren worklist leaves it barren. -/
theorem Barren.step (hu : g.UniqueIds) {w : Walk} (ha : w.session.Answers g c)
    (h : Barren g c w) : (w.step g).session.Answers g c ∧ Barren g c (w.step g) := by
  cases hw : w.stack with
  | nil =>
      have hstep : w.step g = w := by simp [Walk.step, hw]
      rw [hstep]
      exact ⟨ha, h⟩
  | cons f stack =>
      obtain ⟨session, ha', hstep⟩ := step_eq hu hw ha
      rw [hstep]
      refine ⟨ha', ?_⟩
      intro e he vs b hends
      rcases List.mem_append.mp he with hnew | hold
      · -- What is found from a frame that comes of `f` is found from `f`.
        have hf := h f (by simp [hw])
        cases Frame.next_of_mem hnew with
        | through hk hinner hj => exact hf vs b (.through hk hinner hj hends)
        | accepted ht hr haccepts hj =>
            rw [hr] at hf
            exact hf _ b (.accepted ht haccepts hj hends)
      · exact h e (by simp [hw, hold]) vs b hends

/-- **A step keeps barren worklists abreast**: no segment accepts the last token in either. -/
theorem Abreast.step (hl : g.Lively rank) (hu : g.UniqueIds) (hg : g.Guided)
    {token more : String} {w w' : Walk} (h : Abreast (token ++ more) token w w')
    (ha : w'.session.Answers g c) (hb : Barren g c w') :
    Abreast (token ++ more) token (w.step g) (w'.step g) := by
  obtain ⟨fs, hw, hw'⟩ := h.stack
  cases fs with
  | nil =>
      have hstep : w.step g = w := by simp [Walk.step, hw]
      have hstep' : w'.step g = w' := by simp [Walk.step, hw']
      rw [hstep, hstep']
      exact h
  | cons f fs =>
      rw [List.map_cons] at hw hw'
      obtain ⟨s, -, hstep⟩ := step_eq hu hw (h.session ▸ ha)
      obtain ⟨s', -, hstep'⟩ := step_eq hu hw' ha
      have hsession := session_step (g := g) hw hw' rfl h.session
      have hf := hb (f.followedBy token) (by simp [hw'])
      have hrefused : f.rest = [] → ∀ t, g.solid? f.node = some t → ¬ t.Meets c token := by
        intro hr t ht hmeets
        obtain ⟨vs, b, hends⟩ := hl.ends_of_meets ht hmeets
        have hrest : (f.followedBy token).rest = [token] := by
          show f.rest ++ [token] = _
          rw [hr, List.nil_append]
        rw [hrest] at hf
        exact hf vs b hends
      have hlong : f.rest = [] → ∀ t, g.solid? f.node = some t →
          t.accepts c (token ++ more) = false := by
        intro hr t ht
        rw [← Bool.not_eq_true]
        intro haccepts
        have hmeets : t.Meets c (token ++ more) := Or.inl haccepts
        exact hrefused hr t ht (hmeets.beginning (hg.solid ht))
      have hshort : f.rest = [] → ∀ t, g.solid? f.node = some t → t.accepts c token = false := by
        intro hr t ht
        rw [← Bool.not_eq_true]
        intro haccepts
        exact hrefused hr t ht (Or.inl haccepts)
      refine ⟨hsession, (f.outcome g c).1 ++ fs, ?_, ?_⟩
      · rw [hstep, Frame.outcome_followedBy hlong, List.map_append]
      · rw [hstep', Frame.outcome_followedBy hshort, List.map_append]

/-- **Barren runs stay abreast**, so they ask the same providers. -/
theorem Abreast.run (hl : g.Lively rank) (hu : g.UniqueIds) (hg : g.Guided)
    {token more : String} {w w' : Walk} (h : Abreast (token ++ more) token w w')
    (ha : w'.session.Answers g c) (hb : Barren g c w') (fuel : Nat) :
    (w.run g fuel).session = (w'.run g fuel).session := by
  induction fuel generalizing w w' with
  | zero => exact h.session
  | succ fuel ih =>
      have hempty : w.stack.isEmpty = w'.stack.isEmpty := by
        obtain ⟨fs, hw, hw'⟩ := h.stack
        rw [hw, hw', List.isEmpty_map, List.isEmpty_map]
      unfold Walk.run
      rw [hempty]
      cases w'.stack.isEmpty with
      | true => exact h.session
      | false =>
          obtain ⟨ha', hb'⟩ := hb.step hu ha
          exact ih (h.step hl hu hg ha hb) ha' hb'

end Walk

/-- **A line without matches has none when its last token is typed further**, and the session ends
in the same way. -/
theorem Session.matches_longer (hl : g.Lively rank) (hu : g.UniqueIds) (hg : g.Guided) (s : Session)
    {before : List String} {token : String} (hnone : (s.matches g (before ++ [token])).1 = [])
    (more : String) :
    (s.matches g (before ++ [token ++ more])).1 = [] ∧
      (s.matches g (before ++ [token ++ more])).2 = (s.matches g (before ++ [token])).2 := by
  have hwalks : ∀ vs b, ¬ g.Walks s.answers g.entry (before ++ [token]) vs b := by
    intro vs b hw
    obtain ⟨m, hm, -, -⟩ := s.exists_mem_matches hl.ranked hu hl.framed hw
    rw [hnone] at hm
    exact absurd hm (by simp)
  constructor
  · rw [List.eq_nil_iff_forall_not_mem]
    intro m hm
    have hw := s.walks_of_mem_matches hl.ranked hu hl.framed hm
    obtain ⟨vs, b, hw'⟩ := hw.shorten hl hg
    exact hwalks vs b hw'
  · have hstart : Walk.Abreast (token ++ more) token
        (Walk.start s g (before ++ [token ++ more])) (Walk.start s g (before ++ [token])) :=
      ⟨rfl, [⟨g.entry, [], before⟩], rfl, rfl⟩
    have hbarren : Walk.Barren g s.answers (Walk.start s g (before ++ [token])) := by
      intro f hf vs b hends
      rw [List.mem_singleton.mp hf] at hends
      obtain ⟨j, hj, hends'⟩ := hends.successor hl.framed.isMarker_entry hl.framed.entry_ne_exit
      exact hwalks vs b (hends'.walks hj)
    have hfuel : Walk.fuel g (before ++ [token ++ more]) = Walk.fuel g (before ++ [token]) := by
      simp [Walk.fuel]
    unfold Session.matches
    rw [hfuel]
    exact hstart.run hl hu hg (s.answers_self g) hbarren _

end

/-! ## Commands and registries -/

namespace Command.Declared

variable {c : Command}

theorem lively (h : c.Declared) (hchoosable : Scheme.choosable c.scheme = true) :
    ∃ rank, c.graph.Lively rank := by
  obtain ⟨scope, hgraph⟩ := h.compiled
  rw [hgraph]
  exact Graph.compile_lively scope hchoosable

theorem guided (h : c.Declared) (hguided : ∀ v ∈ Scheme.variables c.scheme, v.Guided) :
    c.graph.Guided := by
  obtain ⟨scope, hgraph⟩ := h.compiled
  intro i v hv
  rw [hgraph] at hv
  exact hguided v (Graph.mem_variables_of_compile hv)

end Command.Declared

/-- Commands without matches have none when the last token is typed further. -/
theorem Registry.matchFrom_longer {cs : List Command}
    (h : ∀ c ∈ cs, c.Declared ∧ Scheme.choosable c.scheme = true ∧
      ∀ v ∈ Scheme.variables c.scheme, v.Guided)
    {before : List String} {token more : String} {index : Nat} {s : Session}
    (hnone : (matchFrom (before ++ [token]) index cs s).1 = []) :
    (matchFrom (before ++ [token ++ more]) index cs s).1 = [] := by
  induction cs generalizing index s with
  | nil => rfl
  | cons c rest ih =>
      rw [matchFrom_cons] at hnone ⊢
      obtain ⟨hfirst, hlater⟩ := List.append_eq_nil_iff.mp hnone
      obtain ⟨hdeclared, hchoosable, hguided⟩ := h c (by simp)
      obtain ⟨rank, hl⟩ := hdeclared.lively hchoosable
      obtain ⟨hmatches, hsession⟩ := s.matches_longer hl hdeclared.uniqueIds
        (hdeclared.guided hguided) (List.map_eq_nil_iff.mp hfirst) more
      -- The other commands find the session as it is without the rest of the token.
      rw [hmatches, hsession]
      exact ih (fun d hd => h d (List.mem_cons_of_mem c hd)) hlater

/-- A report on a line with words is without hints if nothing matches. -/
theorem Shell.hints_eq_nil_iff {s : Shell} {buffer : String} {argv : List String}
    (hwords : Line.words .tolerant buffer = .ok argv) (hargv : argv ≠ []) :
    (s.hints buffer).1.hints = [] ↔ (s.registry.matchAll argv s.calls).1 = [] := by
  rw [hints_ok hwords]
  apply Hint.collect_eq_nil
  intro m hm
  exact Registry.solid_last hargv hm

/-- **Typing forward never revives a dead line.** In a registry in which every union has a branch
and every variable for a number, a boolean or a date is enumerated, a line that matches has matches
as well when its last token is cut short, both matched after the same questions to providers. If no
provider changes its answer it does not matter when the two lines are matched; so while a token is
typed that will match in the end, no report of the shell is without a hint. -/
theorem beginnings_match {r : Registry}
    (h : ∀ c ∈ r.commands, c.Declared ∧ Scheme.choosable c.scheme = true ∧
      ∀ v ∈ Scheme.variables c.scheme, v.Guided)
    (before : List String) (token more : String) :
    (∀ calls, (r.matchAll (before ++ [token ++ more]) calls).1 ≠ [] →
      (r.matchAll (before ++ [token]) calls).1 ≠ []) ∧
    (Fixed r.commands →
      (∀ calls calls', (r.matchAll (before ++ [token ++ more]) calls).1 ≠ [] →
        (r.matchAll (before ++ [token]) calls').1 ≠ []) ∧
      ∀ (s s' : Shell) (buffer buffer' : String), s.registry = r → s'.registry = r →
        Line.words .tolerant buffer = .ok (before ++ [token ++ more]) →
        Line.words .tolerant buffer' = .ok (before ++ [token]) →
        (s.hints buffer).1.hints ≠ [] → (s'.hints buffer').1.hints ≠ []) := by
  have hsame : ∀ calls, (r.matchAll (before ++ [token ++ more]) calls).1 ≠ [] →
      (r.matchAll (before ++ [token]) calls).1 ≠ [] := by
    intro calls hne hnone
    exact hne (Registry.matchFrom_longer h hnone)
  refine ⟨hsame, ?_⟩
  intro hfixed
  have hany : ∀ calls calls', (r.matchAll (before ++ [token ++ more]) calls).1 ≠ [] →
      (r.matchAll (before ++ [token]) calls').1 ≠ [] := by
    intro calls calls' hne
    have hfresh : (Session.fresh calls').provided = (Session.fresh calls).provided := rfl
    have heq : (r.matchAll (before ++ [token]) calls').1 = (r.matchAll (before ++ [token]) calls).1 :=
      (Registry.matchFrom_alike (fun c hc => hfixed.alike hc) _ 0 hfresh).1
    rw [heq]
    exact hsame calls hne
  refine ⟨hany, ?_⟩
  rintro s s' buffer buffer' rfl hregistry hwords hwords' hhints
  rw [Ne, Shell.hints_eq_nil_iff hwords (by simp)] at hhints
  rw [Ne, Shell.hints_eq_nil_iff hwords' (by simp), hregistry]
  exact hany s.calls s'.calls hhints

/-- `switch <on: true | false> [<note>]`, where the choice is a boolean. -/
def switchCommand : Command :=
  silentCommand "switch" [.keyword ⟨0, "switch", none⟩,
    .var ⟨1, "on", some .boolean, ["true", "false"], none, false, none, none⟩,
    .optional [.var ⟨2, "note", none, [], none, false, none, none⟩]]

/-- `switch t` has hints, since `switch true` has. -/
theorem beginnings_match_switch :
    let r : Registry := ⟨[switchCommand]⟩
    (∀ c ∈ r.commands, c.Declared ∧ Scheme.choosable c.scheme = true ∧
      ∀ v ∈ Scheme.variables c.scheme, v.Guided) ∧ Fixed r.commands ∧
    (r.matchAll (["switch"] ++ ["t" ++ "rue"]) []).1 ≠ [] ∧
    (r.matchAll (["switch"] ++ ["t"]) []).1 ≠ [] ∧
    ((⟨r, .none, []⟩ : Shell).hints "switch true").1.hints ≠ [] ∧
    ((⟨r, .none, [1]⟩ : Shell).hints "switch t").1.hints ≠ [] := by
  intro r
  have hr : ∀ c ∈ r.commands, c.Declared ∧ Scheme.choosable c.scheme = true ∧
      ∀ v ∈ Scheme.variables c.scheme, v.Guided := by
    intro c hc
    rw [List.mem_singleton.mp hc]
    exact ⟨silentCommand_declared (by decide) 0 _, by decide, by decide⟩
  have hfixed : Fixed r.commands := by
    have hproviders : r.commands.flatMap Command.providers = [] := by cbv
    rw [Fixed, hproviders]
    simp
  have hlong : (r.matchAll (["switch"] ++ ["t" ++ "rue"]) []).1 ≠ [] := by
    have hfound : ((r.matchAll (["switch"] ++ ["t" ++ "rue"]) []).1.map CommandMatch.index) ≠ [] := by
      simp only [Registry.matchAll, Registry.matchFrom, Session.matches,
        Match.distinct_eq_eraseDupsBy, r, switchCommand]
      decide +kernel
    exact fun hnil => hfound (by rw [hnil]; rfl)
  have hwords : Line.words .tolerant "switch true" = .ok (["switch"] ++ ["t" ++ "rue"]) := by cbv
  have hwords' : Line.words .tolerant "switch t" = .ok (["switch"] ++ ["t"]) := by cbv
  have hhints : ((⟨r, .none, []⟩ : Shell).hints "switch true").1.hints ≠ [] := by
    rw [Ne, Shell.hints_eq_nil_iff hwords (by simp)]
    exact hlong
  obtain ⟨hsame, hany⟩ := beginnings_match hr ["switch"] "t" "rue"
  exact ⟨hr, hfixed, hlong, hsame [] hlong, hhints,
    (hany hfixed).2 _ _ _ _ rfl rfl hwords hwords' hhints⟩

end CommandGrammar
