import CommandGrammar.Matching.Walk
import CommandGrammar.Proofs.Graph.Arena

/-!
# `Proofs.Matching.Outcome` — what comes of one frame

A session fixes the candidates of every variable: a provider is asked once and its answer kept
(`Session.answers`, `Session.Answers`). With the candidates fixed, what comes of a frame is a
function of the frame (`Frame.outcome`), and one step of the worklist is the outcome of the frame on
top of the stack (`Walk.step_eq`).

`Frame.Comes` lists all that can come of a frame. Later modules go through its cases and do not
unfold a step again.

## Contents
- `Session.answers`, `Session.Answers`.
- `Solid.accepts`, `Solid.stops`, and the visits that they leave.
- `Frame.outcome`, `Frame.Comes`, `Frame.outcome_comes`.
- `Frame.Next`, `Frame.Last`: the frames and the matches among it.
- `Match.Definite`, `Walk.Definite.run`: whatever is found is either partial or invokable.
- `Walk.step_eq`.
-/

namespace CommandGrammar

/-! ## Candidates of a session -/

namespace Session

/-- The candidates that the session gives for a variable, whether it knows them or asks. -/
def answers (s : Session) (v : Variable SegmentId) : List String :=
  (s.candidates v).1

theorem candidates_of_choices {s : Session} {v : Variable SegmentId}
    (h : v.choices.isEmpty = false) : s.candidates v = (v.choices, s) := by
  unfold candidates
  rw [if_pos (by rw [h]; rfl)]

theorem candidates_of_no_provider {s : Session} {v : Variable SegmentId}
    (h : v.choices.isEmpty = true) (hp : v.provider = none) : s.candidates v = ([], s) := by
  unfold candidates
  rw [if_neg (by rw [h]; simp), hp]

theorem candidates_of_provided {s : Session} {v : Variable SegmentId} {provider : Provider}
    {answer : List String} (h : v.choices.isEmpty = true) (hp : v.provider = some provider)
    (hl : s.provided.lookup v.id = some answer) : s.candidates v = (answer, s) := by
  unfold candidates
  rw [if_neg (by rw [h]; simp), hp]
  simp only [hl]

theorem candidates_of_ask {s : Session} {v : Variable SegmentId} {provider : Provider}
    (h : v.choices.isEmpty = true) (hp : v.provider = some provider)
    (hl : s.provided.lookup v.id = none) : s.candidates v = s.ask v.id provider := by
  unfold candidates
  rw [if_neg (by rw [h]; simp), hp]
  simp only [hl]

/-- Having given candidates, the session is as before, or it keeps one more answer for an identity
of which it had none. -/
theorem candidates_cases (s : Session) (v : Variable SegmentId) :
    (s.candidates v).2 = s ∨
    ∃ provider, v.choices.isEmpty = true ∧ v.provider = some provider ∧
      s.provided.lookup v.id = none ∧ s.candidates v = s.ask v.id provider := by
  cases h : v.choices.isEmpty with
  | false =>
      left
      rw [candidates_of_choices h]
  | true =>
      cases hp : v.provider with
      | none =>
          left
          rw [candidates_of_no_provider h hp]
      | some provider =>
          cases hl : s.provided.lookup v.id with
          | none => exact Or.inr ⟨provider, rfl, rfl, rfl, candidates_of_ask h hp hl⟩
          | some answer =>
              left
              rw [candidates_of_provided h hp hl]

/-- A session that has given candidates gives the same ones again. -/
theorem answers_candidates_self (s : Session) (v : Variable SegmentId) :
    (s.candidates v).2.answers v = s.answers v := by
  rcases s.candidates_cases v with h | ⟨provider, hc, hp, -, h⟩
  · rw [h]
  · unfold answers
    rw [h]
    have hl : (s.ask v.id provider).2.provided.lookup v.id = some (s.ask v.id provider).1 := by
      simp [ask]
    rw [candidates_of_provided hc hp hl]

/-- Giving candidates for one variable does not change those of another. -/
theorem answers_candidates_of_ne (s : Session) {u v : Variable SegmentId} (hne : u.id ≠ v.id) :
    (s.candidates v).2.answers u = s.answers u := by
  rcases s.candidates_cases v with h | ⟨provider, -, -, -, h⟩
  · rw [h]
  · have hlookup : (s.ask v.id provider).2.provided.lookup u.id = s.provided.lookup u.id := by
      simp only [ask, List.lookup_cons]
      rw [beq_false_of_ne hne]
    have hcount : (s.ask v.id provider).2.calls.count u.id = s.calls.count u.id :=
      List.count_cons_of_ne fun he => hne he.symm
    -- Only the calls for the variable asked are counted on.
    have hask : ∀ p, ((s.ask v.id provider).2.ask u.id p).1 = (s.ask u.id p).1 := by
      intro p
      show (p ((s.ask v.id provider).2.calls.count u.id)).eraseDups = _
      rw [hcount]
      rfl
    rw [h]
    unfold answers candidates
    rw [hlookup]
    cases u.choices.isEmpty with
    | false => rfl
    | true =>
        cases u.provider with
        | none => rfl
        | some p =>
            cases s.provided.lookup u.id with
            | none => exact hask p
            | some answer => rfl

/-- The session gives these candidates for every variable of the graph. -/
def Answers (s : Session) (g : Graph) (c : Variable SegmentId → List String) : Prop :=
  ∀ i v, g.kind? i = some (.var v) → s.answers v = c v

theorem answers_self (s : Session) (g : Graph) : s.Answers g s.answers := fun _ _ _ => rfl

/-- **Asking does not change the answers**, since an identity belongs to one node. -/
theorem Answers.candidates {s : Session} {g : Graph} {c : Variable SegmentId → List String}
    (hu : g.UniqueIds) (h : s.Answers g c) {i : Nat} {v : Variable SegmentId}
    (hv : g.kind? i = some (.var v)) : (s.candidates v).2.Answers g c := by
  intro j u hj
  -- The same identity means the same node, hence the same variable.
  by_cases hid : u.id = v.id
  · have hij : j = i :=
      hu j i (.var u) (.var v) (Graph.solid?_eq_some.mpr hj) (Graph.solid?_eq_some.mpr hv) hid
    rw [hij, hv] at hj
    injection hj with hj
    injection hj with hj
    rw [← hj, s.answers_candidates_self v, h i v hv]
  · rw [s.answers_candidates_of_ne hid, h j u hj]

end Session

/-! ## A token at a solid segment -/

namespace Solid

variable (c : Variable SegmentId → List String)

/-- The token is all that the segment waits for. -/
def accepts : Solid → String → Bool
  | .keyword k, token => token == k.name
  | .var v, token => (v.check token (c v)).isFull

/-- The token is only the beginning of an accepted one. For a keyword this counts at the end of the
line, for a variable anywhere. -/
def stops : Solid → String → Bool → Bool
  | .keyword k, token, isLast => token != k.name && startsWith k.name token && isLast
  | .var v, token, _ => !(v.check token (c v)).isFull && (v.check token (c v)).isPartial

/-- The visit of a segment after the last token. -/
def pendingVisit (node : Nat) : Solid → Visit
  | .keyword k => ⟨node, "", none, [k.name]⟩
  | .var v => ⟨node, "", none, c v⟩

/-- The visit of a segment that accepted a token. -/
def acceptedVisit (node : Nat) : Solid → String → Visit
  | .keyword _, token => ⟨node, token, none, []⟩
  | .var v, token => ⟨node, token, some (v.coerce token), (v.check token (c v)).candidates⟩

/-- The visit of a segment at which the walk stopped. -/
def stoppedVisit (node : Nat) : Solid → String → Visit
  | .keyword k, token => ⟨node, token, none, [k.name]⟩
  | .var v, token => ⟨node, token, none, (v.check token (c v)).candidates⟩

@[simp] theorem pendingVisit_node (node : Nat) (t : Solid) :
    (t.pendingVisit c node).node = node := by cases t <;> rfl

@[simp] theorem acceptedVisit_node (node : Nat) (t : Solid) (token : String) :
    (t.acceptedVisit c node token).node = node := by cases t <;> rfl

@[simp] theorem stoppedVisit_node (node : Nat) (t : Solid) (token : String) :
    (t.stoppedVisit c node token).node = node := by cases t <;> rfl

@[simp] theorem pendingVisit_raw (node : Nat) (t : Solid) :
    (t.pendingVisit c node).raw = "" := by cases t <;> rfl

@[simp] theorem acceptedVisit_raw (node : Nat) (t : Solid) (token : String) :
    (t.acceptedVisit c node token).raw = token := by cases t <;> rfl

@[simp] theorem stoppedVisit_raw (node : Nat) (t : Solid) (token : String) :
    (t.stoppedVisit c node token).raw = token := by cases t <;> rfl

/-- A segment does not stop at a token that it accepts. -/
theorem accepts_eq_false_of_stops {t : Solid} {token : String} {isLast : Bool}
    (h : t.stops c token isLast = true) : t.accepts c token = false := by
  cases t with
  | keyword k =>
      simp only [stops, Bool.and_eq_true, bne_iff_ne] at h
      simpa [accepts] using h.1.1
  | var v =>
      simp only [stops, Bool.and_eq_true, Bool.not_eq_true'] at h
      exact h.1

end Solid

/-! ## One frame -/

section

variable (g : Graph) (c : Variable SegmentId → List String)

/-- What comes of a frame when the candidates are fixed: frames to go on with, and matches. -/
def Frame.outcome (f : Frame) : List Frame × List Match :=
  match g.kind? f.node with
  | none => ([], [])
  | some (.marker _ isEntry) => Walk.atMarker g f isEntry
  | some (.keyword k) => Walk.atKeyword g f k
  | some (.var v) => Walk.atVariable g f v (c v)

/-- All that can come of a frame: the frames to go on with and the matches, one case each way. -/
inductive Frame.Comes (f : Frame) : List Frame → List Match → Prop
  | absent (hk : g.kind? f.node = none) : Comes f [] []
  | whole (scope : Nat) (hk : g.kind? f.node = some (.marker scope false)) (he : f.node = g.exit)
      (hr : f.rest = []) : Comes f [] [.whole f.trail]
  | surplus (scope : Nat) (hk : g.kind? f.node = some (.marker scope false)) (he : f.node = g.exit)
      (hr : f.rest ≠ []) : Comes f [] []
  | through (scope : Nat) (isEntry : Bool) (hk : g.kind? f.node = some (.marker scope isEntry))
      (he : isEntry = true ∨ f.node ≠ g.exit) : Comes f (Walk.advance g f.node f.trail f.rest) []
  | pending (t : Solid) (ht : g.solid? f.node = some t) (hr : f.rest = []) :
      Comes f [] [.waiting (t.pendingVisit c f.node :: f.trail)]
  | accepted (t : Solid) (token : String) (rest : List String) (ht : g.solid? f.node = some t)
      (hr : f.rest = token :: rest) (ha : t.accepts c token = true) :
      Comes f (Walk.advance g f.node (t.acceptedVisit c f.node token :: f.trail) rest) []
  | stopped (t : Solid) (token : String) (rest : List String) (ht : g.solid? f.node = some t)
      (hr : f.rest = token :: rest) (hs : t.stops c token rest.isEmpty = true) :
      Comes f [] [.waiting (t.stoppedVisit c f.node token :: f.trail)]
  | refused (t : Solid) (token : String) (rest : List String) (ht : g.solid? f.node = some t)
      (hr : f.rest = token :: rest) (ha : t.accepts c token = false)
      (hs : t.stops c token rest.isEmpty = false) : Comes f [] []

variable {g c} {f : Frame}

/-! ### One equation for each way -/

theorem Frame.outcome_absent (hk : g.kind? f.node = none) : f.outcome g c = ([], []) := by
  simp only [Frame.outcome, hk]

theorem Frame.outcome_whole {scope : Nat} (hk : g.kind? f.node = some (.marker scope false))
    (he : f.node = g.exit) (hr : f.rest = []) :
    f.outcome g c = ([], [.whole f.trail]) := by
  simp only [Frame.outcome, hk, Walk.atMarker]
  rw [if_pos (by simp [he]), if_pos (by simp [hr])]

theorem Frame.outcome_surplus {scope : Nat} (hk : g.kind? f.node = some (.marker scope false))
    (he : f.node = g.exit) (hr : f.rest ≠ []) : f.outcome g c = ([], []) := by
  simp only [Frame.outcome, hk, Walk.atMarker]
  rw [if_pos (by simp [he]), if_neg (by simp [hr])]

theorem Frame.outcome_through {scope : Nat} {isEntry : Bool}
    (hk : g.kind? f.node = some (.marker scope isEntry)) (he : isEntry = true ∨ f.node ≠ g.exit) :
    f.outcome g c = (Walk.advance g f.node f.trail f.rest, []) := by
  simp only [Frame.outcome, hk, Walk.atMarker]
  rw [if_neg (by rcases he with he | he <;> simp [he])]

theorem Frame.outcome_pending {t : Solid} (ht : g.solid? f.node = some t) (hr : f.rest = []) :
    f.outcome g c = ([], [.waiting (t.pendingVisit c f.node :: f.trail)]) := by
  have hk := Graph.solid?_eq_some.mp ht
  cases t with
  | keyword k => simp only [Frame.outcome, hk, Solid.kind, Walk.atKeyword, hr, Solid.pendingVisit]
  | var v => simp only [Frame.outcome, hk, Solid.kind, Walk.atVariable, hr, Solid.pendingVisit]

theorem Frame.outcome_accepted {t : Solid} {token : String} {rest : List String}
    (ht : g.solid? f.node = some t) (hr : f.rest = token :: rest)
    (ha : t.accepts c token = true) :
    f.outcome g c
      = (Walk.advance g f.node (t.acceptedVisit c f.node token :: f.trail) rest, []) := by
  have hk := Graph.solid?_eq_some.mp ht
  cases t with
  | keyword k =>
      have hname : token = k.name := by simpa [Solid.accepts] using ha
      simp only [Frame.outcome, hk, Solid.kind, Walk.atKeyword, hr, if_pos hname,
        Solid.acceptedVisit]
  | var v =>
      have hfull : (v.check token (c v)).isFull = true := ha
      simp only [Frame.outcome, hk, Solid.kind, Walk.atVariable, hr, if_pos hfull,
        Solid.acceptedVisit]

theorem Frame.outcome_stopped {t : Solid} {token : String} {rest : List String}
    (ht : g.solid? f.node = some t) (hr : f.rest = token :: rest)
    (hs : t.stops c token rest.isEmpty = true) :
    f.outcome g c = ([], [.waiting (t.stoppedVisit c f.node token :: f.trail)]) := by
  have hk := Graph.solid?_eq_some.mp ht
  cases t with
  | keyword k =>
      simp only [Solid.stops, Bool.and_assoc, Bool.and_eq_true (token != k.name), bne_iff_ne] at hs
      simp only [Frame.outcome, hk, Solid.kind, Walk.atKeyword, hr, if_neg hs.1, if_pos hs.2,
        Solid.stoppedVisit]
  | var v =>
      simp only [Solid.stops, Bool.and_eq_true, Bool.not_eq_true'] at hs
      simp only [Frame.outcome, hk, Solid.kind, Walk.atVariable, hr, hs.1, hs.2, if_true,
        Bool.false_eq_true, if_false, Solid.stoppedVisit]

theorem Frame.outcome_refused {t : Solid} {token : String} {rest : List String}
    (ht : g.solid? f.node = some t) (hr : f.rest = token :: rest)
    (ha : t.accepts c token = false) (hs : t.stops c token rest.isEmpty = false) :
    f.outcome g c = ([], []) := by
  have hk := Graph.solid?_eq_some.mp ht
  cases t with
  | keyword k =>
      have hname : ¬ token = k.name := by simpa [Solid.accepts] using ha
      have hbegin : ¬ (startsWith k.name token && rest.isEmpty) = true := by
        simpa [Solid.stops, hname] using hs
      simp only [Frame.outcome, hk, Solid.kind, Walk.atKeyword, hr, if_neg hname, if_neg hbegin]
  | var v =>
      have hfull : (v.check token (c v)).isFull = false := ha
      have hpartial : (v.check token (c v)).isPartial = false := by
        simpa [Solid.stops, hfull] using hs
      simp only [Frame.outcome, hk, Solid.kind, Walk.atVariable, hr, hfull, hpartial,
        Bool.false_eq_true, if_false]

/-- **Nothing else comes of a frame.** -/
theorem Frame.outcome_comes (f : Frame) : f.Comes g c (f.outcome g c).1 (f.outcome g c).2 := by
  cases ht : g.solid? f.node with
  | some t =>
      cases hr : f.rest with
      | nil =>
          rw [outcome_pending ht hr]
          exact .pending t ht hr
      | cons token rest =>
          cases ha : t.accepts c token with
          | true =>
              rw [outcome_accepted ht hr ha]
              exact .accepted t token rest ht hr ha
          | false =>
              cases hs : t.stops c token rest.isEmpty with
              | true =>
                  rw [outcome_stopped ht hr hs]
                  exact .stopped t token rest ht hr hs
              | false =>
                  rw [outcome_refused ht hr ha hs]
                  exact .refused t token rest ht hr ha hs
  | none =>
      rcases Graph.solid?_eq_none.mp ht with hk | ⟨scope, isEntry, hk⟩
      · rw [outcome_absent hk]
        exact .absent hk
      · by_cases he : isEntry = true ∨ f.node ≠ g.exit
        · rw [outcome_through hk he]
          exact .through scope isEntry hk he
        · rw [not_or, not_not, Bool.not_eq_true] at he
          rw [he.1] at hk
          by_cases hr : f.rest = []
          · rw [outcome_whole hk he.2 hr]
            exact .whole scope hk he.2 hr
          · rw [outcome_surplus hk he.2 hr]
            exact .surplus scope hk he.2 hr

/-! ### Going on and ending -/

/-- The frames that a frame goes on with: past a marker, or past a segment that took a token. -/
inductive Frame.Next (g : Graph) (c : Variable SegmentId → List String) (f : Frame) : Frame → Prop
  | through {scope j : Nat} {isEntry : Bool} (hk : g.kind? f.node = some (.marker scope isEntry))
      (he : isEntry = true ∨ f.node ≠ g.exit) (hj : j ∈ g.successors f.node) :
      Next g c f ⟨j, f.trail, f.rest⟩
  | accepted {t : Solid} {token : String} {rest : List String} {j : Nat}
      (ht : g.solid? f.node = some t) (hr : f.rest = token :: rest)
      (ha : t.accepts c token = true) (hj : j ∈ g.successors f.node) :
      Next g c f ⟨j, t.acceptedVisit c f.node token :: f.trail, rest⟩

/-- The matches that end at a frame. -/
inductive Frame.Last (g : Graph) (c : Variable SegmentId → List String) (f : Frame) : Match → Prop
  | whole {scope : Nat} (hk : g.kind? f.node = some (.marker scope false)) (he : f.node = g.exit)
      (hr : f.rest = []) : Last g c f (.whole f.trail)
  | pending {t : Solid} (ht : g.solid? f.node = some t) (hr : f.rest = []) :
      Last g c f (.waiting (t.pendingVisit c f.node :: f.trail))
  | stopped {t : Solid} {token : String} {rest : List String} (ht : g.solid? f.node = some t)
      (hr : f.rest = token :: rest) (hs : t.stops c token rest.isEmpty = true) :
      Last g c f (.waiting (t.stoppedVisit c f.node token :: f.trail))

/-- It is either partial or invokable. -/
def Match.Definite (m : Match) : Prop := m.isPartial = !m.isInvokable

/-- The match of a walk, which is of a whole line or ended before. -/
def Match.ofWalk (path : List Visit) (isWhole : Bool) : Match := ⟨path, !isWhole, isWhole⟩

@[simp] theorem Match.whole_eq (trail : List Visit) :
    whole trail = ofWalk trail.reverse true := rfl

@[simp] theorem Match.waiting_eq (trail : List Visit) :
    waiting trail = ofWalk trail.reverse false := rfl

@[simp] theorem Match.path_ofWalk (path : List Visit) (isWhole : Bool) :
    (ofWalk path isWhole).path = path := rfl

@[simp] theorem Match.isInvokable_ofWalk (path : List Visit) (isWhole : Bool) :
    (ofWalk path isWhole).isInvokable = isWhole := rfl

theorem Match.Definite.eq_ofWalk {m : Match} (h : m.Definite) :
    m = .ofWalk m.path m.isInvokable := by
  cases m with
  | mk path isPartial isInvokable =>
      rw [show isPartial = !isInvokable from h]
      rfl

theorem Match.Definite.isPartial_iff {m : Match} (h : m.Definite) :
    m.isPartial = true ↔ m.isInvokable = false := by
  rw [show m.isPartial = !m.isInvokable from h, Bool.not_eq_true']

theorem Frame.Last.definite {m : Match} (h : f.Last g c m) : m.Definite := by
  cases h <;> rfl

theorem Frame.next_of_mem {f' : Frame} (h : f' ∈ (f.outcome g c).1) : f.Next g c f' := by
  have hcomes := f.outcome_comes (g := g) (c := c)
  generalize (f.outcome g c).1 = frames at *
  generalize (f.outcome g c).2 = found at *
  cases hcomes with
  | through scope isEntry hk he =>
      obtain ⟨j, hj, rfl⟩ := List.mem_map.mp h
      exact .through hk he hj
  | accepted t token rest ht hr ha =>
      obtain ⟨j, hj, rfl⟩ := List.mem_map.mp h
      exact .accepted ht hr ha hj
  | absent hk => exact absurd h (by simp)
  | whole scope hk he hr => exact absurd h (by simp)
  | surplus scope hk he hr => exact absurd h (by simp)
  | pending t ht hr => exact absurd h (by simp)
  | stopped t token rest ht hr hs => exact absurd h (by simp)
  | refused t token rest ht hr ha hs => exact absurd h (by simp)

theorem Frame.last_of_mem {m : Match} (h : m ∈ (f.outcome g c).2) : f.Last g c m := by
  have hcomes := f.outcome_comes (g := g) (c := c)
  generalize (f.outcome g c).1 = frames at *
  generalize (f.outcome g c).2 = found at *
  cases hcomes with
  | whole scope hk he hr =>
      rw [List.mem_singleton.mp h]
      exact .whole hk he hr
  | pending t ht hr =>
      rw [List.mem_singleton.mp h]
      exact .pending ht hr
  | stopped t token rest ht hr hs =>
      rw [List.mem_singleton.mp h]
      exact .stopped ht hr hs
  | absent hk => exact absurd h (by simp)
  | surplus scope hk he hr => exact absurd h (by simp)
  | through scope isEntry hk he => exact absurd h (by simp)
  | accepted t token rest ht hr ha => exact absurd h (by simp)
  | refused t token rest ht hr ha hs => exact absurd h (by simp)

/-- A frame gives at most one match, so its matches have no order to speak of. -/
theorem Frame.reverse_outcome_found (f : Frame) :
    (f.outcome g c).2.reverse = (f.outcome g c).2 := by
  have hcomes := f.outcome_comes (g := g) (c := c)
  generalize (f.outcome g c).1 = frames at *
  generalize (f.outcome g c).2 = found at *
  cases hcomes <;> rfl

/-! ## One step of the worklist -/

/-- A step takes the top frame off the stack and puts what comes of it in its place. -/
theorem Walk.step_outcome {w : Walk} {f : Frame} {stack : List Frame} (hw : w.stack = f :: stack) :
    (w.step g).stack = (f.outcome g w.session.answers).1 ++ stack ∧
      (w.step g).found = (f.outcome g w.session.answers).2 ++ w.found := by
  cases hk : g.kind? f.node with
  | none => simp [Walk.step, Frame.outcome, hw, hk]
  | some kind => cases kind <;> simp [Walk.step, Frame.outcome, Session.answers, hw, hk]

/-- All that has been found is either partial or invokable. -/
def Walk.Definite (w : Walk) : Prop := ∀ m ∈ w.found, m.Definite

/-- **A step finds nothing that is both partial and invokable, or neither.** -/
theorem Walk.Definite.step {w : Walk} (h : w.Definite) : (w.step g).Definite := by
  cases hw : w.stack with
  | nil =>
      rw [show w.step g = w by simp [Walk.step, hw]]
      exact h
  | cons f stack =>
      intro m hm
      rw [(Walk.step_outcome hw).2] at hm
      rcases List.mem_append.mp hm with hm | hm
      · exact (Frame.last_of_mem hm).definite
      · exact h m hm

theorem Walk.Definite.run {w : Walk} (h : w.Definite) (fuel : Nat) : (w.run g fuel).Definite := by
  induction fuel generalizing w with
  | zero => exact h
  | succ fuel ih =>
      unfold Walk.run
      by_cases hw : w.stack.isEmpty = true
      · rw [if_pos hw]
        exact h
      · rw [if_neg hw]
        exact ih h.step

/-- **A step is the outcome of the frame on top of the stack**; the session still gives the same
candidates. -/
theorem Walk.step_eq (hu : g.UniqueIds) {w : Walk} {f : Frame} {stack : List Frame}
    (hw : w.stack = f :: stack) (hs : w.session.Answers g c) :
    ∃ session : Session, session.Answers g c ∧
      w.step g = ⟨session, (f.outcome g c).1 ++ stack, (f.outcome g c).2 ++ w.found⟩ := by
  cases hk : g.kind? f.node with
  | none =>
      refine ⟨w.session, hs, ?_⟩
      simp only [Walk.step, Frame.outcome, hw, hk, List.nil_append]
  | some kind =>
      cases kind with
      | marker scope isEntry =>
          refine ⟨w.session, hs, ?_⟩
          simp only [Walk.step, Frame.outcome, hw, hk]
      | keyword k =>
          refine ⟨w.session, hs, ?_⟩
          simp only [Walk.step, Frame.outcome, hw, hk]
      | var v =>
          refine ⟨(w.session.candidates v).2, hs.candidates hu hk, ?_⟩
          have hc : (w.session.candidates v).1 = c v := hs f.node v hk
          simp only [Walk.step, Frame.outcome, hw, hk, hc]

end
end CommandGrammar
