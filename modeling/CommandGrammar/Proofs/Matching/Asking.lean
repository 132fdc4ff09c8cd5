import CommandGrammar.Proofs.Matching.Providers

/-!
# `Proofs.Matching.Asking` — what a session has asked by the end of a line

Providers may change their answers from one question to the next, so what a command finds depends on
the session that it is matched in. But a session never loses an answer, so whatever was answered on
the way is still kept in the end. To match once more from that last session asks nothing, changes
nothing and finds the same (`Session.matches_of_keptBy`): the last session fixes the candidates of
the whole line, also for the commands that were matched before all answers were known
(`Registry.matchAll_eq_grouped`).

The statements look ahead: they assume of a run that its last session loses nothing to a given one,
and conclude that it could have started from the given one.

## Contents
- `Walk.run_preserves`, `Registry.matchFrom_preserves`: what every question preserves.
- `Session.KeptBy`, `Session.candidates_of_keptBy`: answers that stay.
- `Walk.run_of_keptBy`, `Session.matches_of_keptBy`: matching once more.
- `Session.asked`, `Session.Since`: who was asked, and no one twice.
- `Registry.session`, `Command.foundIn`, `Registry.mem_matchAll`: the matches of a line, command by
  command.
-/

namespace CommandGrammar

/-! ## What every question preserves -/

section

variable {P : Session → Prop} {g : Graph}

theorem Walk.step_preserves (hP : ∀ s v, P s → P (s.candidates v).2) {w : Walk}
    (h : P w.session) : P (w.step g).session := by
  cases hw : w.stack with
  | nil => simpa [Walk.step, hw] using h
  | cons f stack =>
      cases hk : g.kind? f.node with
      | none => simpa [Walk.step, hw, hk] using h
      | some kind =>
          cases kind with
          | marker scope isEntry => simpa [Walk.step, hw, hk] using h
          | keyword k => simpa [Walk.step, hw, hk] using h
          | var v => simpa [Walk.step, hw, hk] using hP w.session v h

/-- **What a question preserves, a run preserves.** -/
theorem Walk.run_preserves (hP : ∀ s v, P s → P (s.candidates v).2) {w : Walk}
    (h : P w.session) (fuel : Nat) : P (w.run g fuel).session := by
  induction fuel generalizing w with
  | zero => exact h
  | succ fuel ih =>
      unfold Walk.run
      split
      · exact h
      · exact ih (Walk.step_preserves hP h)

theorem Session.matches_preserves (hP : ∀ s v, P s → P (s.candidates v).2) {s : Session}
    (h : P s) (argv : List String) : P (s.matches g argv).2 :=
  Walk.run_preserves (w := Walk.start s g argv) hP h (Walk.fuel g argv)

theorem Registry.matchFrom_preserves (hP : ∀ s v, P s → P (s.candidates v).2) {s : Session}
    (h : P s) (argv : List String) (index : Nat) (cs : List Command) :
    P (matchFrom argv index cs s).2 := by
  induction cs generalizing index s with
  | nil => exact h
  | cons c rest ih =>
      rw [matchFrom_cons]
      exact ih (Session.matches_preserves hP h argv) (index + 1)

end

/-! ## Answers that stay -/

namespace Session

/-- Whatever `s` keeps, `s'` keeps. -/
def KeptBy (s s' : Session) : Prop :=
  ∀ id answer, s.provided.lookup id = some answer → s'.provided.lookup id = some answer

theorem KeptBy.refl (s : Session) : s.KeptBy s := fun _ _ h => h

theorem KeptBy.trans {s s' s'' : Session} (h : s.KeptBy s') (h' : s'.KeptBy s'') :
    s.KeptBy s'' := fun id answer hid => h' id answer (h id answer hid)

/-- **A question loses no answer**: a provider is asked only if nothing is kept of it. -/
theorem keptBy_candidates (s : Session) (v : Variable SegmentId) :
    s.KeptBy (s.candidates v).2 := by
  rcases s.candidates_cases v with h | ⟨provider, -, -, hl, h⟩
  · rw [h]
    exact .refl s
  · intro id answer hid
    have hne : id ≠ v.id := by
      rintro rfl
      rw [hl] at hid
      cases hid
    rw [h]
    simpa [ask, List.lookup_cons, beq_false_of_ne hne] using hid

/-- What is kept after a question answers the question. -/
theorem candidates_of_keptBy {s s' : Session} {v : Variable SegmentId}
    (h : (s.candidates v).2.KeptBy s') : s'.candidates v = ((s.candidates v).1, s') := by
  cases hchoices : v.choices.isEmpty with
  | false => rw [candidates_of_choices hchoices, candidates_of_choices hchoices]
  | true =>
      cases hp : v.provider with
      | none => rw [candidates_of_no_provider hchoices hp, candidates_of_no_provider hchoices hp]
      | some p =>
          cases hl : s.provided.lookup v.id with
          | some answer =>
              rw [candidates_of_provided hchoices hp hl] at h ⊢
              exact candidates_of_provided hchoices hp (h v.id answer hl)
          | none =>
              rw [candidates_of_ask hchoices hp hl] at h ⊢
              have hkept : (s.ask v.id p).2.provided.lookup v.id = some (s.ask v.id p).1 := by
                simp [ask]
              exact candidates_of_provided hchoices hp (h v.id _ hkept)

/-- What is kept before a question is kept after it. -/
theorem KeptBy.candidates {s s' : Session} (v : Variable SegmentId) (h : s.KeptBy s') :
    s.KeptBy (s'.candidates v).2 := h.trans (s'.keptBy_candidates v)

end Session

/-! ## Matching once more -/

section

variable {g : Graph} {s' : Session}

theorem Walk.keptBy_run (w : Walk) (fuel : Nat) : w.session.KeptBy (w.run g fuel).session :=
  Walk.run_preserves (fun _ v h => h.candidates v) (.refl w.session) fuel

/-- **A step that is taken once more**, from a session that keeps what it left behind, does the same
and leaves the session as it is. -/
theorem Walk.step_of_keptBy {w : Walk} (h : (w.step g).session.KeptBy s') :
    ({ w with session := s' } : Walk).step g = { w.step g with session := s' } := by
  cases hw : w.stack with
  | nil => simp [Walk.step, hw]
  | cons f stack =>
      cases hk : g.kind? f.node with
      | none => simp [Walk.step, hw, hk]
      | some kind =>
          cases kind with
          | marker scope isEntry => simp [Walk.step, hw, hk]
          | keyword k => simp [Walk.step, hw, hk]
          | var v =>
              simp only [Walk.step, hw, hk] at h
              simp only [Walk.step, hw, hk, Session.candidates_of_keptBy h]

theorem Walk.run_of_keptBy (fuel : Nat) {w : Walk} (h : (w.run g fuel).session.KeptBy s') :
    ({ w with session := s' } : Walk).run g fuel = { w.run g fuel with session := s' } := by
  induction fuel generalizing w with
  | zero => rfl
  | succ fuel ih =>
      unfold Walk.run at h ⊢
      cases hempty : w.stack.isEmpty with
      | true => simp
      | false =>
          simp only [hempty, Bool.false_eq_true, if_false] at h ⊢
          -- What the step keeps is kept to the end, so the step can be taken from `s'` as well.
          rw [Walk.step_of_keptBy ((w.step g).keptBy_run fuel |>.trans h), ih h]

/-- **Matching a line once more from what was kept finds the same and asks nothing.** -/
theorem Session.matches_of_keptBy {s : Session} {argv : List String}
    (h : (s.matches g argv).2.KeptBy s') : s'.matches g argv = ((s.matches g argv).1, s') := by
  have hrun : (Walk.start s' g argv).run g (Walk.fuel g argv)
      = { (Walk.start s g argv).run g (Walk.fuel g argv) with session := s' } :=
    Walk.run_of_keptBy (Walk.fuel g argv) h
  simp only [Session.matches, hrun]

end

/-! ## A line, command by command -/

/-- The matches of a line with a command, in the given session. -/
def Command.foundIn (s : Session) (argv : List String) (c : Command) : List Match :=
  (s.matches c.graph argv).1

namespace Registry

theorem keptBy_matchFrom (argv : List String) (index : Nat) (cs : List Command) (s : Session) :
    s.KeptBy (matchFrom argv index cs s).2 :=
  matchFrom_preserves (fun _ v h => h.candidates v) (.refl s) argv index cs

/-- **What commands find one after the other, each finds in any session that keeps all answers of
the line.** -/
theorem matchFrom_of_keptBy {s s' : Session} {argv : List String} {index : Nat}
    {cs : List Command} (h : (matchFrom argv index cs s).2.KeptBy s') :
    (matchFrom argv index cs s).1 = grouped (Command.foundIn s' argv) index cs := by
  induction cs generalizing index s with
  | nil => rfl
  | cons c rest ih =>
      rw [matchFrom_cons] at h ⊢
      have hrest := keptBy_matchFrom argv (index + 1) rest (s.matches c.graph argv).2
      have hfirst : c.foundIn s' argv = (s.matches c.graph argv).1 := by
        rw [Command.foundIn, Session.matches_of_keptBy (hrest.trans h)]
      rw [grouped_cons, hfirst, ih h]

/-- The session in which a line has been matched: it keeps all answers that were needed. -/
def session (r : Registry) (argv : List String) (calls : CallLog) : Session :=
  (matchFrom argv 0 r.commands (Session.fresh calls)).2

/-- **The matches of a line are those of each command in the session that the line leaves behind**,
in order of registration. -/
theorem matchAll_eq_grouped (r : Registry) (argv : List String) (calls : CallLog) :
    (r.matchAll argv calls).1 = grouped (Command.foundIn (r.session argv calls) argv) 0 r.commands :=
  matchFrom_of_keptBy (.refl _)

theorem mem_matchAll {r : Registry} {argv : List String} {calls : CallLog} {m : CommandMatch} :
    m ∈ (r.matchAll argv calls).1 ↔
      r.commands[m.index]? = some m.command ∧
        m.result ∈ m.command.foundIn (r.session argv calls) argv := by
  rw [matchAll_eq_grouped]
  exact mem_grouped

end Registry

/-! ## Who was asked -/

namespace Session

/-- The identities whose providers were asked in the session, newest first. -/
def asked (s : Session) : List SegmentId := s.provided.map Prod.fst

/-- The session began after the given calls and asked no one twice. -/
structure Since (calls : CallLog) (s : Session) : Prop where
  calls_eq : s.calls = s.asked ++ calls
  nodup : s.asked.Nodup

theorem lookup_eq_none {s : Session} {id : SegmentId} :
    s.provided.lookup id = none ↔ id ∉ s.asked := by
  simp only [List.lookup_eq_none_iff, asked, List.mem_map, bne_iff_ne]
  constructor
  · rintro h ⟨p, hp, rfl⟩
    exact h p hp rfl
  · rintro h p hp rfl
    exact h ⟨p, hp, rfl⟩

theorem since_fresh (calls : CallLog) : Since calls (fresh calls) := ⟨rfl, .nil⟩

/-- **No question asks a provider a second time.** -/
theorem Since.candidates {calls : CallLog} {s : Session} (v : Variable SegmentId)
    (h : Since calls s) : Since calls (s.candidates v).2 := by
  rcases s.candidates_cases v with hs | ⟨p, -, -, hl, hs⟩
  · rw [hs]
    exact h
  · rw [hs]
    refine ⟨?_, List.nodup_cons.mpr ⟨lookup_eq_none.mp hl, h.nodup⟩⟩
    show v.id :: s.calls = v.id :: s.asked ++ calls
    rw [h.calls_eq, List.cons_append]

/-- Who has not been asked in the session was last asked before it. -/
theorem Since.count {calls : CallLog} {s : Session} (h : Since calls s) {id : SegmentId}
    (hid : id ∉ s.asked) : s.calls.count id = calls.count id := by
  rw [h.calls_eq, List.count_append, List.count_eq_zero.mpr hid, Nat.zero_add]

end Session

theorem Registry.since_session (r : Registry) (argv : List String) (calls : CallLog) :
    Session.Since calls (r.session argv calls) :=
  matchFrom_preserves (fun _ v h => h.candidates v) (Session.since_fresh calls) argv 0 r.commands

end CommandGrammar
