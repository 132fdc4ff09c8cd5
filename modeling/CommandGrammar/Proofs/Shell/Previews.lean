import CommandGrammar.Shell.Basic
import Mathlib.Data.List.Nodup

/-!
# `Proofs.Shell.Previews` — only the latest preview is shown, and it is not lost

Previews are computed beside the line, any number of them at once, and they arrive in any order and
at any time, also while somebody looks through the inbox. What can happen is a relation with a label
for each step (`Previews.Step`), and a history is the list of labels of a run.

Looking takes the previews out of the inbox one by one, and others may arrive behind every single
one (`Looks`). It makes no difference: what is looked at comes before what arrives, so the same
previews could have arrived before (`looks_iff`), and then polling and waiting are the functions
that the shell runs.

The invariant says what previews still owe to a history (`Previews.Owes`): the text of the latest
request, unless it was given up, answered or declined. It holds because requests have different
numbers and only the latest one has the current number.

## Contents
- `Run`: labelled runs of a step relation.
- `Previews.Event`, `Looks`, `Previews.Step`: what can happen to previews.
- `looks_iff`, `polls_iff`, `waits_iff`: arrivals in between are arrivals before.
- `Previews.Owes`: the invariant; `Owes.step`, `exists_owes`: of a step and of a run.
- `Previews.Step.keeps`, `Previews.Owes.poll`: the current preview is not lost.
- `Shell.Step`: what can happen to a shell; `Shell.Step.answered_iff`.
- `only_latest_preview`.
-/

namespace CommandGrammar

/-! ## Runs -/

section

variable {σ ε : Type}

/-- The run of a step relation from a state: the labels of the steps so far, and the state. -/
inductive Run (step : σ → ε → σ → Prop) (start : σ) : List ε → σ → Prop
  | start : Run step start [] start
  | next {events : List ε} {s s' : σ} {e : ε} (h : Run step start events s)
      (hstep : step s e s') : Run step start (events ++ [e]) s'

variable {step : σ → ε → σ → Prop} {start : σ}

/-- Every label of a run is that of a step which the run takes. -/
theorem Run.exists_step {before after : List ε} {e : ε} {s : σ}
    (h : Run step start (before ++ e :: after) s) :
    ∃ s₁ s₂, Run step start before s₁ ∧ step s₁ e s₂ := by
  generalize hevents : before ++ e :: after = events at h
  induction h generalizing after with
  | start => exact absurd hevents (by simp)
  | @next events s s' e' h hstep ih =>
      rcases List.eq_nil_or_concat after with rfl | ⟨after', last, rfl⟩
      · obtain ⟨rfl, rfl⟩ := List.append_inj' hevents rfl |>.imp_right List.singleton_inj.mp
        exact ⟨s, s', h, hstep⟩
      · have hinit : before ++ e :: after' ++ [last] = events ++ [e'] := by simpa using hevents
        exact ih (List.append_inj' hinit rfl).1

/-- What precedes an event is the same list in two splits, so an event that is not in the later part
of one stands in the earlier part of the other. -/
theorem mem_between {before between earlier quiet : List ε} {x r : ε}
    (h : before ++ x :: between = earlier ++ r :: quiet) (hx : x ∉ r :: quiet) : r ∈ between := by
  rcases List.append_eq_append_iff.mp h with ⟨as, -, has⟩ | ⟨cs, -, hcs⟩
  · cases as with
    | nil => exact absurd (List.cons.inj has).1 (by rintro rfl; exact hx List.mem_cons_self)
    | cons a as =>
        rw [(List.cons.inj has).2]
        simp
  · exact absurd (by rw [hcs]; simp) hx

end

namespace Previews

/-! ## What can happen -/

/-- What can happen to previews. -/
inductive Event where
  /-- A preview was requested whose computation yields the text, or declines. -/
  | requested (text : Option String)
  | cancelled
  /-- Some previews have arrived. -/
  | arrived
  /-- Somebody looked for the latest preview, and this was the answer. -/
  | answered (text : Option String)
  deriving DecidableEq

/-- Looking through the inbox up to a preview that ends the looking, or to the end of the inbox. The
previews in front of it are dropped, and at any time others may arrive. -/
inductive Looks (ends : Preview → Bool) : Previews → Option String → Previews → Prop
  | arrive {p q : Previews} {text : Option String} (ready : Preview → Bool)
      (h : Looks ends (p.deliver ready) text q) : Looks ends p text q
  | drop {p q : Previews} {text : Option String} {m : Preview} {rest : List Preview}
      (hinbox : p.inbox = m :: rest) (hm : ends m = false)
      (h : Looks ends { p with inbox := rest } text q) : Looks ends p text q
  | found {p : Previews} {m : Preview} {rest : List Preview} (hinbox : p.inbox = m :: rest)
      (hm : ends m = true) : Looks ends p m.text { p with inbox := rest }
  | nothing {p : Previews} (hinbox : p.inbox = []) : Looks ends p .none p

/-- A poll ends on the latest preview if that has a text. -/
def endsPoll (generation : Nat) (m : Preview) : Bool :=
  m.generation == generation && m.text.isSome

/-- Waiting ends on the latest preview, also on one that was declined. -/
def endsWait (generation : Nat) (m : Preview) : Bool := m.generation == generation

/-- A step of previews: they are requested, given up, they arrive, or somebody looks for the latest
one, polling or waiting. -/
inductive Step : Previews → Event → Previews → Prop
  | request {p : Previews} (text : Option String) : Step p (.requested text) (p.request text)
  | cancel {p : Previews} : Step p .cancelled p.cancel
  | arrive {p : Previews} (ready : Preview → Bool) : Step p .arrived (p.deliver ready)
  | poll {p q : Previews} {text : Option String} (h : Looks (endsPoll p.generation) p text q) :
      Step p (.answered text) q
  | wait {p q : Previews} {text : Option String} (h : Looks (endsWait p.generation) p text q) :
      Step p (.answered text) q

/-! ## Arrivals in between -/

/-- Previews arrive, perhaps several times. -/
inductive Arrivals : Previews → Previews → Prop
  | refl {p : Previews} : Arrivals p p
  | deliver {p q : Previews} (ready : Preview → Bool) (h : Arrivals (p.deliver ready) q) :
      Arrivals p q

/-- The first preview that ends the looking: its text, and what was not looked at. -/
def look (ends : Preview → Bool) : List Preview → Option String × List Preview
  | [] => (.none, [])
  | m :: rest => if ends m then (m.text, rest) else look ends rest

variable {ends : Preview → Bool}

theorem look_cons_of_ends {m : Preview} (hm : ends m = true) (rest : List Preview) :
    look ends (m :: rest) = (m.text, rest) := by
  simp [look, hm]

theorem look_cons_of_not_ends {m : Preview} (hm : ends m = false) (rest : List Preview) :
    look ends (m :: rest) = look ends rest := by
  simp [look, hm]

theorem firstText_eq_look (generation : Nat) (inbox : List Preview) :
    firstText generation inbox = look (endsPoll generation) inbox := by
  induction inbox with
  | nil => rfl
  | cons m rest ih =>
      unfold firstText
      by_cases hm : m.generation = generation
      · cases htext : m.text with
        | none => rw [look_cons_of_not_ends (by simp [endsPoll, htext]), ← ih, if_pos hm]
        | some text => rw [look_cons_of_ends (by simp [endsPoll, hm, htext]), if_pos hm, htext]
      · rw [look_cons_of_not_ends (by simp [endsPoll, hm]), ← ih, if_neg hm]

theorem firstCurrent_eq_look (generation : Nat) (inbox : List Preview) :
    firstCurrent generation inbox = look (endsWait generation) inbox := by
  induction inbox with
  | nil => rfl
  | cons m rest ih =>
      unfold firstCurrent
      by_cases hm : m.generation = generation
      · rw [look_cons_of_ends (by simp [endsWait, hm]), if_pos hm]
      · rw [look_cons_of_not_ends (by simp [endsWait, hm]), ← ih, if_neg hm]

variable {p q : Previews}

theorem Arrivals.generation (h : Arrivals p q) : q.generation = p.generation := by
  induction h with
  | refl => rfl
  | deliver ready h ih => exact ih

/-- What arrives is put behind what is in the inbox already, also behind what has been taken out of
it since. -/
theorem Arrivals.cons {m : Preview} {rest : List Preview} {p : Previews}
    (hinbox : p.inbox = m :: rest) (h : Arrivals { p with inbox := rest } q) : Arrivals p { q with inbox := m :: q.inbox } := by
  generalize hp : ({ p with inbox := rest } : Previews) = p' at h
  induction h generalizing p rest with
  | refl =>
      subst hp
      have hsame : ({ p with inbox := m :: rest } : Previews) = p := by rw [← hinbox]
      simpa [hsame] using Arrivals.refl (p := p)
  | @deliver p' q ready h ih =>
      subst hp
      have hdelivered : (p.deliver ready).inbox = m :: (rest ++ p.running.filter ready) := by
        simp [Previews.deliver, hinbox]
      exact .deliver ready (ih hdelivered rfl)

/-- **Arrivals while somebody looks are arrivals before.** -/
theorem looks_iff {text : Option String} :
    Looks ends p text q ↔
      ∃ p', Arrivals p p' ∧ text = (look ends p'.inbox).1 ∧
        q = { p' with inbox := (look ends p'.inbox).2 } := by
  constructor
  · intro h
    induction h with
    | arrive ready h ih =>
        obtain ⟨p', harrivals, htext, hq⟩ := ih
        exact ⟨p', .deliver ready harrivals, htext, hq⟩
    | drop hinbox hm h ih =>
        obtain ⟨p', harrivals, htext, hq⟩ := ih
        exact ⟨_, harrivals.cons hinbox, by rw [look_cons_of_not_ends hm, htext],
          by rw [look_cons_of_not_ends hm, hq]⟩
    | @found p m rest hinbox hm =>
        exact ⟨p, .refl, by rw [hinbox, look_cons_of_ends hm],
          by rw [hinbox, look_cons_of_ends hm]⟩
    | @nothing p hinbox =>
        obtain ⟨generation, running, inbox⟩ := p
        subst hinbox
        exact ⟨_, .refl, rfl, rfl⟩
  · rintro ⟨p', harrivals, rfl, rfl⟩
    induction harrivals with
    | deliver ready h ih => exact .arrive ready ih
    | @refl p =>
        obtain ⟨generation, running, inbox⟩ := p
        induction inbox with
        | nil => exact .nothing rfl
        | cons m rest ih =>
            cases hm : ends m with
            | true =>
                simp only [look_cons_of_ends hm]
                exact .found rfl hm
            | false =>
                simp only [look_cons_of_not_ends hm]
                exact .drop rfl hm ih

/-- **A poll while previews arrive is `poll` after they have arrived.** -/
theorem polls_iff {text : Option String} :
    Looks (endsPoll p.generation) p text q ↔ ∃ p', Arrivals p p' ∧ p'.poll = (text, q) := by
  rw [looks_iff]
  refine exists_congr fun p' => and_congr_right fun harrivals => ?_
  rw [poll, firstText_eq_look, harrivals.generation, Prod.mk.injEq]
  exact and_congr eq_comm eq_comm

/-- **Waiting while previews arrive is `wait` after they have arrived.** -/
theorem waits_iff {text : Option String} :
    Looks (endsWait p.generation) p text q ↔ ∃ p', Arrivals p p' ∧ p'.wait = (text, q) := by
  rw [looks_iff]
  refine exists_congr fun p' => and_congr_right fun harrivals => ?_
  rw [wait, firstCurrent_eq_look, harrivals.generation, Prod.mk.injEq]
  exact and_congr eq_comm eq_comm

/-- All that looking can come to: nothing in the inbox ends it, or the first preview that ends it is
taken out with those in front of it. -/
theorem look_cases (ends : Preview → Bool) (inbox : List Preview) :
    ((∀ m ∈ inbox, ends m = false) ∧ look ends inbox = (.none, [])) ∨
      ∃ skipped m rest, inbox = skipped ++ m :: rest ∧ (∀ m' ∈ skipped, ends m' = false) ∧
        ends m = true ∧ look ends inbox = (m.text, rest) := by
  induction inbox with
  | nil => exact .inl ⟨fun m hm => absurd hm List.not_mem_nil, rfl⟩
  | cons m rest ih =>
      cases hm : ends m with
      | true =>
          exact .inr ⟨[], m, rest, rfl, fun m hm => absurd hm List.not_mem_nil, hm,
            look_cons_of_ends hm rest⟩
      | false =>
          rw [look_cons_of_not_ends hm]
          rcases ih with ⟨hnone, hlook⟩ | ⟨skipped, m', later, rfl, hskipped, hm', hlook⟩
          · exact .inl ⟨List.forall_mem_cons.mpr ⟨hm, hnone⟩, hlook⟩
          · exact .inr ⟨m :: skipped, m', later, rfl, List.forall_mem_cons.mpr ⟨hm, hskipped⟩, hm',
              hlook⟩

/-! ## The invariant -/

/-- The previews that nobody has looked at. -/
def pending (p : Previews) : List Preview := p.running ++ p.inbox

/-- Arriving moves previews and loses none. -/
theorem pending_deliver (p : Previews) (ready : Preview → Bool) :
    (p.deliver ready).pending.Perm p.pending := by
  have hmoved : (p.running.filter (fun m => !ready m) ++ p.running.filter ready).Perm p.running :=
    List.perm_append_comm.trans (List.filter_append_perm ready p.running)
  calc (p.deliver ready).pending
      = p.running.filter (fun m => !ready m) ++ (p.inbox ++ p.running.filter ready) := rfl
    _ |>.Perm (p.running.filter (fun m => !ready m) ++ (p.running.filter ready ++ p.inbox)) :=
        List.perm_append_comm.append_left _
    _ = p.running.filter (fun m => !ready m) ++ p.running.filter ready ++ p.inbox := by simp
    _ |>.Perm p.pending := hmoved.append_right _

theorem Arrivals.pending_perm (h : Arrivals p q) : q.pending.Perm p.pending := by
  induction h with
  | refl => exact .refl _
  | deliver ready h ih => exact ih.trans (pending_deliver _ ready)

/-- What arrives is put behind what was in the inbox. -/
theorem Arrivals.inbox_prefix (h : Arrivals p q) : p.inbox <+: q.inbox := by
  induction h with
  | refl => exact List.prefix_rfl
  | deliver ready h ih => exact (List.prefix_append _ _).trans ih

/-- What previews still owe: they may come to nothing, but whatever text the latest request can
still bring is the one that is owed. No two previews have the same number, and none has a later
number than the latest request. -/
structure Owes (p : Previews) (owed : Option String) : Prop where
  bounded : ∀ m ∈ p.pending, m.generation ≤ p.generation
  distinct : (p.pending.map Preview.generation).Nodup
  current : ∀ m ∈ p.pending, m.generation = p.generation → ∀ text, m.text = some text →
    owed = some text

/-- What is owed after a step, if `owed` was owed before. -/
def Event.owed (owed : Option String) : Event → Option String
  | .requested text => text
  | .cancelled => .none
  | .arrived => owed
  | .answered .none => owed
  | .answered (some _) => .none

variable {owed : Option String}

theorem owes_none : Owes none .none :=
  ⟨fun _ hm => absurd hm List.not_mem_nil, List.nodup_nil, fun _ hm => absurd hm List.not_mem_nil⟩

theorem Owes.perm (h : p.Owes owed) (hperm : q.pending.Perm p.pending)
    (hgeneration : q.generation = p.generation) : q.Owes owed where
  bounded m hm := by
    rw [hgeneration]
    exact h.bounded m (hperm.subset hm)
  distinct := (hperm.map _).nodup_iff.mpr h.distinct
  current m hm hcurrent := h.current m (hperm.subset hm) (hcurrent.trans hgeneration)

/-- Dropping previews leaves no more to be owed. -/
theorem Owes.sublist (h : p.Owes owed) (hsub : q.pending.Sublist p.pending)
    (hgeneration : q.generation = p.generation) : q.Owes owed where
  bounded m hm := by
    rw [hgeneration]
    exact h.bounded m (hsub.subset hm)
  distinct := (hsub.map _).nodup h.distinct
  current m hm hcurrent := h.current m (hsub.subset hm) (hcurrent.trans hgeneration)

/-- A request is owed its own text only: every other preview has an earlier number. -/
theorem Owes.request (h : p.Owes owed) (text : Option String) : (p.request text).Owes text := by
  have hpending : (p.request text).pending.Perm (⟨p.generation + 1, text⟩ :: p.pending) := by
    simp only [pending, Previews.request, List.append_assoc, List.singleton_append]
    exact List.perm_middle
  have hearlier : ∀ m ∈ p.pending, m.generation < p.generation + 1 := fun m hm =>
    Nat.lt_succ_of_le (h.bounded m hm)
  refine ⟨fun m hm => ?_, ?_, fun m hm hcurrent text' htext => ?_⟩
  · rcases List.mem_cons.mp (hpending.subset hm) with rfl | hm
    · exact Nat.le_refl _
    · exact Nat.le_of_lt (hearlier m hm)
  · rw [(hpending.map _).nodup_iff, List.map_cons, List.nodup_cons]
    refine ⟨fun hmem => ?_, h.distinct⟩
    obtain ⟨m, hm, hsame⟩ := List.mem_map.mp hmem
    exact absurd hsame (Nat.ne_of_lt (hearlier m hm))
  · rcases List.mem_cons.mp (hpending.subset hm) with rfl | hm
    · exact htext
    · exact absurd hcurrent (Nat.ne_of_lt (hearlier m hm))

/-- After a cancellation nothing is owed: every preview has an earlier number. -/
theorem Owes.cancel (h : p.Owes owed) : p.cancel.Owes .none where
  bounded m hm := Nat.le_succ_of_le (h.bounded m hm)
  distinct := h.distinct
  current m hm hcurrent := absurd hcurrent (Nat.ne_of_lt (Nat.lt_succ_of_le (h.bounded m hm)))

/-- The latest preview is the only one with its number. -/
theorem Owes.eq_of_generation (h : p.Owes owed) {m m' : Preview} (hm : m ∈ p.pending)
    (hm' : m' ∈ p.pending) (hsame : m.generation = m'.generation) : m = m' :=
  List.inj_on_of_nodup_map h.distinct hm hm' hsame

/-- The preview that is taken out of the inbox was the only one with its number. -/
theorem Owes.ne_generation (h : p.Owes owed) {skipped rest : List Preview} {m : Preview}
    (hinbox : p.inbox = skipped ++ m :: rest) :
    ∀ m' ∈ ({ p with inbox := rest } : Previews).pending, m'.generation ≠ m.generation := by
  intro m' hm' hsame
  have hdistinct := h.distinct
  rw [pending, hinbox, ← List.append_assoc, List.map_append, List.map_cons, List.nodup_middle,
    List.nodup_cons] at hdistinct
  refine hdistinct.1 ?_
  rw [← hsame, ← List.map_append]
  refine List.mem_map_of_mem ?_
  rcases List.mem_append.mp hm' with hm' | hm'
  · simp [hm']
  · simp [show m' ∈ rest from hm']

/-- **Looking up to a current preview answers with what is owed**, and then no more is owed. -/
theorem Owes.look (h : p.Owes owed)
    (hends : ∀ m, ends m = true → m.generation = p.generation) :
    (∀ text, (look ends p.inbox).1 = some text → owed = some text) ∧
      Owes { p with inbox := (Previews.look ends p.inbox).2 }
        (Event.owed owed (.answered (Previews.look ends p.inbox).1)) := by
  rcases look_cases ends p.inbox with ⟨-, hlook⟩ | ⟨skipped, m, rest, hinbox, -, hm, hlook⟩
  · rw [hlook]
    have hsub : ({ p with inbox := [] } : Previews).pending.Sublist p.pending :=
      (List.nil_sublist _).append_left _
    exact ⟨fun text htext => absurd htext (by simp), h.sublist hsub rfl⟩
  · rw [hlook]
    have hmem : m ∈ p.pending := by simp [pending, hinbox]
    have hcurrent : m.generation = p.generation := hends m hm
    have hsub : ({ p with inbox := rest } : Previews).pending.Sublist p.pending := by
      rw [pending, pending, hinbox]
      exact ((List.sublist_cons_self m rest).trans (List.sublist_append_right _ _)).append_left _
    have hrest := h.sublist hsub rfl
    refine ⟨fun text htext => h.current m hmem hcurrent text htext, ?_⟩
    cases htext : m.text with
    | none => exact hrest
    | some text =>
        -- The preview that was taken out was the only one with the current number.
        refine ⟨hrest.bounded, hrest.distinct, fun m' hm' hcurrent' => ?_⟩
        exact absurd (hcurrent'.trans hcurrent.symm) (h.ne_generation hinbox m' hm')

/-- A step of an answer, polled or waited for, is a look after some arrivals. -/
theorem Step.exists_look {text : Option String} (h : Step p (.answered text) q) :
    ∃ ends p', Arrivals p p' ∧ (ends = endsPoll p.generation ∨ ends = endsWait p.generation) ∧
      text = (look ends p'.inbox).1 ∧ q = { p' with inbox := (look ends p'.inbox).2 } := by
  cases h with
  | poll h =>
      obtain ⟨p', harrivals, htext, hq⟩ := looks_iff.mp h
      exact ⟨_, p', harrivals, .inl rfl, htext, hq⟩
  | wait h =>
      obtain ⟨p', harrivals, htext, hq⟩ := looks_iff.mp h
      exact ⟨_, p', harrivals, .inr rfl, htext, hq⟩

/-- Polls and waits end on previews with the current number only. -/
theorem generation_of_ends {generation : Nat} {m : Preview}
    (hends : ends = endsPoll generation ∨ ends = endsWait generation) (hm : ends m = true) :
    m.generation = generation := by
  rcases hends with rfl | rfl
  · simpa [endsPoll] using (Bool.and_eq_true _ _ |>.mp hm).1
  · simpa [endsWait] using hm

/-- **A step keeps account of what is owed**, and answers with nothing else. -/
theorem Owes.step (h : p.Owes owed) {e : Event} (hstep : Step p e q) :
    q.Owes (e.owed owed) ∧ ∀ text, e = .answered (some text) → owed = some text := by
  cases e with
  | requested text =>
      cases hstep
      exact ⟨h.request text, fun _ he => by cases he⟩
  | cancelled =>
      cases hstep
      exact ⟨h.cancel, fun _ he => by cases he⟩
  | arrived =>
      cases hstep with
      | arrive ready => exact ⟨h.perm (pending_deliver p ready) rfl, fun _ he => by cases he⟩
  | answered answer =>
      obtain ⟨ends, p', harrivals, hends, rfl, rfl⟩ := hstep.exists_look
      have hp' : p'.Owes owed := h.perm harrivals.pending_perm harrivals.generation
      have hcurrent : ∀ m, ends m = true → m.generation = p'.generation := fun m hm => by
        rw [harrivals.generation]
        exact generation_of_ends hends hm
      obtain ⟨hanswer, howes⟩ := hp'.look hcurrent
      exact ⟨howes, fun text he => hanswer text (Event.answered.inj he)⟩

/-- Between a request and its answer there are arrivals only, and answers that say nothing. -/
def Event.IsQuiet (e : Event) : Prop := e = .arrived ∨ e = .answered .none

/-- **What is owed after a run is the text of its last request**, and only arrivals and empty
answers have followed that. -/
theorem exists_owes {events : List Event} (h : Run Step Previews.none events p) :
    ∃ owed, p.Owes owed ∧ ∀ text, owed = some text →
      ∃ earlier between, events = earlier ++ .requested (some text) :: between ∧
        ∀ e ∈ between, e.IsQuiet := by
  induction h with
  | start => exact ⟨.none, owes_none, fun text hnone => by cases hnone⟩
  | @next events p q e h hstep ih =>
      obtain ⟨owed, howes, hhistory⟩ := ih
      refine ⟨e.owed owed, (howes.step hstep).1, fun text howed => ?_⟩
      have hquiet : e.IsQuiet → owed = some text → ∃ earlier between,
          events ++ [e] = earlier ++ .requested (some text) :: between ∧
            ∀ e ∈ between, e.IsQuiet := by
        intro he htext
        obtain ⟨earlier, between, rfl, hbetween⟩ := hhistory text htext
        refine ⟨earlier, between ++ [e], by simp, fun e' he' => ?_⟩
        rcases List.mem_append.mp he' with he' | he'
        · exact hbetween e' he'
        · rwa [List.mem_singleton.mp he']
      cases e with
      | requested text' =>
          have htext : text' = some text := howed
          exact ⟨events, [], by rw [htext], fun _ he => absurd he List.not_mem_nil⟩
      | cancelled => cases howed
      | arrived => exact hquiet (.inl rfl) howed
      | answered answer =>
          cases answer with
          | none => exact hquiet (.inr rfl) howed
          | some _ => cases howed

/-! ## The current preview is not lost -/

/-- Polls and waits end on a current preview unless it was declined. -/
theorem ends_of_generation {generation : Nat} {m : Preview}
    (hends : ends = endsPoll generation ∨ ends = endsWait generation)
    (hm : m.generation = generation) (htext : m.text ≠ .none) : ends m = true := by
  rcases hends with rfl | rfl
  · simpa [endsPoll, hm] using Option.isSome_iff_ne_none.mpr htext
  · simpa [endsWait] using hm

/-- A look takes a current preview out of the inbox only to answer with its text, or because it was
declined. -/
theorem mem_look {generation : Nat} {m : Preview} {inbox : List Preview}
    (hends : ends = endsPoll generation ∨ ends = endsWait generation) (hmem : m ∈ inbox)
    (hm : m.generation = generation) :
    m ∈ (look ends inbox).2 ∨ m.text = .none ∨ (look ends inbox).1 = m.text := by
  by_cases htext : m.text = .none
  · exact .inr (.inl htext)
  · have hend : ends m = true := ends_of_generation hends hm htext
    rcases look_cases ends inbox with ⟨hnone, -⟩ | ⟨skipped, m', rest, rfl, hskipped, -, hlook⟩
    · exact absurd hend (by simp [hnone m hmem])
    · rw [hlook]
      rcases List.mem_append.mp hmem with hmem | hmem
      · exact absurd hend (by simp [hskipped m hmem])
      · rcases List.mem_cons.mp hmem with rfl | hmem
        · exact .inr (.inr rfl)
        · exact .inl hmem

/-- **A step loses no current preview.** What was in the inbox stays there, and what was running
goes on or comes into the inbox, unless the step answers with its text or it was declined. -/
theorem Step.keeps {e : Event} (hstep : Step p e q) {m : Preview}
    (hm : m.generation = p.generation) :
    (m ∈ p.inbox → m ∈ q.inbox ∨ m.text = .none ∨ e = .answered m.text) ∧
      (m ∈ p.running → m ∈ q.running ∨ m ∈ q.inbox ∨ m.text = .none ∨ e = .answered m.text) := by
  cases e with
  | requested text =>
      cases hstep
      exact ⟨.inl, fun hmem => .inl (List.mem_append_left _ hmem)⟩
  | cancelled =>
      cases hstep
      exact ⟨.inl, .inl⟩
  | arrived =>
      cases hstep with
      | arrive ready =>
          refine ⟨fun hmem => .inl (List.mem_append_left _ hmem), fun hmem => ?_⟩
          cases hready : ready m with
          | true => exact .inr (.inl (List.mem_append_right _ (List.mem_filter.mpr ⟨hmem, hready⟩)))
          | false => exact .inl (List.mem_filter.mpr ⟨hmem, by simp [hready]⟩)
  | answered answer =>
      obtain ⟨ends, p', harrivals, hends, rfl, rfl⟩ := hstep.exists_look
      have hlook : m ∈ p'.inbox → m ∈ (look ends p'.inbox).2 ∨ m.text = .none ∨
          Event.answered (look ends p'.inbox).1 = .answered m.text := fun hmem =>
        (mem_look hends hmem hm).imp_right (Or.imp_right (congrArg Event.answered))
      refine ⟨fun hmem => hlook (harrivals.inbox_prefix.subset hmem), fun hmem => ?_⟩
      have hpending : m ∈ p'.pending :=
        harrivals.pending_perm.symm.subset (List.mem_append_left _ hmem)
      exact (List.mem_append.mp hpending).imp_right hlook

/-- **A current preview in the inbox is the next answer**, whatever stale ones precede it and
whatever arrives in between. -/
theorem Owes.answered (h : p.Owes owed) {m : Preview} (hmem : m ∈ p.inbox)
    (hm : m.generation = p.generation) {text : String} (htext : m.text = some text)
    {answer : Option String} (hstep : Step p (.answered answer) q) : answer = some text := by
  obtain ⟨ends, p', harrivals, hends, rfl, -⟩ := hstep.exists_look
  have hinbox : m ∈ p'.inbox := harrivals.inbox_prefix.subset hmem
  have hend : ends m = true := ends_of_generation hends hm (by simp [htext])
  rcases look_cases ends p'.inbox with ⟨hnone, -⟩ | ⟨skipped, m', rest, hsplit, -, hm', hlook⟩
  · exact absurd hend (by simp [hnone m hinbox])
  · have hp' : p'.Owes owed := h.perm harrivals.pending_perm harrivals.generation
    have hfirst : m' ∈ p'.pending := List.mem_append_right _ (by simp [hsplit])
    have hsame : m' = m := hp'.eq_of_generation hfirst (List.mem_append_right _ hinbox)
      ((generation_of_ends hends hm').trans hm.symm)
    rw [hlook, hsame, htext]

theorem step_poll (p : Previews) : Step p (.answered p.poll.1) p.poll.2 :=
  .poll (polls_iff.mpr ⟨p, .refl, rfl⟩)

theorem step_wait (p : Previews) : Step p (.answered p.wait.1) p.wait.2 :=
  .wait (waits_iff.mpr ⟨p, .refl, rfl⟩)

end Previews

/-! ## Shells -/

namespace Shell

/-- A step of a shell, with what it means for the previews. Requesting the preview of a line is
answered with whether one was requested; if not, earlier ones are given up. Nothing else that is
done with lines touches the previews. -/
inductive Step : Shell → Option Previews.Event → Shell → Prop
  | request {s s' : Shell} {buffer : String} {text : Option String}
      (htext : (s.findPreview buffer).1 = some text) (h : s.requestPreview buffer = (true, s')) :
      Step s (some (.requested text)) s'
  | refuse {s s' : Shell} {buffer : String} (h : s.requestPreview buffer = (false, s')) :
      Step s (some .cancelled) s'
  | arrive {s : Shell} (ready : Preview → Bool) :
      Step s (some .arrived) { s with previews := s.previews.deliver ready }
  | poll {s : Shell} {text : Option String} {q : Previews}
      (h : Previews.Looks (Previews.endsPoll s.previews.generation) s.previews text q) :
      Step s (some (.answered text)) { s with previews := q }
  | wait {s : Shell} {text : Option String} {q : Previews}
      (h : Previews.Looks (Previews.endsWait s.previews.generation) s.previews text q) :
      Step s (some (.answered text)) { s with previews := q }
  | hints {s : Shell} (buffer : String) : Step s none (s.hints buffer).2
  | autocomplete {s : Shell} (buffer : String) : Step s none (s.autocomplete buffer).2
  | dispatch {s : Shell} (line : String) : Step s none (s.dispatch line).2
  | submit {s : Shell} (line : String) : Step s none (s.submit line).2

@[simp] theorem previews_findPreview (s : Shell) (buffer : String) :
    (s.findPreview buffer).2.previews = s.previews := by
  unfold findPreview
  split
  · rfl
  · rfl
  · dsimp only
    split <;> rfl

@[simp] theorem previews_hints (s : Shell) (buffer : String) :
    (s.hints buffer).2.previews = s.previews := by
  unfold hints
  split <;> rfl

@[simp] theorem previews_autocomplete (s : Shell) (buffer : String) :
    (s.autocomplete buffer).2.previews = s.previews := by
  unfold autocomplete
  split
  · rfl
  · dsimp only
    split <;> rfl

@[simp] theorem previews_dispatch (s : Shell) (line : String) :
    (s.dispatch line).2.previews = s.previews := by
  unfold dispatch
  split
  · rfl
  · rfl
  · dsimp only
    split
    · rfl
    · split <;> rfl

@[simp] theorem previews_submit (s : Shell) (line : String) :
    (s.submit line).2.previews = s.previews := by
  rw [← previews_dispatch s line]
  unfold submit
  split
  · rename_i h
    rw [h]
  · rfl

/-- If a line has a preview, it is requested. -/
theorem requestPreview_of_some {s : Shell} {buffer : String} {text : Option String}
    (h : (s.findPreview buffer).1 = some text) :
    (s.requestPreview buffer).1 = true ∧
      (s.requestPreview buffer).2.previews = s.previews.request text := by
  have hprevious := previews_findPreview s buffer
  unfold requestPreview
  cases hfind : s.findPreview buffer with
  | mk found s' =>
      rw [hfind] at h hprevious
      subst h
      exact ⟨rfl, congrArg (Previews.request · text) hprevious⟩

/-- If a line has no preview, earlier ones are given up. -/
theorem requestPreview_of_none {s : Shell} {buffer : String} (h : (s.findPreview buffer).1 = none) :
    (s.requestPreview buffer).1 = false ∧
      (s.requestPreview buffer).2.previews = s.previews.cancel := by
  have hprevious := previews_findPreview s buffer
  unfold requestPreview
  cases hfind : s.findPreview buffer with
  | mk found s' =>
      rw [hfind] at h hprevious
      subst h
      exact ⟨rfl, congrArg Previews.cancel hprevious⟩

/-- **A shell answers as it polls and as it waits**, after the previews have arrived that arrive
while it looks. -/
theorem Step.answered_iff {s s' : Shell} {text : Option String} :
    Step s (some (.answered text)) s' ↔ ∃ p, Previews.Arrivals s.previews p ∧
      (({ s with previews := p } : Shell).pollPreview = (text, s') ∨
        ({ s with previews := p } : Shell).waitPreview = (text, s')) := by
  constructor
  · intro h
    cases h with
    | poll h =>
        obtain ⟨p, harrivals, hpoll⟩ := Previews.polls_iff.mp h
        exact ⟨p, harrivals, .inl (by simp [pollPreview, hpoll])⟩
    | wait h =>
        obtain ⟨p, harrivals, hwait⟩ := Previews.waits_iff.mp h
        exact ⟨p, harrivals, .inr (by simp [waitPreview, hwait])⟩
  · rintro ⟨p, harrivals, hpoll | hwait⟩
    · obtain ⟨rfl, rfl⟩ := Prod.mk.inj hpoll
      exact .poll (Previews.polls_iff.mpr ⟨p, harrivals, rfl⟩)
    · obtain ⟨rfl, rfl⟩ := Prod.mk.inj hwait
      exact .wait (Previews.waits_iff.mpr ⟨p, harrivals, rfl⟩)

theorem step_pollPreview (s : Shell) :
    Step s (some (.answered s.pollPreview.1)) s.pollPreview.2 :=
  Step.answered_iff.mpr ⟨s.previews, .refl, .inl rfl⟩

/-- **A step of a shell is a step of its previews**, or leaves them as they are. -/
theorem Step.previews {s s' : Shell} {e : Option Previews.Event} (h : Step s e s') :
    (∃ e', e = some e' ∧ Previews.Step s.previews e' s'.previews) ∨
      (e = none ∧ s'.previews = s.previews) := by
  cases h with
  | request htext h =>
      obtain ⟨-, hprevious⟩ := requestPreview_of_some htext
      rw [h] at hprevious
      rw [hprevious]
      exact .inl ⟨_, rfl, .request _⟩
  | @refuse _ buffer h =>
      cases hfind : (s.findPreview buffer).1 with
      | some text =>
          have hrequested := (requestPreview_of_some hfind).1
          rw [h] at hrequested
          cases hrequested
      | none =>
          obtain ⟨-, hprevious⟩ := requestPreview_of_none hfind
          rw [h] at hprevious
          rw [hprevious]
          exact .inl ⟨_, rfl, .cancel⟩
  | arrive ready => exact .inl ⟨_, rfl, .arrive ready⟩
  | poll h => exact .inl ⟨_, rfl, .poll h⟩
  | wait h => exact .inl ⟨_, rfl, .wait h⟩
  | hints buffer => exact .inr ⟨rfl, previews_hints s buffer⟩
  | autocomplete buffer => exact .inr ⟨rfl, previews_autocomplete s buffer⟩
  | dispatch line => exact .inr ⟨rfl, previews_dispatch s line⟩
  | submit line => exact .inr ⟨rfl, previews_submit s line⟩

/-- **A run of a shell is a run of its previews.** -/
theorem run_previews {s₀ s : Shell} {events : List (Option Previews.Event)}
    (hstart : s₀.previews = Previews.none) (h : Run Step s₀ events s) :
    Run Previews.Step Previews.none (events.filterMap id) s.previews := by
  induction h with
  | start =>
      rw [hstart]
      exact .start
  | next h hstep ih =>
      rw [List.filterMap_append]
      rcases hstep.previews with ⟨e, rfl, hprevious⟩ | ⟨rfl, hprevious⟩
      · exact .next ih hprevious
      · simpa [hprevious] using ih

theorem previews_ofRegistry {r : Registry} {supply : Supply} {calls : CallLog} {s : Shell}
    (h : ofRegistry r supply calls = .ok s) : s.previews = Previews.none := by
  unfold ofRegistry at h
  cases hbuiltins : r.withBuiltins supply with
  | error e =>
      rw [hbuiltins] at h
      cases h
  | ok result =>
      rw [hbuiltins] at h
      cases h
      rfl

end Shell

/-- **Only the latest preview is shown, and it is not lost.** In whatever order previews are
requested, given up, arrive and are looked for:

* an answer is the text of the last request, and nothing but arrivals and empty answers has come
  since, no cancellation and no other answer;
* two answers are of different requests;
* a preview with the current number leaves the inbox only as an answer or because it was declined,
  and one that is running arrives or goes on;
* one that is in the inbox is what the next poll or wait answers, whatever stale previews precede
  it;
* once a shell has refused to request a preview, it shows none until it has requested one. -/
theorem only_latest_preview :
    (∀ events p, Run Previews.Step Previews.none events p →
      (∀ before text after, events = before ++ .answered (some text) :: after →
        ∃ earlier between, before = earlier ++ .requested (some text) :: between ∧
          ∀ e ∈ between, e = .arrived ∨ e = .answered none) ∧
      (∀ before text between text' after,
        events = before ++ .answered (some text) :: between ++ .answered (some text') :: after →
        .requested (some text') ∈ between) ∧
      (∀ e q, Previews.Step p e q → ∀ m : Preview, m.generation = p.generation →
        (m ∈ p.inbox → m ∈ q.inbox ∨ m.text = none ∨ e = .answered m.text) ∧
        (m ∈ p.running →
          m ∈ q.running ∨ m ∈ q.inbox ∨ m.text = none ∨ e = .answered m.text)) ∧
      ∀ m ∈ p.inbox, m.generation = p.generation → ∀ text, m.text = some text →
        p.poll.1 = some text ∧ p.wait.1 = some text ∧
          ∀ answer q, Previews.Step p (.answered answer) q → answer = some text) ∧
    ∀ r supply calls s₀, Shell.ofRegistry r supply calls = .ok s₀ →
      ∀ events s, Run Shell.Step s₀ events s → ∀ before between text after,
        events = before ++ some .cancelled :: between ++ some (.answered (some text)) :: after →
        some (.requested (some text)) ∈ between := by
  have hanswer : ∀ {events p}, Run Previews.Step Previews.none events p →
      ∀ before text after, events = before ++ .answered (some text) :: after →
        ∃ earlier between, before = earlier ++ .requested (some text) :: between ∧
          ∀ e ∈ between, e.IsQuiet := by
    rintro events p h before text after rfl
    obtain ⟨p₁, p₂, hbefore, hstep⟩ := h.exists_step
    obtain ⟨owed, howes, hhistory⟩ := Previews.exists_owes hbefore
    exact hhistory text ((howes.step hstep).2 text rfl)
  -- An event that is not quiet precedes the request whose text is the next answer.
  have hbetween : ∀ {events p}, Run Previews.Step Previews.none events p →
      ∀ before x between text after, ¬ x.IsQuiet → (∀ text, x ≠ .requested text) →
        events = before ++ x :: between ++ .answered (some text) :: after →
        .requested (some text) ∈ between := by
    intro events p h before x between text after hquiet hrequest hevents
    obtain ⟨earlier, quiet, hsplit, hall⟩ := hanswer h _ text after hevents
    refine mem_between hsplit fun hx => ?_
    rcases List.mem_cons.mp hx with hx | hx
    · exact hrequest _ hx
    · exact hquiet (hall x hx)
  refine ⟨fun events p h => ⟨hanswer h, ?_, fun e q hstep m hm => hstep.keeps hm, ?_⟩, ?_⟩
  · intro before text between text' after hevents
    exact hbetween h before _ between text' after (by simp [Previews.Event.IsQuiet]) (by simp)
      hevents
  · intro m hmem hm text htext
    obtain ⟨owed, howes, -⟩ := Previews.exists_owes h
    exact ⟨howes.answered hmem hm htext (Previews.step_poll p),
      howes.answered hmem hm htext (Previews.step_wait p),
      fun answer q hstep => howes.answered hmem hm htext hstep⟩
  · intro r supply calls s₀ hstart events s h before between text after hevents
    have hrun := Shell.run_previews (Shell.previews_ofRegistry hstart) h
    have hmem := hbetween hrun (before.filterMap id) .cancelled (between.filterMap id) text
      (after.filterMap id) (by simp [Previews.Event.IsQuiet]) (by simp) (by simp [hevents])
    simpa using hmem

/-- A shell with the commands `help <topic>`, which has a preview, and `exit`. -/
def topicShell : Shell :=
  let topic : Scheme SegmentId := [.keyword ⟨0, "help", none⟩,
    .var ⟨1, "topic", none, [], none, false, none, none⟩]
  let leave : Scheme SegmentId := [.keyword ⟨2, "exit", none⟩]
  ⟨⟨[⟨"help", none, topic, (Graph.compile 0 topic).1, fun _ => .ok .silent,
      some fun i => some ("about " ++ i.input)⟩,
    ⟨"exit", none, leave, (Graph.compile 1 leave).1, fun _ => .ok .exit, none⟩]⟩,
    Previews.none, []⟩

/-- A stale preview arrives before the latest one, which is the answer nevertheless; and a shell
that refuses one line has requested the preview of another one when it answers. -/
theorem only_latest_preview_topic :
    (∃ p, Run Previews.Step Previews.none
        [.requested (some "old"), .requested (some "new"), .arrived, .arrived] p ∧
      p.inbox = [⟨1, some "old"⟩, ⟨2, some "new"⟩] ∧ p.generation = 2 ∧
      p.poll.1 = some "new") ∧
    Shell.ofRegistry topicShell.registry ⟨3, 2⟩ [] = .ok topicShell ∧
    ∃ s, Run Shell.Step topicShell
        [some .cancelled, some (.requested (some "about help me")), some .arrived,
          some (.answered (some "about help me"))] s ∧
      some (Previews.Event.requested (some "about help me"))
        ∈ [some (.requested (some "about help me")), some .arrived] := by
  have hshell : Shell.ofRegistry topicShell.registry ⟨3, 2⟩ [] = .ok topicShell := rfl
  refine ⟨?_, hshell, ?_⟩
  · have hrun : Run Previews.Step Previews.none
        [.requested (some "old"), .requested (some "new"), .arrived, .arrived]
        (((Previews.none.request (some "old")).request (some "new")).deliver
          (fun m => m.generation == 1) |>.deliver fun _ => true) :=
      .next (.next (.next (.next .start (.request _)) (.request _)) (.arrive _)) (.arrive _)
    refine ⟨_, hrun, rfl, rfl, ?_⟩
    exact ((only_latest_preview.1 _ _ hrun).2.2.2 ⟨2, some "new"⟩ (by decide) rfl "new" rfl).1
  · -- The open quote is refused, and the other line is requested of the shell after that.
    let refused : Shell := { topicShell with previews := topicShell.previews.cancel }
    have hrefused : topicShell.requestPreview "'" = (false, refused) := rfl
    have hwords : Line.words .strict "help me" = .ok ["help", "me"] := by cbv
    have hfound : (refused.findPreview "help me").1 = some (some "about help me") := by
      simp only [refused, topicShell, Shell.findPreview, hwords, Shell.resolve, Registry.resolve,
        Registry.matchAll, Registry.matchFrom, Session.matches, Match.distinct_eq_eraseDupsBy]
      decide +kernel
    obtain ⟨hrequested, hpreviews⟩ := Shell.requestPreview_of_some hfound
    have hanswer : (refused.requestPreview "help me").2.deliverPreviews.pollPreview.1
        = some "about help me" := by
      unfold Shell.deliverPreviews
      rw [hpreviews]
      rfl
    have hpoll := Shell.step_pollPreview (refused.requestPreview "help me").2.deliverPreviews
    rw [hanswer] at hpoll
    have hrun : Run Shell.Step topicShell
        [some .cancelled, some (.requested (some "about help me")), some .arrived,
          some (.answered (some "about help me"))] _ :=
      .next (.next (.next (.next .start (.refuse hrefused))
        (.request hfound (Prod.ext hrequested rfl))) (.arrive fun _ => true)) hpoll
    exact ⟨_, hrun, only_latest_preview.2 _ _ _ _ hshell _ _ hrun [] _ _ [] rfl⟩

end CommandGrammar
