import CommandGrammar.Proofs.Matching.Outcome

/-!
# `Proofs.Matching.Beginnings` — a token that is being typed

Whether a segment accepts a token may change with every character, in both directions: `ru` is not
the keyword `run`, and `runs` is not either. What cannot happen is that a token becomes acceptable,
or the beginning of something acceptable, after it was neither. Exceptions are the types whose
tokens are recognised as a whole, unless candidates say where they lead.

## Contents
- `startsWith_beginning`.
- `Variable.Guided`, `Variable.check_iff`: why a variable does not refuse a token.
- `Variable.isFull_check_iff`: which tokens a variable accepts.
- `Solid.Meets`, `Solid.Meets.beginning`.
-/

namespace CommandGrammar

/-! ## Beginnings of texts -/

theorem startsWith_iff {text token : String} :
    startsWith text token = true ↔ token.toList <+: text.toList :=
  List.isPrefixOf_iff_prefix

theorem startsWith_self (text : String) : startsWith text text = true :=
  startsWith_iff.mpr (List.prefix_refl _)

/-- What begins with a text begins with its beginnings. -/
theorem startsWith_beginning {text token more : String}
    (h : startsWith text (token ++ more) = true) : startsWith text token = true := by
  rw [startsWith_iff, String.toList_append] at h
  rw [startsWith_iff]
  exact (List.prefix_append _ _).trans h

/-! ## Variables -/

namespace Variable

/-- Numbers, booleans and dates are not recognised by their beginnings, so a variable of such a type
needs candidates. -/
def Guided (v : Variable SegmentId) : Prop :=
  v.type = some .number ∨ v.type = some .boolean ∨ v.type = some .date → v.isEnumerated = true

instance (v : Variable SegmentId) : Decidable v.Guided :=
  inferInstanceAs (Decidable (_ → _))

/-- A variable accepts a token or stops at it for one of four reasons. -/
theorem check_iff (v : Variable SegmentId) (token : String) (candidates : List String) :
    (v.check token candidates).isFull = true ∨ (v.check token candidates).isPartial = true ↔
      (∃ x ∈ candidates, startsWith x token = true) ∨ (token = "" ∧ v.type ≠ some .string) ∨
      (v.type = some .flag ∧ startsWith v.name token = true) ∨
      (v.isEnumerated = false ∧ v.accepts token = true) := by
  have hmatching : (candidates.filter fun x => startsWith x token).isEmpty = false ↔
      ∃ x ∈ candidates, startsWith x token = true := by
    rw [List.isEmpty_eq_false_iff_exists_mem]
    simp only [List.mem_filter]
  simp only [check, Bool.or_eq_true, Bool.and_eq_true, Bool.not_eq_true', beq_iff_eq, bne_iff_ne,
    hmatching, String.isEmpty_iff]
  constructor
  · rintro ((haccepted | ⟨hflag, hname⟩) | ((⟨hempty, hstring⟩ | hsome) | ⟨⟨hflag, hname⟩, -⟩))
    · cases henumerated : v.isEnumerated with
      | true =>
          rw [henumerated, if_pos rfl, Bool.and_eq_true, List.contains_iff_mem,
            List.mem_filter] at haccepted
          exact Or.inl ⟨token, haccepted.1⟩
      | false =>
          rw [henumerated, if_neg (by simp)] at haccepted
          exact Or.inr (Or.inr (Or.inr ⟨rfl, haccepted⟩))
    · exact Or.inr (Or.inr (Or.inl ⟨hflag, hname ▸ startsWith_self token⟩))
    · exact Or.inr (Or.inl ⟨hempty, hstring⟩)
    · exact Or.inl hsome
    · exact Or.inr (Or.inr (Or.inl ⟨hflag, hname⟩))
  · rintro (hsome | ⟨hempty, hstring⟩ | ⟨hflag, hname⟩ | ⟨henumerated, haccepts⟩)
    · exact Or.inr (Or.inl (Or.inr hsome))
    · exact Or.inr (Or.inl (Or.inl ⟨hempty, hstring⟩))
    · by_cases hwhole : token = v.name
      · exact Or.inl (Or.inr ⟨hflag, hwhole⟩)
      · exact Or.inr (Or.inr ⟨⟨hflag, hname⟩, hwhole⟩)
    · left
      left
      rw [henumerated]
      exact haccepts

/-- A variable accepts the tokens of its type, and of those, if it has candidates, only its
candidates. A flag's name is accepted even if it is not among them. -/
theorem isFull_check_iff (v : Variable SegmentId) (token : String) (candidates : List String) :
    (v.check token candidates).isFull = true ↔ v.accepts token = true ∧
      (v.isEnumerated = true → v.type = some .flag ∨ token ∈ candidates) := by
  have hmatching : (candidates.filter fun x => startsWith x token).contains token = true ↔
      token ∈ candidates := by
    rw [List.contains_iff_mem, List.mem_filter, and_iff_left (startsWith_self token)]
  have hflag : v.type = some .flag → (v.accepts token = true ↔ token = v.name) := by
    intro htype
    simp [accepts, htype]
  have huntyped : v.type = none → v.accepts token = true := by
    intro htype
    simp [accepts, htype]
  simp only [check, Bool.or_eq_true, Bool.and_eq_true, beq_iff_eq]
  cases henumerated : v.isEnumerated with
  | false =>
      simp only [Bool.false_eq_true, if_false, false_implies, and_true]
      exact or_iff_left_of_imp fun h => (hflag h.1).mpr h.2
  | true =>
      simp only [if_true, Bool.and_eq_true, Bool.or_eq_true, hmatching, Option.isNone_iff_eq_none,
        true_implies]
      constructor
      · rintro (⟨hmem, huntyped' | haccepts⟩ | ⟨htype, hname⟩)
        · exact ⟨huntyped huntyped', Or.inr hmem⟩
        · exact ⟨haccepts, Or.inr hmem⟩
        · exact ⟨(hflag htype).mpr hname, Or.inl htype⟩
      · rintro ⟨haccepts, htype | hmem⟩
        · exact Or.inr ⟨htype, (hflag htype).mp haccepts⟩
        · exact Or.inl ⟨hmem, Or.inr haccepts⟩

/-- Unless the declared type is one of the three that need candidates, a variable without candidates
accepts every token, or it is a flag. -/
theorem accepts_cases {v : Variable SegmentId} (h : v.Guided) {token : String}
    (henumerated : v.isEnumerated = false) (haccepts : v.accepts token = true) :
    (∀ other, v.accepts other = true) ∨ v.type = some .flag ∧ token = v.name := by
  have hneeds : ¬ (v.type = some .number ∨ v.type = some .boolean ∨ v.type = some .date) := by
    intro htype
    rw [h htype] at henumerated
    exact absurd henumerated (by simp)
  unfold accepts at haccepts ⊢
  cases htype : v.type with
  | none => exact Or.inl fun _ => rfl
  | some type =>
      rw [htype] at hneeds haccepts
      cases type with
      | any => exact Or.inl fun _ => rfl
      | string => exact Or.inl fun _ => rfl
      | flag => exact Or.inr ⟨rfl, by simpa using haccepts⟩
      | number => exact absurd (Or.inl rfl) hneeds
      | boolean => exact absurd (Or.inr (Or.inl rfl)) hneeds
      | date => exact absurd (Or.inr (Or.inr rfl)) hneeds

end Variable

/-! ## Segments -/

namespace Solid

variable {c : Variable SegmentId → List String} {t : Solid} {token more : String}

/-- The segment accepts the last token of a line, or stops at it. -/
def Meets (c : Variable SegmentId → List String) (t : Solid) (token : String) : Prop :=
  t.accepts c token = true ∨ t.stops c token true = true

theorem meets_keyword {k : Keyword SegmentId} :
    (Solid.keyword k).Meets c token ↔ startsWith k.name token = true := by
  simp only [Meets, accepts, stops, Bool.and_eq_true, bne_iff_ne, beq_iff_eq]
  constructor
  · rintro (rfl | ⟨⟨-, hname⟩, -⟩)
    · exact startsWith_self _
    · exact hname
  · intro hname
    by_cases hwhole : token = k.name
    · exact Or.inl hwhole
    · exact Or.inr ⟨⟨hwhole, hname⟩, trivial⟩

theorem meets_var {v : Variable SegmentId} :
    (Solid.var v).Meets c token ↔
      (v.check token (c v)).isFull = true ∨ (v.check token (c v)).isPartial = true := by
  simp only [Meets, accepts, stops, Bool.and_eq_true, Bool.not_eq_true']
  cases (v.check token (c v)).isFull <;> simp

/-- **A segment that meets a token meets its beginnings**, if it is a keyword or a variable that
has candidates where it needs them. -/
theorem Meets.beginning (hguided : ∀ v, t = .var v → v.Guided) (h : t.Meets c (token ++ more)) :
    t.Meets c token := by
  cases t with
  | keyword k =>
      rw [meets_keyword] at h ⊢
      exact startsWith_beginning h
  | var v =>
      rw [meets_var, Variable.check_iff] at h ⊢
      rcases h with ⟨x, hx, hstart⟩ | ⟨hempty, hstring⟩ | ⟨hflag, hname⟩ | ⟨henumerated, haccepts⟩
      · exact Or.inl ⟨x, hx, startsWith_beginning hstart⟩
      · rw [String.append_eq_empty_iff] at hempty
        exact Or.inr (Or.inl ⟨hempty.1, hstring⟩)
      · exact Or.inr (Or.inr (Or.inl ⟨hflag, startsWith_beginning hname⟩))
      · rcases Variable.accepts_cases (hguided v rfl) henumerated haccepts with hall | ⟨hflag, hname⟩
        · exact Or.inr (Or.inr (Or.inr ⟨henumerated, hall token⟩))
        · have hstart : startsWith v.name (token ++ more) = true := hname ▸ startsWith_self _
          exact Or.inr (Or.inr (Or.inl ⟨hflag, startsWith_beginning hstart⟩))

end Solid

end CommandGrammar
