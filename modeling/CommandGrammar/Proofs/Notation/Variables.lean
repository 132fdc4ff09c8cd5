import CommandGrammar.Proofs.Notation.Reading
import CommandGrammar.Proofs.Segment.Variables

/-!
# `Proofs.Notation.Variables` — the variables that the notation can declare

Every variable of a scheme that is read comes from a declaration, and a declaration has choices or a
type, never both.

## Contents
- `Notation.exists_declaration`: the variables of a text in the notation.
- `Notation.exclusive_of_parse`: none of them has both choices and a type.
-/

namespace CommandGrammar

namespace Notation

theorem Rows.mem_variables {later : List Row} {v : Variable Unit} :
    v ∈ Scheme.branchVariables (Rows.schemes later) ↔
      ∃ r ∈ later, v ∈ Scheme.variables (Phrases.scheme r.phrases) := by
  rw [Scheme.mem_branchVariables]
  constructor
  · rintro ⟨b, hb, hv⟩
    obtain ⟨r, hr, rfl⟩ := Rows.mem_schemes.mp hb
    exact ⟨r, hr, by rwa [Row.scheme_phrases]⟩
  · rintro ⟨r, hr, hv⟩
    exact ⟨r.scheme, Rows.mem_schemes.mpr ⟨r, hr, rfl⟩, by rwa [Row.scheme_phrases] at hv⟩

/-- Every variable of a derived scheme comes from a declaration. -/
theorem Phrases.exists_declaration (ps : List Phrase) :
    ∀ v ∈ Scheme.variables (Phrases.scheme ps), ∃ d : Declaration, v = d.declared := by
  induction ps using Phrases.induct with
  | nil => exact fun v hv => absurd hv (by simp)
  | word w rest ih => simpa [Phrase.segment, Segment.variables] using ih
  | quoted w h rest ih => simpa [Phrase.segment, Segment.variables] using ih
  | placeholder d pos rest ih =>
      intro v hv
      rw [Phrases.scheme_cons, Scheme.variables_cons, List.mem_append] at hv
      rcases hv with hv | hv
      · exact ⟨d, List.mem_singleton.mp hv⟩
      · exact ih v hv
  | optional inner stop rest ihinner ih =>
      intro v hv
      rw [Phrases.scheme_cons, Scheme.variables_cons, List.mem_append] at hv
      rcases hv with hv | hv
      · apply ihinner v
        rwa [Row.scheme_phrases]
      · exact ih v hv
  | union first later stop rest ihfirst ihlater ih =>
      intro v hv
      rw [Phrases.scheme_cons, Scheme.variables_cons, List.mem_append] at hv
      rcases hv with hv | hv
      · rcases List.mem_append.mp hv with hv | hv
        · apply ihfirst v
          rwa [Row.scheme_phrases]
        · obtain ⟨r, hr, hv⟩ := Rows.mem_variables.mp hv
          exact ihlater r hr v hv
      · exact ih v hv

/-- **Every variable of a scheme that is read comes from a declaration.** -/
theorem exists_declaration {source : String} {scheme : Scheme Unit}
    (h : parse source = .ok scheme) {v : Variable Unit} (hv : v ∈ Scheme.variables scheme) :
    ∃ d : Declaration, v = d.declared := by
  obtain ⟨ps, -, rfl⟩ := parse_eq_ok_iff.mp h
  exact Phrases.exists_declaration ps v hv

theorem Declaration.type?_of_choices {d : Declaration} (h : d.choices ≠ []) : d.type? = none := by
  unfold Declaration.choices at h
  unfold Declaration.type?
  cases hr : d.restriction with
  | none => rfl
  | some a =>
      cases a with
      | type t => simp [hr] at h
      | choices first rest => rfl

/-- **No variable of a scheme that is read has both candidates and a type.** -/
theorem exclusive_of_parse {source : String} {scheme : Scheme Unit}
    (h : parse source = .ok scheme) : ∀ v ∈ Scheme.variables scheme, v.Exclusive := by
  intro v hv henumerated
  obtain ⟨d, rfl⟩ := exists_declaration h hv
  apply d.type?_of_choices
  intro hnone
  rw [Variable.isEnumerated, Declaration.declared, hnone] at henumerated
  exact absurd henumerated (by simp)

end Notation
end CommandGrammar
