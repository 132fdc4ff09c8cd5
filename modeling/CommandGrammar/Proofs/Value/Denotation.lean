import CommandGrammar.Value.Typing

/-!
# `Proofs.Value.Denotation` — what a token denotes

Whether a token fits the declared type of a variable and what its value is are decided apart, by
`Variable.accepts` and by `Variable.coerce`, and the second one falls back to the text where it
cannot read the token. `Variable.Denotes` says without either what the value has to be; a token that
fits is never left to the fallback.

## Contents
- `Variable.Denotes`: the value of a token by the type of a variable.
- `Variable.denotes_coerce`.
-/

namespace CommandGrammar

variable {ι : Type}

/-- The token denotes the value under the declared type of the variable. -/
inductive Variable.Denotes (v : Variable ι) (token : String) : Value → Prop where
  | number {x : Float} (htype : v.type = some .number) (hread : Value.readNumber token = some x) :
    Denotes v token (.number x)
  | boolean (b : Bool) (htype : v.type = some .boolean)
      (hread : token = if b then "true" else "false") : Denotes v token (.boolean b)
  | date {t : Timestamp} (htype : v.type = some .date)
      (hread : Timestamp.ofText? token = some t) : Denotes v token (.date t)
  /-- A flag is given by its name. -/
  | flag (htype : v.type = some .flag) (hread : token = v.name) : Denotes v token (.boolean true)
  | text (htype : v.type = none ∨ v.type = some .any ∨ v.type = some .string) :
    Denotes v token (.text token)

/-- What fits the type of a variable is read by that type. -/
theorem Variable.denotes_coerce {v : Variable ι} {token : String} (h : v.accepts token = true) :
    v.Denotes token (v.coerce token) := by
  unfold Variable.accepts at h
  unfold Variable.coerce
  cases htype : v.type with
  | none => exact .text (.inl htype)
  | some type =>
      simp only [htype] at h
      cases type with
      | any => exact .text (.inr (.inl htype))
      | string => exact .text (.inr (.inr htype))
      | number =>
          obtain ⟨x, hx⟩ := Option.isSome_iff_exists.mp h
          simp only [hx]
          exact .number htype hx
      | boolean =>
          simp only [Bool.or_eq_true, beq_iff_eq] at h
          rcases h with rfl | rfl
          · exact .boolean true htype rfl
          · exact .boolean false htype rfl
      | date =>
          obtain ⟨t, ht⟩ := Option.isSome_iff_exists.mp h
          simp only [ht]
          exact .date htype ht
      | flag => exact .flag htype (beq_iff_eq.mp h)

end CommandGrammar
