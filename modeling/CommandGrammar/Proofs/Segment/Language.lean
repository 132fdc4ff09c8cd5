import CommandGrammar.Graph.Basic
import Mathlib.Computability.Language

/-!
# `Proofs.Segment.Language` — the words that a scheme denotes

A scheme denotes a language over its solid segments: a rest variable repeats, an optional group may
be left out, a union is one of its branches, and segments in a row are concatenated. This is what a
graph is compared with; nothing here mentions graphs or tokens.

## Contents
- `Solid`: a segment that takes tokens; its identity, the kind of its node, whether it repeats.
- `Scheme.induct`: induction on schemes, the one that every proof about `Graph.compile` uses.
- `Scheme.solids`, `Scheme.Distinct`: the solid segments of a scheme; no identity stands twice.
- `Scheme.choosable`: every union offers a branch.
- `Scheme.language`: the denoted words; `Solid.mem_language`, `Segment.mem_language_optional`,
  `Segment.mem_language_union`: what this means for each kind of segment.
-/

namespace CommandGrammar

open Computability

/-- A segment that takes tokens. -/
inductive Solid where
  | keyword (k : Keyword SegmentId)
  | var (v : Variable SegmentId)

namespace Solid

/-- The identity. -/
def id : Solid → SegmentId
  | .keyword k => k.id
  | .var v => v.id

/-- The segment itself. -/
def segment : Solid → Segment SegmentId
  | .keyword k => .keyword k
  | .var v => .var v

/-- What a node for the segment stands for. -/
def kind : Solid → NodeKind
  | .keyword k => .keyword k
  | .var v => .var v

/-- Whether the segment takes every token up to the next one. -/
def repeats : Solid → Bool
  | .keyword _ => false
  | .var v => v.isRest

@[simp] theorem kind_id? (t : Solid) : t.kind.id? = some t.id := by cases t <;> rfl

end Solid

/-- The solid segment that a node stands for; a marker stands for none. -/
def NodeKind.solid? : NodeKind → Option Solid
  | .keyword k => some (.keyword k)
  | .var v => some (.var v)
  | .marker _ _ => none

@[simp] theorem Solid.solid?_kind (t : Solid) : t.kind.solid? = some t := by cases t <;> rfl

theorem NodeKind.solid?_eq_some {k : NodeKind} {t : Solid} : k.solid? = some t ↔ k = t.kind := by
  cases k <;> cases t <;> simp [NodeKind.solid?, Solid.kind]

/-- Only nodes of segments have an identity. -/
theorem NodeKind.id?_eq_some {k : NodeKind} {id : SegmentId} :
    k.id? = some id ↔ ∃ t : Solid, k = t.kind ∧ t.id = id := by
  constructor
  · intro h
    cases k with
    | keyword k => exact ⟨.keyword k, rfl, Option.some.inj h⟩
    | var v => exact ⟨.var v, rfl, Option.some.inj h⟩
    | marker scope isEntry => exact absurd h (by simp [id?])
  · rintro ⟨t, rfl, rfl⟩
    exact t.kind_id?

/-! ## Induction on schemes -/

section Induction

variable {motive : Scheme SegmentId → Prop} (nil : motive [])
  (solid : ∀ (t : Solid) (rest : Scheme SegmentId), motive rest → motive (t.segment :: rest))
  (optional : ∀ inner rest : Scheme SegmentId,
    motive inner → motive rest → motive (.optional inner :: rest))
  (union : ∀ (branches : List (Scheme SegmentId)) (rest : Scheme SegmentId),
    (∀ b ∈ branches, motive b) → motive rest → motive (.union branches :: rest))

include nil solid optional union

/-- Induction on the first segment of a scheme, with the hypothesis for the groups inside it and for
the segments after it. -/
@[elab_as_elim]
theorem Scheme.induct (scheme : Scheme SegmentId) : motive scheme := by
  refine @Segment.rec_1 SegmentId (fun x => ∀ rest, motive rest → motive (x :: rest)) motive
    (fun branches => ∀ b ∈ branches, motive b) ?_ ?_ ?_ ?_ nil ?_ ?_ ?_ scheme
  · intro k rest hrest
    exact solid (.keyword k) rest hrest
  · intro v rest hrest
    exact solid (.var v) rest hrest
  · intro inner hinner rest hrest
    exact optional inner rest hinner hrest
  · intro branches hbranches rest hrest
    exact union branches rest hbranches hrest
  · intro x rest hx hrest
    exact hx rest hrest
  · intro b hb
    exact absurd hb (by simp)
  · intro b branches hb hbranches c hc
    rcases List.mem_cons.mp hc with h | h
    · rw [h]
      exact hb
    · exact hbranches c h

end Induction

/-! ## Solid segments -/

mutual

/-- The solid segments in a segment, left to right. -/
def Segment.solids : Segment SegmentId → List Solid
  | .keyword k => [.keyword k]
  | .var v => [.var v]
  | .optional inner => Scheme.solids inner
  | .union branches => Scheme.branchSolids branches

/-- The solid segments of a scheme, left to right, as often as they stand in it. -/
def Scheme.solids : Scheme SegmentId → List Solid
  | [] => []
  | x :: rest => x.solids ++ Scheme.solids rest

/-- The solid segments in the branches of a union. -/
def Scheme.branchSolids : List (Scheme SegmentId) → List Solid
  | [] => []
  | b :: rest => Scheme.solids b ++ Scheme.branchSolids rest

end

@[simp] theorem Solid.solids_segment (t : Solid) : t.segment.solids = [t] := by cases t <;> rfl

/-- The identities in a scheme. -/
def Scheme.ids (scheme : Scheme SegmentId) : List SegmentId :=
  (Scheme.solids scheme).map Solid.id

/-- The identities in the branches of a union. -/
def Scheme.branchIds (branches : List (Scheme SegmentId)) : List SegmentId :=
  (Scheme.branchSolids branches).map Solid.id

@[simp] theorem Scheme.ids_nil : Scheme.ids [] = [] := rfl

theorem Scheme.ids_cons (x : Segment SegmentId) (rest : Scheme SegmentId) :
    Scheme.ids (x :: rest) = Scheme.ids [x] ++ Scheme.ids rest := by
  simp [Scheme.ids, Scheme.solids]

@[simp] theorem Scheme.ids_solid (t : Solid) (rest : Scheme SegmentId) :
    Scheme.ids (t.segment :: rest) = t.id :: Scheme.ids rest := by
  simp [Scheme.ids, Scheme.solids]

@[simp] theorem Scheme.ids_optional (inner rest : Scheme SegmentId) :
    Scheme.ids (.optional inner :: rest) = Scheme.ids inner ++ Scheme.ids rest := by
  simp [Scheme.ids, Scheme.solids, Segment.solids]

@[simp] theorem Scheme.ids_union (branches : List (Scheme SegmentId)) (rest : Scheme SegmentId) :
    Scheme.ids (.union branches :: rest) = Scheme.branchIds branches ++ Scheme.ids rest := by
  simp [Scheme.ids, Scheme.branchIds, Scheme.solids, Segment.solids]

@[simp] theorem Scheme.branchIds_nil : Scheme.branchIds [] = [] := rfl

@[simp] theorem Scheme.branchIds_cons (b : Scheme SegmentId) (rest : List (Scheme SegmentId)) :
    Scheme.branchIds (b :: rest) = Scheme.ids b ++ Scheme.branchIds rest := by
  simp [Scheme.ids, Scheme.branchIds, Scheme.branchSolids]

/-- No identity stands twice in the scheme. -/
def Scheme.Distinct (scheme : Scheme SegmentId) : Prop :=
  (Scheme.ids scheme).Nodup

instance (scheme : Scheme SegmentId) : Decidable (Scheme.Distinct scheme) :=
  inferInstanceAs (Decidable (List.Nodup _))

/-! ## Unions with a branch -/

mutual

/-- Whether every union in a segment has a branch. -/
def Segment.choosable : Segment SegmentId → Bool
  | .keyword _ => true
  | .var _ => true
  | .optional inner => Scheme.choosable inner
  | .union branches => !branches.isEmpty && Scheme.branchesChoosable branches

/-- Whether every union in a scheme has a branch. -/
def Scheme.choosable : Scheme SegmentId → Bool
  | [] => true
  | x :: rest => x.choosable && Scheme.choosable rest

/-- Whether every union in the branches of a union has a branch. -/
def Scheme.branchesChoosable : List (Scheme SegmentId) → Bool
  | [] => true
  | b :: rest => Scheme.choosable b && Scheme.branchesChoosable rest

end

/-! ## Words -/

mutual

/-- The words that a segment denotes. -/
def Segment.language : Segment SegmentId → Language Solid
  | .keyword k => {[.keyword k]}
  | .var v => if v.isRest then {[.var v]} * {[.var v]}∗ else {[.var v]}
  | .optional inner => Scheme.language inner + 1
  | .union branches => Scheme.branchLanguage branches

/-- The words that a scheme denotes. -/
def Scheme.language : Scheme SegmentId → Language Solid
  | [] => 1
  | x :: rest => x.language * Scheme.language rest

/-- The words that some branch of a union denotes. -/
def Scheme.branchLanguage : List (Scheme SegmentId) → Language Solid
  | [] => 0
  | b :: rest => Scheme.language b + Scheme.branchLanguage rest

end

theorem Solid.language_segment (t : Solid) :
    t.segment.language = if t.repeats then {[t]} * {[t]}∗ else {[t]} := by
  cases t <;> rfl

/-! ### What a word is -/

theorem Scheme.nil_mem_language : [] ∈ Scheme.language [] := Language.nil_mem_one

theorem Scheme.append_mem_language {x : Segment SegmentId} {rest : Scheme SegmentId}
    {a b : List Solid} (ha : a ∈ x.language) (hb : b ∈ Scheme.language rest) :
    a ++ b ∈ Scheme.language (x :: rest) :=
  Language.append_mem_mul ha hb

/-- A segment denotes itself, and if it repeats any number of copies of itself but none. -/
theorem Solid.mem_language {t : Solid} {w : List Solid} :
    w ∈ t.segment.language ↔ w = [t] ∨ t.repeats = true ∧ ∃ n, w = List.replicate (n + 1) t := by
  have hstar : ∀ n, List.replicate n t ∈ ({[t]}∗ : Language Solid) := by
    intro n
    refine Language.mem_kstar.mpr ⟨List.replicate n [t], ?_, ?_⟩
    · simp
    · intro y hy
      exact List.eq_of_mem_replicate hy
  rw [Solid.language_segment]
  cases hr : t.repeats with
  | false =>
      rw [if_neg (by simp)]
      constructor
      · exact Or.inl
      · rintro (rfl | ⟨h, -⟩)
        · rfl
        · exact absurd h (by simp)
  | true =>
      rw [if_pos rfl, Language.mem_mul]
      constructor
      · rintro ⟨a, rfl, b, hb, rfl⟩
        obtain ⟨l, rfl, hl⟩ := Language.mem_kstar.mp hb
        refine Or.inr ⟨rfl, l.length, ?_⟩
        have hl' : l = List.replicate l.length [t] := List.eq_replicate_iff.mpr ⟨rfl, hl⟩
        rw [hl']
        simp [List.replicate_succ]
      · rintro (rfl | ⟨-, n, rfl⟩)
        · exact ⟨[t], rfl, [], hstar 0, rfl⟩
        · exact ⟨[t], rfl, List.replicate n t, hstar n, rfl⟩

/-- A group may be left out. -/
theorem Segment.mem_language_optional {inner : Scheme SegmentId} {w : List Solid} :
    w ∈ (Segment.optional inner).language ↔ w ∈ Scheme.language inner ∨ w = [] := Iff.rfl

/-- A union denotes what its branches denote. -/
theorem Segment.mem_language_union {branches : List (Scheme SegmentId)} {w : List Solid} :
    w ∈ (Segment.union branches).language ↔ ∃ b ∈ branches, w ∈ Scheme.language b := by
  show w ∈ Scheme.branchLanguage branches ↔ _
  induction branches with
  | nil => simp [Scheme.branchLanguage]
  | cons b rest ih =>
      rw [Scheme.branchLanguage, Language.mem_add, ih]
      simp
end CommandGrammar
