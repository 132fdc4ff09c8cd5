import CommandGrammar.Proofs.Segment.Language

/-!
# `Proofs.Segment.Variables` — the variables that a scheme declares

`Scheme.variables` lists the declared variables in order. Changing every variable of a scheme
changes this list and nothing else, and numbering a scheme gives its variables identities and
changes nothing but those.

## Contents
- `Scheme.mem_branchVariables`.
- `Scheme.variables_mapVariables`: changing every variable.
- `Variable.unnumbered`, `Scheme.unnumbered_number`: giving identities.
- `Variable.Exclusive`: candidates or a type.
- `Scheme.mem_variables_iff`: the variables are the solid segments that are variables.
-/

namespace CommandGrammar

variable {ι : Type}

@[simp] theorem Scheme.variables_nil : Scheme.variables ([] : Scheme ι) = [] := rfl

@[simp] theorem Scheme.variables_cons (x : Segment ι) (rest : Scheme ι) :
    Scheme.variables (x :: rest) = x.variables ++ Scheme.variables rest := rfl

theorem Scheme.mem_branchVariables {branches : List (Scheme ι)} {v : Variable ι} :
    v ∈ Scheme.branchVariables branches ↔ ∃ b ∈ branches, v ∈ Scheme.variables b := by
  induction branches with
  | nil => simp [Scheme.branchVariables]
  | cons b rest ih => simp [Scheme.branchVariables, ih]

/-! ## Changing every variable -/

mutual

theorem Segment.variables_mapVariables (f : Variable ι → Variable ι) (x : Segment ι) :
    (x.mapVariables f).variables = x.variables.map f := by
  cases x with
  | keyword k => rfl
  | var v => rfl
  | optional inner => exact Scheme.variables_mapVariables f inner
  | union branches => exact Scheme.variables_mapBranches f branches

/-- The variables of a scheme in which every variable is changed are the changed ones, in the same
order. -/
theorem Scheme.variables_mapVariables (f : Variable ι → Variable ι) (scheme : Scheme ι) :
    Scheme.variables (Scheme.mapVariables f scheme) = (Scheme.variables scheme).map f := by
  cases scheme with
  | nil => rfl
  | cons x rest =>
      rw [Scheme.mapVariables, Scheme.variables_cons, Scheme.variables_cons, List.map_append,
        Segment.variables_mapVariables f x, Scheme.variables_mapVariables f rest]

theorem Scheme.variables_mapBranches (f : Variable ι → Variable ι)
    (branches : List (Scheme ι)) :
    Scheme.branchVariables (Scheme.mapBranches f branches)
      = (Scheme.branchVariables branches).map f := by
  cases branches with
  | nil => rfl
  | cons b rest =>
      rw [Scheme.mapBranches, Scheme.branchVariables, Scheme.branchVariables, List.map_append,
        Scheme.variables_mapVariables f b, Scheme.variables_mapBranches f rest]

end

/-! ## Giving identities -/

/-- The variable without its identity. -/
def Variable.unnumbered (v : Variable ι) : Variable Unit := { v with id := () }

mutual

theorem Segment.unnumbered_number (next : SegmentId) (x : Segment ι) :
    (x.number next).1.variables.map Variable.unnumbered
      = x.variables.map Variable.unnumbered := by
  cases x with
  | keyword k => rfl
  | var v => rfl
  | optional inner => exact Scheme.unnumbered_number next inner
  | union branches => exact Scheme.unnumbered_numberBranches next branches

/-- Numbering gives the variables of a scheme identities, and leaves everything else about them as
it was. -/
theorem Scheme.unnumbered_number (next : SegmentId) (scheme : Scheme ι) :
    (Scheme.variables (Scheme.number next scheme).1).map Variable.unnumbered
      = (Scheme.variables scheme).map Variable.unnumbered := by
  cases scheme with
  | nil => rfl
  | cons x rest =>
      show (Scheme.variables ((x.number next).1 :: _)).map Variable.unnumbered = _
      rw [Scheme.variables_cons, Scheme.variables_cons, List.map_append, List.map_append,
        Segment.unnumbered_number next x, Scheme.unnumbered_number (x.number next).2 rest]

theorem Scheme.unnumbered_numberBranches (next : SegmentId) (branches : List (Scheme ι)) :
    (Scheme.branchVariables (Scheme.numberBranches next branches).1).map Variable.unnumbered
      = (Scheme.branchVariables branches).map Variable.unnumbered := by
  cases branches with
  | nil => rfl
  | cons b rest =>
      show (Scheme.branchVariables ((Scheme.number next b).1 :: _)).map Variable.unnumbered = _
      rw [Scheme.branchVariables, Scheme.branchVariables, List.map_append, List.map_append,
        Scheme.unnumbered_number next b,
        Scheme.unnumbered_numberBranches (Scheme.number next b).2 rest]

end

/-! ## Candidates or a type -/

/-- Candidates and a declared type exclude each other. -/
def Variable.Exclusive (v : Variable ι) : Prop := v.isEnumerated = true → v.type = none

instance (v : Variable ι) : Decidable v.Exclusive := inferInstanceAs (Decidable (_ → _))

/-! ## Variables among the solid segments -/

theorem Scheme.mem_branchSolids {branches : List (Scheme SegmentId)} {t : Solid} :
    t ∈ Scheme.branchSolids branches ↔ ∃ b ∈ branches, t ∈ Scheme.solids b := by
  induction branches with
  | nil => simp [Scheme.branchSolids]
  | cons b rest ih => simp [Scheme.branchSolids, ih]

/-- A scheme declares a variable exactly if the variable is one of its solid segments. -/
theorem Scheme.mem_variables_iff {scheme : Scheme SegmentId} {v : Variable SegmentId} :
    v ∈ Scheme.variables scheme ↔ Solid.var v ∈ Scheme.solids scheme := by
  induction scheme using Scheme.induct with
  | nil => simp [Scheme.solids]
  | solid t rest ih => cases t <;> simp [Scheme.solids, Solid.segment, Segment.variables,
      Segment.solids, ih]
  | optional inner rest ihinner ih =>
      simp [Scheme.solids, Segment.variables, Segment.solids, ihinner, ih]
  | union branches rest ihbranches ih =>
      have hbranches : v ∈ Scheme.branchVariables branches ↔
          Solid.var v ∈ Scheme.branchSolids branches := by
        rw [mem_branchVariables, mem_branchSolids]
        exact exists_congr fun b => and_congr_right fun hb => ihbranches b hb
      simp [Scheme.solids, Segment.variables, Segment.solids, hbranches, ih]

end CommandGrammar
