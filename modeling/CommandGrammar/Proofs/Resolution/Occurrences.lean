import CommandGrammar.Proofs.Command.Declared
import CommandGrammar.Proofs.Graph.Sources
import CommandGrammar.Proofs.Resolution.Bindings
import Mathlib.Data.List.DropRight

/-!
# `Proofs.Resolution.Occurrences` — the binding of a name, read off its occurrences

Several variables may have one name: rest variables and others, in alternative branches, or one
segment in several places. What a path binds to the name depends on its occurrences only, and among
them on the last ones: a variable that is no rest variable replaces what was bound before it, a rest
variable adds to it.

## Contents
- `Occurrence`, `Bindings.occurrences`: a name along a path.
- `Occurrence.bound`, `Bindings.find?_ofPath`: the binding of a name by its occurrences.
- `Bindings.defaultOf_eq_find?`: the binding of a name that does not occur.
- `bindings_by_occurrences`.
-/

namespace CommandGrammar

/-- A variable at one place of a path, with the value that it takes there. -/
structure Occurrence where
  var : Variable SegmentId
  value : Value

/-- It is a rest variable that occurs. -/
def Occurrence.isRest (o : Occurrence) : Bool := o.var.isRest

/-- The occurrence of the name that a visit is, if it is one. -/
def Visit.occurrence? (g : Graph) (name : String) (x : Visit) : Option Occurrence :=
  match g.kind? x.node with
  | some (.var v) => if v.name = name then some ⟨v, x.value.getD (.text x.raw)⟩ else none
  | _ => none

/-- What the occurrences of a name bind: the value of the last one; if that is a rest variable, the
values of all rest variables since the last other variable. -/
def Occurrence.bound (os : List Occurrence) : Option Binding :=
  os.getLast?.map fun last =>
    if last.isRest then .list ((os.rtakeWhile Occurrence.isRest).map Occurrence.value)
    else .single last.value

namespace Occurrence

variable {os : List Occurrence}

theorem bound_eq_none : bound os = none ↔ os = [] := by
  simp [bound]

theorem bound_concat (before : List Occurrence) (last : Occurrence) :
    bound (before ++ [last]) = some (if last.isRest
      then .list (((before ++ [last]).rtakeWhile isRest).map Occurrence.value)
      else .single last.value) := by
  simp [bound]

/-- The values that a rest variable adds to: those of a list, none if no list is bound. -/
theorem values_rtakeWhile (os : List Occurrence) :
    (os.rtakeWhile isRest).map Occurrence.value
      = match bound os with
        | some (.list values) => values
        | _ => [] := by
  induction os using List.reverseRecOn with
  | nil => rfl
  | append_singleton before last _ =>
      rw [bound_concat]
      cases hlast : last.isRest with
      | false =>
          rw [List.rtakeWhile_concat_neg _ _ _ (by simp [hlast])]
          rfl
      | true => rfl

/-- Rest variables alone bind the values of all their occurrences. -/
theorem bound_of_all_rest (hne : os ≠ []) (hall : ∀ o ∈ os, o.isRest = true) :
    bound os = some (.list (os.map Occurrence.value)) := by
  induction os using List.reverseRecOn with
  | nil => exact absurd rfl hne
  | append_singleton before last _ =>
      rw [bound_concat, if_pos (hall last (by simp)), List.rtakeWhile_eq_self_iff.mpr hall]

end Occurrence

namespace Bindings

variable {g : Graph} {name : String} {x : Visit}

/-- The occurrences of a name on a path, in the order of their tokens. -/
def occurrences (g : Graph) (name : String) (path : List Visit) : List Occurrence :=
  path.filterMap (Visit.occurrence? g name)

/-! ## A visit as an occurrence -/

theorem occurrence?_eq_none (h : ¬ x.Binds g name) : x.occurrence? g name = none := by
  unfold Visit.occurrence?
  split
  · next v hk => exact if_neg fun hname => h ⟨v, hk, hname⟩
  · rfl

theorem occurrence?_of_var {v : Variable SegmentId} (hk : g.kind? x.node = some (.var v)) :
    x.occurrence? g v.name = some ⟨v, x.taken⟩ := by
  unfold Visit.occurrence?
  rw [hk]
  exact if_pos rfl

/-- The variable that occurs has the name, and the graph has a node for it. -/
theorem occurrence?_eq_some {o : Occurrence} (h : x.occurrence? g name = some o) :
    g.kind? x.node = some (.var o.var) ∧ o.var.name = name := by
  unfold Visit.occurrence? at h
  split at h
  · next v hk =>
      split_ifs at h with hname
      cases h
      exact ⟨hk, hname⟩
  · cases h

/-- A name occurs on a path if and only if a visit is of a variable with that name. -/
theorem occurrences_ne_nil {path : List Visit} :
    occurrences g name path ≠ [] ↔ ∃ x ∈ path, x.Binds g name := by
  constructor
  · intro hne
    obtain ⟨o, ho⟩ := List.exists_mem_of_ne_nil _ hne
    obtain ⟨x, hx, hocc⟩ := List.mem_filterMap.mp ho
    obtain ⟨hk, hname⟩ := occurrence?_eq_some hocc
    exact ⟨x, hx, o.var, hk, hname⟩
  · rintro ⟨x, hx, v, hk, rfl⟩
    exact List.ne_nil_of_mem (List.mem_filterMap.mpr ⟨x, hx, occurrence?_of_var hk⟩)

/-! ## Along a path -/

/-- **A variable that takes a value is one more occurrence of its name.** -/
theorem find?_take_eq_bound {b : Bindings} {os : List Occurrence} {v : Variable SegmentId}
    (h : b.find? v.name = Occurrence.bound os) (value : Value) :
    (b.take v value).find? v.name = Occurrence.bound (os ++ [⟨v, value⟩]) := by
  unfold take
  rw [Occurrence.bound_concat, h]
  cases hrest : v.isRest with
  | false => simp [Occurrence.isRest, hrest]
  | true =>
      have hlast : Occurrence.isRest ⟨v, value⟩ = true := hrest
      rw [List.rtakeWhile_concat_pos _ _ _ hlast, List.map_append, Occurrence.values_rtakeWhile]
      cases Occurrence.bound os with
      | none => simp [Occurrence.isRest, hrest]
      | some bound => cases bound <;> simp [Occurrence.isRest, hrest]

/-- **What a path binds to a name is decided by the occurrences of the name.** -/
theorem find?_ofPath (g : Graph) (path : List Visit) (name : String) :
    (ofPath g path).find? name = Occurrence.bound (occurrences g name path) := by
  -- On the last visit of the path, with which its bindings end.
  induction path using List.reverseRecOn with
  | nil => rfl
  | append_singleton path x ih =>
      rw [ofPath_concat, occurrences, List.filterMap_append]
      by_cases hx : x.Binds g name
      · obtain ⟨v, hk, rfl⟩ := hx
        rw [visit_of_var hk, List.filterMap_cons_some (occurrence?_of_var hk), List.filterMap_nil]
        exact find?_take_eq_bound ih x.taken
      · rw [find?_visit_of_not_binds hx, ih, List.filterMap_cons_none (occurrence?_eq_none hx),
          List.filterMap_nil, List.append_nil]
        rfl

end Bindings

/-! ## Defaults -/

/-- The default of a name is that of the first variable with the name that has one. -/
theorem Bindings.defaultOf_eq_find? (name : String) (declared : List (Variable SegmentId)) :
    Bindings.defaultOf name declared
      = (declared.find? fun v => v.name == name && v.default.isSome).bind
          Variable.defaultBinding := by
  induction declared with
  | nil => rfl
  | cons v rest ih =>
      unfold Bindings.defaultOf at ih ⊢
      rw [List.findSome?_cons, List.find?_cons]
      by_cases hname : v.name = name
      · cases hdefault : v.default with
        | none => simpa [hname, hdefault, Variable.defaultBinding] using ih
        | some value => simp [hname, hdefault, Variable.defaultBinding]
      · have hname' : (v.name == name) = false := beq_false_of_ne hname
        simpa [hname, hname'] using ih

/-- A name has a default if and only if a variable with the name has one. -/
theorem Bindings.defaultOf_eq_none {name : String} {declared : List (Variable SegmentId)} :
    Bindings.defaultOf name declared = none ↔
      ¬ ∃ v ∈ declared, v.name = name ∧ v.default ≠ none := by
  simp [Bindings.defaultOf, Variable.defaultBinding]

/-! ## The bindings of a match -/

/-- **Bindings are what the path and the defaults say.** A name is bound if and only if a variable
with that name is on the path, or one that is declared anywhere in the scheme has a default. If the
name occurs on the path, its last occurrence decides: a variable that is no rest variable is bound
to the value that it took there, a rest variable to the values of all rest variables of the name
since the last other one. If rest variables alone have the name, these are the values of all places
of the path with that name. If the name does not occur, the first variable declared with the name
and a default decides; its default is bound, in a list if it is a rest variable. What took no value
is bound as it was typed. -/
theorem bindings_by_occurrences {c : Command} (h : c.Declared) (m : Match) (name : String) :
    let bound := (Bindings.ofMatch c.scheme c.graph m).find? name
    let found := Bindings.occurrences c.graph name m.path
    (bound ≠ none ↔ (∃ x ∈ m.path, x.Binds c.graph name) ∨
      ∃ v ∈ Scheme.variables c.scheme, v.name = name ∧ v.default ≠ none) ∧
    (∀ before last, found = before ++ [last] → bound = some (if last.isRest
      then .list ((found.rtakeWhile Occurrence.isRest).map Occurrence.value)
      else .single last.value)) ∧
    ((∃ x ∈ m.path, x.Binds c.graph name) →
      (∀ v ∈ Scheme.variables c.scheme, v.name = name → v.isRest = true) →
      bound = some (.list (found.map Occurrence.value))) ∧
    ((¬ ∃ x ∈ m.path, x.Binds c.graph name) →
      bound = ((Scheme.variables c.scheme).find? fun v => v.name == name && v.default.isSome).bind
        fun v => v.default.map fun value => if v.isRest then .list [value] else .single value) := by
  intro bound found
  have hbound : bound = (Occurrence.bound found).or
      (Bindings.defaultOf name (Scheme.variables c.scheme)) := by
    rw [← Bindings.find?_ofPath]
    exact Bindings.find?_ofMatch c.scheme c.graph m name
  refine ⟨?_, ?_, ?_, ?_⟩
  · rw [hbound, Ne, Option.or_eq_none_iff, Occurrence.bound_eq_none, Bindings.defaultOf_eq_none,
      not_and_or, not_not, ← Ne, Bindings.occurrences_ne_nil]
  · intro before last hfound
    rw [hbound, hfound, Occurrence.bound_concat, Option.some_or]
  · intro hsome hrest
    have hall : ∀ o ∈ found, o.isRest = true := by
      intro o ho
      obtain ⟨x, -, hocc⟩ := List.mem_filterMap.mp ho
      obtain ⟨hk, hname⟩ := Bindings.occurrence?_eq_some hocc
      obtain ⟨scope, hgraph⟩ := h.compiled
      rw [hgraph] at hk
      exact hrest o.var (Graph.mem_variables_of_compile hk) hname
    rw [hbound, Occurrence.bound_of_all_rest (Bindings.occurrences_ne_nil.mpr hsome) hall,
      Option.some_or]
  · intro hnone
    have hnil : found = [] := by
      by_contra hne
      exact hnone (Bindings.occurrences_ne_nil.mp hne)
    rw [hbound, hnil, Bindings.defaultOf_eq_find?]
    rfl

/-- `tag <name> <name...> [<mode>]`: two variables of one name, and one with the default `fast`. -/
def tagCommand : Command :=
  silentCommand "tag" [.keyword ⟨0, "tag", none⟩,
    .var ⟨1, "name", none, [], none, false, none, none⟩,
    .var ⟨2, "name", none, [], none, true, none, none⟩,
    .optional [.var ⟨3, "mode", none, [], none, false, some (.text "fast"), none⟩]]

/-- The match of `tag a b c` in which the mode is left out. -/
def tagMatch : Match :=
  .ofWalk [⟨2, "tag", none, []⟩, ⟨3, "a", some (.text "a"), []⟩, ⟨4, "b", some (.text "b"), []⟩,
    ⟨4, "c", some (.text "c"), []⟩] true

/-- For `tag a b c` the first name is replaced by the two that the rest variable takes, and the mode
is the default one. -/
theorem bindings_by_occurrences_tag : tagCommand.Declared ∧
    (Bindings.ofMatch tagCommand.scheme tagCommand.graph tagMatch).find? "name"
      = some (.list [.text "b", .text "c"]) ∧
    (Bindings.ofMatch tagCommand.scheme tagCommand.graph tagMatch).find? "mode"
      = some (.single (.text "fast")) := by
  have hdeclared : tagCommand.Declared := silentCommand_declared (by decide) 0 _
  refine ⟨hdeclared, ?_, ?_⟩
  · let first : Occurrence := ⟨⟨1, "name", none, [], none, false, none, none⟩, .text "a"⟩
    let others : Variable SegmentId := ⟨2, "name", none, [], none, true, none, none⟩
    have hfound : Bindings.occurrences tagCommand.graph "name" tagMatch.path
        = [first, ⟨others, .text "b"⟩] ++ [⟨others, .text "c"⟩] := by cbv
    rw [(bindings_by_occurrences hdeclared tagMatch "name").2.1 _ _ hfound, hfound]
    rfl
  · have hnone : ¬ ∃ x ∈ tagMatch.path, x.Binds tagCommand.graph "mode" := by
      rw [← Bindings.occurrences_ne_nil, not_not]
      cbv
    rw [(bindings_by_occurrences hdeclared tagMatch "mode").2.2.2 hnone]
    rfl

end CommandGrammar
