import CommandGrammar.Proofs.Matching.Providers
import CommandGrammar.Proofs.Resolution.Verdict
import CommandGrammar.Proofs.Segment.Variables

/-!
# `Proofs.Resolution.Bindings` — where bound values come from

A name is bound by the visits of variables with that name, and if there is no such visit by the
first default that is declared for it. So a binding is one list of values from one of two sources,
never a mixture (`find?_ofMatch`).

The values that visits bind are followed along the path, by induction on its last visit.

## Contents
- `Binding.values`, `Visit.Binds`, `Visit.taken`: what a visit binds.
- `Bindings.ofPath`: the bindings of a path; `find?_ofPath_eq_none`, `find?_ofPath_of_binds`.
- `Scheme.addDefaults_eq_foldl`: the order in which defaults are bound.
- `Variable.binding`, `Variable.defaultBinding`, `Bindings.defaultOf`: the first default of a
  name.
- `Registry.resolve_ok`: the command and the bindings of a resolution.
-/

namespace CommandGrammar

variable {ι : Type}

/-- The values of a binding. -/
def Binding.values : Binding → List Value
  | .single v => [v]
  | .list vs => vs

/-- The visit is of a variable with the given name. -/
def Visit.Binds (g : Graph) (name : String) (x : Visit) : Prop :=
  ∃ v, g.kind? x.node = some (.var v) ∧ v.name = name

/-- The value that a visit binds; what has no value is bound as it was typed. -/
def Visit.taken (x : Visit) : Value := x.value.getD (.text x.raw)

namespace Bindings

/-! ## Bindings of a path -/

/-- What the visits of a path bind, one after the other. -/
def ofPath (g : Graph) (path : List Visit) : Bindings := path.foldl (visit g) NameMap.empty

theorem ofPath_concat (g : Graph) (path : List Visit) (x : Visit) :
    ofPath g (path ++ [x]) = visit g (ofPath g path) x := by
  simp [ofPath]

variable {g : Graph} {name : String} {b : Bindings} {x : Visit}

theorem visit_of_var {v : Variable SegmentId} (h : g.kind? x.node = some (.var v)) :
    visit g b x = b.take v x.taken := by
  simp [visit, h, Visit.taken]

theorem find?_take_of_ne {v : Variable SegmentId} (h : v.name ≠ name) (value : Value) :
    (b.take v value).find? name = b.find? name := by
  unfold take
  split_ifs
  · split <;> rw [NameMap.find?_insert, if_neg (Ne.symm h)]
  · rw [NameMap.find?_insert, if_neg (Ne.symm h)]

/-- A variable that takes a value has it afterwards; any other value its name has then, the name had
before. -/
theorem find?_take_self (b : Bindings) (v : Variable SegmentId) (value : Value) :
    ∃ bound, (b.take v value).find? v.name = some bound ∧ value ∈ bound.values ∧
      ∀ other ∈ bound.values, other = value ∨
        ∃ before, b.find? v.name = some before ∧ other ∈ before.values := by
  unfold take
  split_ifs
  · split
    · next values hbefore =>
        refine ⟨.list (values ++ [value]), by simp, by simp [Binding.values], ?_⟩
        intro other hother
        rcases List.mem_append.mp hother with hother | hother
        · exact .inr ⟨.list values, hbefore, hother⟩
        · exact .inl (List.mem_singleton.mp hother)
    · exact ⟨.list [value], by simp, by simp [Binding.values],
        fun other hother => .inl (List.mem_singleton.mp hother)⟩
  · exact ⟨.single value, by simp, by simp [Binding.values],
      fun other hother => .inl (List.mem_singleton.mp hother)⟩

/-- A visit that is not of a variable with the name leaves the name as it is. -/
theorem find?_visit_of_not_binds (h : ¬ x.Binds g name) :
    (visit g b x).find? name = b.find? name := by
  cases hk : g.kind? x.node with
  | none => simp [visit, hk]
  | some k =>
      cases k with
      | keyword k => simp [visit, hk]
      | marker scope isEntry => simp [visit, hk]
      | var v =>
          rw [visit_of_var hk]
          exact find?_take_of_ne (fun hname => h ⟨v, hk, hname⟩) x.taken

theorem find?_visit_of_binds (h : x.Binds g name) :
    ∃ bound, (visit g b x).find? name = some bound ∧ x.taken ∈ bound.values ∧
      ∀ other ∈ bound.values, other = x.taken ∨
        ∃ before, b.find? name = some before ∧ other ∈ before.values := by
  obtain ⟨v, hk, rfl⟩ := h
  rw [visit_of_var hk]
  exact find?_take_self b v x.taken

/-- Every value that a path binds to a name was taken by a visit of a variable with that name. -/
theorem mem_values_ofPath {path : List Visit} {bound : Binding} {value : Value}
    (h : (ofPath g path).find? name = some bound) (hvalue : value ∈ bound.values) :
    ∃ x ∈ path, x.Binds g name ∧ value = x.taken := by
  induction path using List.reverseRecOn generalizing bound with
  | nil => simp [ofPath, NameMap.find?, NameMap.empty] at h
  | append_singleton path x ih =>
      rw [ofPath_concat] at h
      by_cases hx : x.Binds g name
      · -- The last visit replaces what the name had, or adds to it.
        obtain ⟨after, hafter, -, hall⟩ := find?_visit_of_binds (b := ofPath g path) hx
        have hsame : bound = after := Option.some.inj (h.symm.trans hafter)
        rw [hsame] at hvalue
        rcases hall value hvalue with htaken | ⟨before, hbefore, hmem⟩
        · exact ⟨x, by simp, hx, htaken⟩
        · obtain ⟨y, hy, hbinds⟩ := ih hbefore hmem
          exact ⟨y, by simp [hy], hbinds⟩
      · rw [find?_visit_of_not_binds hx] at h
        obtain ⟨y, hy, hbinds⟩ := ih h hvalue
        exact ⟨y, by simp [hy], hbinds⟩

/-- A name is bound on a path, to one value at least, as soon as one visit is of a variable with
that name. -/
theorem find?_ofPath_of_binds {path : List Visit} (h : ∃ x ∈ path, x.Binds g name) :
    ∃ bound, (ofPath g path).find? name = some bound ∧ bound.values ≠ [] := by
  induction path using List.reverseRecOn with
  | nil => simp at h
  | append_singleton path x ih =>
      rw [ofPath_concat]
      by_cases hx : x.Binds g name
      · obtain ⟨bound, hbound, hmem, -⟩ := find?_visit_of_binds (b := ofPath g path) hx
        exact ⟨bound, hbound, List.ne_nil_of_mem hmem⟩
      · rw [find?_visit_of_not_binds hx]
        apply ih
        obtain ⟨y, hy, hbinds⟩ := h
        rcases List.mem_append.mp hy with hy | hy
        · exact ⟨y, hy, hbinds⟩
        · rw [List.mem_singleton.mp hy] at hbinds
          exact absurd hbinds hx

theorem find?_ofPath_eq_none {path : List Visit} (h : ¬ ∃ x ∈ path, x.Binds g name) :
    (ofPath g path).find? name = none := by
  induction path using List.reverseRecOn with
  | nil => rfl
  | append_singleton path x ih =>
      have hx : ¬ x.Binds g name := fun hx => h ⟨x, by simp, hx⟩
      rw [ofPath_concat, find?_visit_of_not_binds hx]
      exact ih fun ⟨y, hy, hbinds⟩ => h ⟨y, by simp [hy], hbinds⟩

end Bindings

/-! ## Defaults -/

/-- A value as it is bound by default: in a list if the variable takes the rest of a line. -/
def Variable.binding (v : Variable ι) (value : Value) : Binding :=
  if v.isRest then .list [value] else .single value

/-- A variable's default as it is bound. -/
def Variable.defaultBinding (v : Variable ι) : Option Binding := v.default.map v.binding

mutual

theorem Segment.addDefaults_eq_foldl (b : Bindings) (x : Segment SegmentId) :
    x.addDefaults b = x.variables.foldl Bindings.addDefault b := by
  cases x with
  | keyword k => rfl
  | var v => rfl
  | optional inner => exact Scheme.addDefaults_eq_foldl b inner
  | union branches => exact Scheme.addBranchDefaults_eq_foldl b branches

/-- **The defaults of a scheme are bound in order of declaration**, whatever groups they are in. -/
theorem Scheme.addDefaults_eq_foldl (b : Bindings) (scheme : Scheme SegmentId) :
    Scheme.addDefaults b scheme = (Scheme.variables scheme).foldl Bindings.addDefault b := by
  cases scheme with
  | nil => rfl
  | cons x rest =>
      rw [Scheme.addDefaults, Scheme.variables_cons, List.foldl_append,
        Segment.addDefaults_eq_foldl b x, Scheme.addDefaults_eq_foldl _ rest]

theorem Scheme.addBranchDefaults_eq_foldl (b : Bindings) (branches : List (Scheme SegmentId)) :
    Scheme.addBranchDefaults b branches
      = (Scheme.branchVariables branches).foldl Bindings.addDefault b := by
  cases branches with
  | nil => rfl
  | cons branch rest =>
      rw [Scheme.addBranchDefaults, Scheme.branchVariables, List.foldl_append,
        Scheme.addDefaults_eq_foldl b branch, Scheme.addBranchDefaults_eq_foldl _ rest]

end

namespace Bindings

/-- The first default that variables declare for a name, as it is bound. -/
def defaultOf (name : String) (declared : List (Variable ι)) : Option Binding :=
  declared.findSome? fun v => if v.name = name then v.defaultBinding else none

@[simp] theorem defaultOf_unnumbered (name : String) (declared : List (Variable ι)) :
    defaultOf name (declared.map Variable.unnumbered) = defaultOf name declared := by
  simp only [defaultOf, List.findSome?_map]
  rfl

theorem find?_addDefault (b : Bindings) (v : Variable SegmentId) (name : String) :
    (b.addDefault v).find? name
      = (b.find? name).or (if v.name = name then v.defaultBinding else none) := by
  unfold addDefault Variable.defaultBinding Variable.binding
  cases v.default with
  | none => simp
  | some value =>
      by_cases hname : v.name = name
      · subst hname
        cases hbound : b.find? v.name with
        | none => simp [NameMap.contains, hbound]
        | some bound => simp [NameMap.contains, hbound]
      · rw [if_neg hname, Option.or_none]
        dsimp only
        split_ifs
        · rfl
        · rw [NameMap.find?_insert, if_neg (Ne.symm hname)]
        · rw [NameMap.find?_insert, if_neg (Ne.symm hname)]

/-- Defaults are for names that are not bound, and the first default of a name counts. -/
theorem find?_addDefaults (b : Bindings) (scheme : Scheme SegmentId) (name : String) :
    (Scheme.addDefaults b scheme).find? name
      = (b.find? name).or (defaultOf name (Scheme.variables scheme)) := by
  rw [Scheme.addDefaults_eq_foldl]
  induction Scheme.variables scheme generalizing b with
  | nil => simp [defaultOf]
  | cons v rest ih =>
      rw [List.foldl_cons, ih, find?_addDefault, Option.or_assoc]
      congr 1
      simp only [defaultOf, List.findSome?_cons]
      cases (if v.name = name then v.defaultBinding else none) <;> rfl

/-- **A name is bound by the path, or else by the first default declared for it.** -/
theorem find?_ofMatch (scheme : Scheme SegmentId) (g : Graph) (m : Match) (name : String) :
    (ofMatch scheme g m).find? name
      = ((ofPath g m.path).find? name).or (defaultOf name (Scheme.variables scheme)) :=
  find?_addDefaults (ofPath g m.path) scheme name

end Bindings

/-! ## Resolutions -/

/-- A match knows the place of its command. -/
theorem Registry.getElem?_of_mem_matchFrom {argv : List String} {index : Nat} {cs : List Command}
    {s : Session} {m : CommandMatch} (h : m ∈ (matchFrom argv index cs s).1) :
    index ≤ m.index ∧ cs[m.index - index]? = some m.command := by
  induction cs generalizing index s with
  | nil => simp [matchFrom] at h
  | cons c rest ih =>
      rw [matchFrom_cons, List.mem_append] at h
      rcases h with h | h
      · obtain ⟨result, -, rfl⟩ := List.mem_map.mp h
        simp
      · obtain ⟨hle, hget⟩ := ih h
        have hindex : m.index - index = (m.index - (index + 1)) + 1 := by omega
        rw [hindex, List.getElem?_cons_succ]
        exact ⟨by omega, hget⟩

/-- **A resolution names a command by its place, and binds a name by its path or else by the first
default that the command declares for it.** -/
theorem Registry.resolve_ok {registry : Registry} {input : String} {argv : List String}
    {calls : CallLog} {r : Resolution} (h : (registry.resolve input argv calls).1 = .ok r) :
    registry.commands[r.index]? = some r.command ∧
      ∀ name, r.bindings.find? name = ((Bindings.ofPath r.command.graph r.path).find? name).or
        (Bindings.defaultOf name (Scheme.variables r.command.scheme)) := by
  obtain ⟨m, others, hbest, -, rfl⟩ := resolve_eq_ok.mp h
  have hm := (mem_contenders.mp (hbest ▸ List.mem_cons_self)).1
  obtain ⟨-, hget⟩ := getElem?_of_mem_matchFrom hm
  exact ⟨hget, Bindings.find?_ofMatch m.command.scheme m.command.graph m.result⟩

end CommandGrammar
