/-!
# `CommandGrammar.NameMap` — tables in the order of their names

## Contents
- `NameMap`: names with a value each, in ascending order of their code points.
- `find?`, `contains`, `insert`, `ofList`, `toList`.
-/

namespace CommandGrammar

/-- Names with a value each, in ascending order. -/
structure NameMap (α : Type) where
  /-- The names with their values. -/
  toList : List (String × α)
  deriving Repr

namespace NameMap

variable {α : Type}

/-- No names. -/
def empty : NameMap α := ⟨[]⟩

/-- The value of a name. -/
def find? (m : NameMap α) (name : String) : Option α :=
  m.toList.lookup name

/-- Whether the name has a value. -/
def contains (m : NameMap α) (name : String) : Bool :=
  (m.find? name).isSome

/-- Put a name where its order says; an equal name gives way. -/
def insertSorted (name : String) (value : α) : List (String × α) → List (String × α)
  | [] => [(name, value)]
  | (k, v) :: rest =>
    if name = k then (name, value) :: rest
    else if name < k then (name, value) :: (k, v) :: rest
    else (k, v) :: insertSorted name value rest

/-- Give a name a value, in place of the one it had. -/
def insert (m : NameMap α) (name : String) (value : α) : NameMap α :=
  ⟨insertSorted name value m.toList⟩

/-- A table of the given pairs; the last of equal names stays. -/
def ofList (pairs : List (String × α)) : NameMap α :=
  pairs.foldl (fun m p => m.insert p.1 p.2) empty

theorem lookup_pair (k k' : String) (v : α) (xs : List (String × α)) :
    ((k', v) :: xs).lookup k = if k = k' then some v else xs.lookup k := by
  by_cases h : k = k'
  · simp [h]
  · have hb : (k == k') = false := beq_eq_false_iff_ne.mpr h
    simp [List.lookup_cons, hb, h]

theorem lookup_insertSorted (name : String) (value : α) (k : String) (xs : List (String × α)) :
    (insertSorted name value xs).lookup k = if k = name then some value else xs.lookup k := by
  induction xs with
  | nil => rw [insertSorted, lookup_pair]
  | cons x xs ih =>
    obtain ⟨k', v'⟩ := x
    rw [insertSorted]
    split
    · rename_i hk
      rw [lookup_pair, lookup_pair, hk]
      split <;> rfl
    · rename_i hk
      split
      · rw [lookup_pair]
      · rw [lookup_pair, lookup_pair, ih]
        by_cases h : k = k'
        · simp [h, Ne.symm hk]
        · simp [h]

/-- A name has the value it was given last; other names keep theirs. -/
@[simp] theorem find?_insert (m : NameMap α) (name k : String) (value : α) :
    (m.insert name value).find? k = if k = name then some value else m.find? k :=
  lookup_insertSorted name value k m.toList

end NameMap
end CommandGrammar
