import CommandGrammar.Config.Validation
import CommandGrammar.Proofs.Notation.Variables
import CommandGrammar.Proofs.Value.Denotation

/-!
# `Proofs.Config.Validation` — what an accepted configuration promises

Validation collects everything that is wrong with an entry. Here is the other side: an entry with
nothing wrong is described without the checks (`Entry.Sound`), and a configuration is accepted
exactly if all its entries are like that.

A default is checked against the choices of its variable or against its type. The notation declares
choices or a type, never both, so that a default which passes is always read by the type of its
variable (`Declaration.denotes_coerce`).

## Contents
- `Declaration.denotes_coerce`: defaults by the type of their variable.
- `Template.Covered`, `Config.Entry.Sound`, `Config.Entry.defects_eq_nil_iff`,
  `Config.validate_eq_ok_iff`.
-/

namespace CommandGrammar

/-! ## Defaults by the type of their variable -/

namespace Notation

/-- **A default that a declaration accepts is read by the declared type.** -/
theorem Declaration.denotes_coerce {d : Declaration} {raw : String}
    (h : d.declared.acceptsDefault raw = true) :
    d.declared.Denotes raw (d.declared.coerce raw) := by
  apply Variable.denotes_coerce
  unfold Variable.acceptsDefault at h
  by_cases hchoices : d.choices = []
  · simpa [Declaration.declared, hchoices] using h
  · -- A variable with choices has no type, and then every token fits.
    simp [Variable.accepts, Declaration.declared, d.type?_of_choices hchoices]

end Notation

/-! ## Entries -/

/-- The text is a template, and whatever it names is declared. -/
def Template.Covered (declared : List (Variable Unit)) (source : String) : Prop :=
  ∃ t, Template.parse source = .ok t ∧ ∀ name ∈ t.placeholders, ∃ v ∈ declared, v.name = name

namespace Config

/-- The configured default of a name. -/
def Entry.default? (e : Entry) (name : String) : Option String :=
  (e.defaults.getD NameMap.empty).find? name

/-- The variables that the grammar of an entry declares; none if it cannot be read. -/
def Entry.declared (e : Entry) : List (Variable Unit) :=
  match Notation.parse (e.grammar.getD "") with
  | .ok scheme => Scheme.variables scheme
  | .error _ => []

/-- Nothing is wrong with an entry whose grammar is read as the scheme. -/
structure Entry.Sound (e : Entry) (scheme : Scheme Unit) : Prop where
  name_ne_empty : e.name ≠ ""
  /-- The name is one word. -/
  notMem_blank : ∀ c ∈ e.name.toList, Text.isBlank c = false
  grammar : Notation.parse (e.grammar.getD "") = .ok scheme
  /-- The first variable with the name of a default accepts it. -/
  defaults : ∀ p ∈ (e.defaults.getD NameMap.empty).toList,
    ∃ v, (Scheme.variables scheme).find? (fun v => v.name == p.1) = some v ∧
      v.acceptsDefault p.2 = true
  reply : ∀ source ∈ e.reply, Template.Covered (Scheme.variables scheme) source
  preview : ∀ source ∈ e.preview, Template.Covered (Scheme.variables scheme) source

theorem Entry.Sound.declared_eq {e : Entry} {scheme : Scheme Unit} (h : e.Sound scheme) :
    e.declared = Scheme.variables scheme := by
  simp [Entry.declared, h.grammar]

theorem defaultDefects_eq_nil {declared : List (Variable Unit)} {name value : String} :
    defaultDefects declared name value = [] ↔
      ∃ v, declared.find? (fun v => v.name == name) = some v ∧ v.acceptsDefault value = true := by
  unfold defaultDefects
  cases declared.find? fun v => v.name == name with
  | none => simp
  | some v =>
      cases h : v.acceptsDefault value <;> simp [h]

theorem templateDefects_eq_nil {declared : List (Variable Unit)} {field : String}
    {source : Option String} : templateDefects declared field source = [] ↔
      ∀ s ∈ source, Template.Covered declared s := by
  cases source with
  | none => simp [templateDefects]
  | some s =>
      unfold templateDefects Template.Covered
      cases h : Template.parse s with
      | error e => simp [h]
      | ok t => simp [h]

/-- **An entry has no defect exactly if nothing is wrong with it.** -/
theorem Entry.defects_eq_nil_iff (e : Entry) : e.defects = [] ↔ ∃ scheme, e.Sound scheme := by
  have hpairs : (e.defaults.map NameMap.toList).getD []
      = (e.defaults.getD NameMap.empty).toList := by
    cases e.defaults <;> rfl
  unfold Entry.defects
  by_cases hname : e.name = ""
  · rw [if_pos (by simp [hname])]
    simp only [List.cons_ne_nil, false_iff, not_exists]
    exact fun scheme h => h.name_ne_empty hname
  · rw [if_neg (by simpa using hname), List.append_eq_nil_iff]
    have hblank : (if e.name.toList.any Text.isBlank then [Defect.severalWords] else []) = [] ↔
        ∀ c ∈ e.name.toList, Text.isBlank c = false := by
      cases h : e.name.toList.any Text.isBlank with
      | true => simpa using h
      | false => simpa using h
    rw [hblank]
    cases hparse : Notation.parse (e.grammar.getD "") with
    | error cause =>
        simp only [List.cons_ne_nil, and_false, false_iff, not_exists]
        intro scheme h
        rw [h.grammar] at hparse
        exact absurd hparse (by simp)
    | ok scheme =>
        simp only [List.append_eq_nil_iff, List.flatMap_eq_nil_iff, defaultDefects_eq_nil,
          templateDefects_eq_nil, hpairs]
        constructor
        · rintro ⟨hword, ⟨hdefaults, hreply⟩, hpreview⟩
          exact ⟨scheme, hname, hword, hparse, hdefaults, hreply, hpreview⟩
        · rintro ⟨scheme', h⟩
          have hsame : scheme' = scheme := by simpa [h.grammar] using hparse
          subst hsame
          exact ⟨h.notMem_blank, ⟨h.defaults, h.reply⟩, h.preview⟩

theorem problemsFrom_eq_nil {index : Nat} {entries : List Entry} :
    problemsFrom index entries = [] ↔ ∀ e ∈ entries, e.defects = [] := by
  induction entries generalizing index with
  | nil => simp [problemsFrom]
  | cons e rest ih => simp [problemsFrom, ih]

theorem validate_eq_ok_iff_defects (c : Config) :
    c.validate = .ok () ↔ ∀ e ∈ c.entries, e.defects = [] := by
  have hnil : c.problems = [] ↔ ∀ e ∈ c.entries, e.defects = [] := problemsFrom_eq_nil
  rw [← hnil]
  unfold validate
  split_ifs with h
  · simpa using h
  · simpa using h

/-- **A configuration is accepted exactly if nothing is wrong with its entries.** -/
theorem validate_eq_ok_iff (c : Config) :
    c.validate = .ok () ↔ ∀ e ∈ c.entries, ∃ scheme, e.Sound scheme := by
  rw [validate_eq_ok_iff_defects]
  exact forall_congr' fun e => imp_congr_right fun _ => e.defects_eq_nil_iff

/-- The grammar itself gives no defaults. -/
theorem Entry.Sound.default_declared {e : Entry} {scheme : Scheme Unit} (h : e.Sound scheme) :
    ∀ v ∈ e.declared, v.default = none := by
  rw [h.declared_eq]
  intro v hv
  obtain ⟨d, rfl⟩ := Notation.exists_declaration h.grammar hv
  rfl

/-- A configured default is accepted by the first variable of its name. -/
theorem Entry.Sound.find?_of_default? {e : Entry} {scheme : Scheme Unit} (h : e.Sound scheme)
    {name raw : String} (hdefault : e.default? name = some raw) :
    ∃ v, (Scheme.variables scheme).find? (fun v => v.name == name) = some v ∧
      v.acceptsDefault raw = true := by
  obtain ⟨before, after, hsplit, -⟩ := List.lookup_eq_some_iff.mp hdefault
  exact h.defaults (name, raw) (by rw [hsplit]; simp)

/-- **A configured default is read by the type of the first variable of its name.** -/
theorem Entry.Sound.denotes_default {e : Entry} {scheme : Scheme Unit} (h : e.Sound scheme)
    {name raw : String} (hdefault : e.default? name = some raw) :
    ∃ v, (Scheme.variables scheme).find? (fun v => v.name == name) = some v ∧
      v.Denotes raw (v.coerce raw) := by
  obtain ⟨v, hfind, haccepts⟩ := h.find?_of_default? hdefault
  obtain ⟨d, rfl⟩ := Notation.exists_declaration h.grammar (List.mem_of_find?_eq_some hfind)
  exact ⟨d.declared, hfind, d.denotes_coerce haccepts⟩

end Config
end CommandGrammar
