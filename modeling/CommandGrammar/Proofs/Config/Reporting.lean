import CommandGrammar.Proofs.Config.Validation

/-!
# `Proofs.Config.Reporting` — which problems are reported

What is wrong with an entry is described here defect by defect, each without regard to the others
(`Entry.Flaw`). Validation looks at an entry in one go and leaves it early: an empty name ends it,
and so does a grammar that cannot be read, although the templates could be read all the same. So it
reports the flaws of each entry that no other flaw of this entry hides (`Entry.shows`).

## Contents
- `Entry.Flaw`, `Entry.flaws`, `Entry.mem_flaws`: what is wrong with an entry.
- `Entry.shows`, `Entry.defects_eq_filter`: what is reported.
- `Entry.defects_eq_nil_iff_flaws`: an entry with flaws has one that is reported.
- `validation_reports`; `validation_hides_template`: a template behind a grammar that cannot be
  read.
-/

namespace CommandGrammar
namespace Config

/-! ## What is wrong with an entry -/

/-- The configured defaults of an entry. -/
def Entry.pairs (e : Entry) : List (String × String) := (e.defaults.map NameMap.toList).getD []

/-- The templates of an entry, with the names of their fields. -/
def Entry.templates (e : Entry) : List (String × String) :=
  e.reply.toList.map (("reply", ·)) ++ e.preview.toList.map (("preview", ·))

/-- The defect is one of the entry, whatever else is wrong. -/
inductive Entry.Flaw (e : Entry) : Defect → Prop
  | emptyName (h : e.name = "") : Flaw e .emptyName
  | severalWords {c : Char} (hc : c ∈ e.name.toList) (h : Text.isBlank c = true) :
      Flaw e .severalWords
  | badGrammar {cause : Scheme.Error} (h : Notation.parse (e.grammar.getD "") = .error cause) :
      Flaw e (.badGrammar cause)
  /-- No variable has the name of a default. -/
  | undeclaredDefault {scheme : Scheme Unit} {name value : String}
      (hg : Notation.parse (e.grammar.getD "") = .ok scheme) (hp : (name, value) ∈ e.pairs)
      (h : ∀ v ∈ Scheme.variables scheme, v.name ≠ name) : Flaw e (.undeclaredDefault name)
  /-- The first variable with the name of a default does not accept it. -/
  | unfitDefault {scheme : Scheme Unit} {name value : String} {v : Variable Unit}
      (hg : Notation.parse (e.grammar.getD "") = .ok scheme) (hp : (name, value) ∈ e.pairs)
      (hv : (Scheme.variables scheme).find? (fun v => v.name == name) = some v)
      (h : v.acceptsDefault value = false) : Flaw e (.unfitDefault value v.render)
  | badTemplate {field source : String} {cause : Template.Error}
      (hs : (field, source) ∈ e.templates) (h : Template.parse source = .error cause) :
      Flaw e (.badTemplate field cause)
  /-- No variable has the name of a placeholder. -/
  | undeclaredPlaceholder {scheme : Scheme Unit} {field source name : String} {t : Template}
      (hg : Notation.parse (e.grammar.getD "") = .ok scheme) (hs : (field, source) ∈ e.templates)
      (ht : Template.parse source = .ok t) (hn : name ∈ t.placeholders)
      (h : ∀ v ∈ Scheme.variables scheme, v.name ≠ name) :
      Flaw e (.undeclaredPlaceholder field name)

/-- What is wrong with the name of an entry. -/
def Entry.nameFlaws (e : Entry) : List Defect :=
  (if e.name = "" then [.emptyName] else []) ++
    if e.name.toList.any Text.isBlank then [.severalWords] else []

/-- What is wrong with a template as such. -/
def syntaxFlaws (field source : String) : List Defect :=
  match Template.parse source with
  | .error cause => [.badTemplate field cause]
  | .ok _ => []

/-- What is wrong with the grammar of an entry, with its defaults and with its templates: one defect
for a default, and one for each placeholder. -/
def Entry.bodyFlaws (e : Entry) : List Defect :=
  match Notation.parse (e.grammar.getD "") with
  | .error cause => .badGrammar cause :: e.templates.flatMap fun s => syntaxFlaws s.1 s.2
  | .ok scheme =>
    (e.pairs.flatMap fun p => defaultDefects (Scheme.variables scheme) p.1 p.2) ++
      e.templates.flatMap fun s => templateDefects (Scheme.variables scheme) s.1 (some s.2)

/-- All that is wrong with an entry. -/
def Entry.flaws (e : Entry) : List Defect := e.nameFlaws ++ e.bodyFlaws

section

variable {declared : List (Variable Unit)} {name value field source : String} {d : Defect}

theorem mem_defaultDefects : d ∈ defaultDefects declared name value ↔
    (∀ v ∈ declared, v.name ≠ name) ∧ d = .undeclaredDefault name ∨
      ∃ v, declared.find? (fun v => v.name == name) = some v ∧ v.acceptsDefault value = false ∧
        d = .unfitDefault value v.render := by
  have hnone : declared.find? (fun v => v.name == name) = none ↔
      ∀ v ∈ declared, v.name ≠ name := by simp
  rw [← hnone]
  unfold defaultDefects
  cases declared.find? fun v => v.name == name with
  | none => simp
  | some v => cases haccepts : v.acceptsDefault value <;> simp [haccepts]

theorem mem_syntaxFlaws : d ∈ syntaxFlaws field source ↔
    ∃ cause, Template.parse source = .error cause ∧ d = .badTemplate field cause := by
  unfold syntaxFlaws
  cases Template.parse source <;> simp

theorem mem_templateDefects : d ∈ templateDefects declared field (some source) ↔
    d ∈ syntaxFlaws field source ∨ ∃ t, Template.parse source = .ok t ∧
      ∃ n ∈ t.placeholders, (∀ v ∈ declared, v.name ≠ n) ∧ d = .undeclaredPlaceholder field n := by
  rw [mem_syntaxFlaws]
  unfold templateDefects
  cases ht : Template.parse source with
  | error cause => simp [ht]
  | ok t => simp [ht, and_assoc, @eq_comm _ d]

variable {e : Entry}

theorem Entry.mem_bodyFlaws_of_error {cause : Scheme.Error}
    (h : Notation.parse (e.grammar.getD "") = .error cause) :
    d ∈ e.bodyFlaws ↔ d = .badGrammar cause ∨ ∃ s ∈ e.templates, d ∈ syntaxFlaws s.1 s.2 := by
  simp only [bodyFlaws, h, List.mem_cons, List.mem_flatMap]

theorem Entry.mem_bodyFlaws_of_ok {scheme : Scheme Unit}
    (h : Notation.parse (e.grammar.getD "") = .ok scheme) :
    d ∈ e.bodyFlaws ↔
      (∃ p ∈ e.pairs, d ∈ defaultDefects (Scheme.variables scheme) p.1 p.2) ∨
        ∃ s ∈ e.templates, d ∈ templateDefects (Scheme.variables scheme) s.1 (some s.2) := by
  simp only [bodyFlaws, h, List.mem_append, List.mem_flatMap]

/-- A template that is none is a flaw of any body. -/
theorem Entry.mem_bodyFlaws_of_syntaxFlaws {s : String × String} (hs : s ∈ e.templates)
    (h : d ∈ syntaxFlaws s.1 s.2) : d ∈ e.bodyFlaws := by
  cases hg : Notation.parse (e.grammar.getD "") with
  | error cause => exact (mem_bodyFlaws_of_error hg).mpr (.inr ⟨s, hs, h⟩)
  | ok scheme =>
      exact (mem_bodyFlaws_of_ok hg).mpr (.inr ⟨s, hs, mem_templateDefects.mpr (.inl h)⟩)

theorem Entry.mem_nameFlaws : d ∈ e.nameFlaws ↔ e.name = "" ∧ d = .emptyName ∨
    (∃ c ∈ e.name.toList, Text.isBlank c = true) ∧ d = .severalWords := by
  have hempty : d ∈ (if e.name = "" then [Defect.emptyName] else []) ↔
      e.name = "" ∧ d = .emptyName := by
    split_ifs with hname <;> simp [hname]
  have hblank : d ∈ (if e.name.toList.any Text.isBlank then [Defect.severalWords] else []) ↔
      (∃ c ∈ e.name.toList, Text.isBlank c = true) ∧ d = .severalWords := by
    rw [← List.any_eq_true]
    split_ifs with hany <;> simp [hany]
  rw [nameFlaws, List.mem_append, hempty, hblank]

/-- The flaws of the body are flaws of the entry, and none is that its name is empty. -/
theorem Entry.flaw_of_mem_bodyFlaws (h : d ∈ e.bodyFlaws) : e.Flaw d ∧ d ≠ .emptyName := by
  have hsyntax : ∀ s ∈ e.templates, d ∈ syntaxFlaws s.1 s.2 → e.Flaw d ∧ d ≠ .emptyName := by
    intro s hs h
    obtain ⟨cause, hcause, rfl⟩ := mem_syntaxFlaws.mp h
    exact ⟨.badTemplate hs hcause, Defect.noConfusion⟩
  cases hg : Notation.parse (e.grammar.getD "") with
  | error cause =>
      rcases (mem_bodyFlaws_of_error hg).mp h with rfl | ⟨s, hs, h⟩
      · exact ⟨.badGrammar hg, Defect.noConfusion⟩
      · exact hsyntax s hs h
  | ok scheme =>
      rcases (mem_bodyFlaws_of_ok hg).mp h with ⟨p, hp, h⟩ | ⟨s, hs, h⟩
      · rcases mem_defaultDefects.mp h with ⟨hnone, rfl⟩ | ⟨v, hv, hunfit, rfl⟩
        · exact ⟨.undeclaredDefault hg hp hnone, Defect.noConfusion⟩
        · exact ⟨.unfitDefault hg hp hv hunfit, Defect.noConfusion⟩
      · rcases mem_templateDefects.mp h with h | ⟨t, ht, n, hn, hnone, rfl⟩
        · exact hsyntax s hs h
        · exact ⟨.undeclaredPlaceholder hg hs ht hn hnone, Defect.noConfusion⟩

/-- **The list of flaws is complete.** -/
theorem Entry.mem_flaws : d ∈ e.flaws ↔ e.Flaw d := by
  rw [flaws, List.mem_append]
  constructor
  · rintro (h | h)
    · rcases mem_nameFlaws.mp h with ⟨hname, rfl⟩ | ⟨⟨c, hc, hblank⟩, rfl⟩
      · exact .emptyName hname
      · exact .severalWords hc hblank
    · exact (flaw_of_mem_bodyFlaws h).1
  · intro h
    cases h with
    | emptyName h => exact .inl (mem_nameFlaws.mpr (.inl ⟨h, rfl⟩))
    | severalWords hc h => exact .inl (mem_nameFlaws.mpr (.inr ⟨⟨_, hc, h⟩, rfl⟩))
    | badGrammar h => exact .inr ((mem_bodyFlaws_of_error h).mpr (.inl rfl))
    | undeclaredDefault hg hp h =>
        exact .inr ((mem_bodyFlaws_of_ok hg).mpr
          (.inl ⟨_, hp, mem_defaultDefects.mpr (.inl ⟨h, rfl⟩)⟩))
    | unfitDefault hg hp hv h =>
        exact .inr ((mem_bodyFlaws_of_ok hg).mpr
          (.inl ⟨_, hp, mem_defaultDefects.mpr (.inr ⟨_, hv, h, rfl⟩)⟩))
    | badTemplate hs h =>
        exact .inr (mem_bodyFlaws_of_syntaxFlaws hs (mem_syntaxFlaws.mpr ⟨_, h, rfl⟩))
    | undeclaredPlaceholder hg hs ht hn h =>
        exact .inr ((mem_bodyFlaws_of_ok hg).mpr
          (.inr ⟨_, hs, mem_templateDefects.mpr (.inr ⟨_, ht, _, hn, h, rfl⟩)⟩))

end

/-! ## What is reported -/

/-- Whether a defect is reported if the entry has it: an empty name hides all others, and a grammar
that cannot be read hides that a template is none. -/
def Entry.shows (e : Entry) : Defect → Bool
  | .emptyName => true
  | .badTemplate _ _ => e.name != "" && (Notation.parse (e.grammar.getD "")).isOk
  | _ => e.name != ""

section

variable {e : Entry}

/-- A readable entry with a name shows all defects. -/
theorem Entry.shows_of_ok (hname : e.name ≠ "") {scheme : Scheme Unit}
    (hg : Notation.parse (e.grammar.getD "") = .ok scheme) (d : Defect) : e.shows d = true := by
  cases d <;> simp [shows, hname, hg, Except.isOk, Except.toBool]

/-- Field by field the templates of an entry are checked. -/
theorem Entry.flatMap_templates (declared : List (Variable Unit)) :
    (e.templates.flatMap fun s => templateDefects declared s.1 (some s.2))
      = templateDefects declared "reply" e.reply ++ templateDefects declared "preview" e.preview := by
  cases hr : e.reply <;> cases hp : e.preview <;> simp [templates, hr, hp, templateDefects]

/-- **Of an entry those flaws are reported that no other flaw hides**, in the order of the
checks. -/
theorem Entry.defects_eq_filter (e : Entry) : e.defects = e.flaws.filter e.shows := by
  unfold defects
  by_cases hname : e.name = ""
  · -- All that is wrong besides is hidden.
    have hbody : e.bodyFlaws.filter e.shows = [] := by
      rw [List.filter_eq_nil_iff]
      intro d hd hshows
      have hd' := (flaw_of_mem_bodyFlaws hd).2
      cases d <;> simp_all [shows]
    have hfirst : e.nameFlaws = [.emptyName] := by simp [nameFlaws, hname]
    rw [if_pos (by simp [hname]), flaws, List.filter_append, hbody, hfirst, List.append_nil]
    rfl
  · have hword : e.nameFlaws.filter e.shows
        = if e.name.toList.any Text.isBlank then [.severalWords] else [] := by
      rw [nameFlaws, if_neg hname, List.nil_append]
      split_ifs <;> simp [shows, hname]
    rw [if_neg (by simpa using hname), flaws, List.filter_append, hword]
    congr 1
    cases hg : Notation.parse (e.grammar.getD "") with
    | error cause =>
        have htemplates : (e.templates.flatMap fun s => syntaxFlaws s.1 s.2).filter e.shows = [] := by
          rw [List.filter_eq_nil_iff]
          intro d hd
          obtain ⟨s, -, hd⟩ := List.mem_flatMap.mp hd
          obtain ⟨cause', -, rfl⟩ := mem_syntaxFlaws.mp hd
          simp [shows, hg, Except.isOk, Except.toBool]
        simp only [bodyFlaws, hg]
        rw [List.filter_cons_of_pos (by simp [shows, hname]), htemplates]
    | ok scheme =>
        rw [List.filter_eq_self.mpr fun d _ => shows_of_ok hname hg d]
        simp only [bodyFlaws, hg, pairs, flatMap_templates, List.append_assoc]

/-- **An entry without reported flaws has none**: what hides a flaw is a flaw that is shown. -/
theorem Entry.defects_eq_nil_iff_flaws (e : Entry) : e.defects = [] ↔ ∀ d, ¬ e.Flaw d := by
  rw [e.defects_eq_filter, List.filter_eq_nil_iff]
  constructor
  · intro hshown d hd
    have hno : ∀ d', e.Flaw d' → e.shows d' = false :=
      fun d' hd' => Bool.not_eq_true _ ▸ hshown d' (mem_flaws.mpr hd')
    by_cases hname : e.name = ""
    · exact absurd (hno _ (.emptyName hname)) (by simp [shows])
    · cases hg : Notation.parse (e.grammar.getD "") with
      | error cause => exact absurd (hno _ (.badGrammar hg)) (by simp [shows, hname])
      | ok scheme => exact absurd (hno d hd) (by simp [shows_of_ok hname hg])
  · intro hnone d hd
    exact absurd (mem_flaws.mp hd) (hnone d)

end

/-! ## Configurations -/

theorem problemsFrom_eq_flatMap (index : Nat) (entries : List Entry) :
    problemsFrom index entries
      = (entries.zipIdx index).flatMap fun x => x.1.defects.map (⟨x.2, x.1.name, ·⟩) := by
  induction entries generalizing index with
  | nil => rfl
  | cons e rest ih => rw [problemsFrom, ih, List.zipIdx_cons, List.flatMap_cons]

/-- **Validation reports the flaws of every entry that no other flaw of the entry hides.** The flaws
of an entry are listed each without regard to the others: of its name, of its grammar, one for a
default and one for each placeholder, and of its templates. A configuration is accepted exactly if
no entry has a flaw. Otherwise the flaws of all entries are reported, with the places of the
entries, except that of an entry without a name nothing else is, and that no broken template is of
an entry whose grammar cannot be read. -/
theorem validation_reports (c : Config) :
    (∀ (e : Entry) (d : Defect), d ∈ e.flaws ↔ e.Flaw d) ∧
    (c.validate = .ok () ↔ ∀ e ∈ c.entries, ∀ d, ¬ e.Flaw d) ∧
    (c.validate = .ok () ∨ c.validate = .error (.invalid (c.entries.zipIdx.flatMap fun x =>
      (x.1.flaws.filter x.1.shows).map (⟨x.2, x.1.name, ·⟩)))) := by
  refine ⟨fun e d => Entry.mem_flaws, ?_, ?_⟩
  · rw [validate_eq_ok_iff_defects]
    exact forall_congr' fun e => imp_congr_right fun _ => e.defects_eq_nil_iff_flaws
  · have hproblems : c.problems = c.entries.zipIdx.flatMap fun x =>
        (x.1.flaws.filter x.1.shows).map (⟨x.2, x.1.name, ·⟩) := by
      simp only [problems, problemsFrom_eq_flatMap, Entry.defects_eq_filter]
    rw [← hproblems, validate]
    split_ifs
    · exact .inl rfl
    · exact .inr rfl

/-- An entry without a name, and one that is wrong in its name, its default and both its
templates. -/
def flawedConfig : Config := ⟨none, none, some [
  ⟨"", some "<ip", none, none, none, none⟩,
  ⟨"two words", some "<n: number>", none, some "\x7bx\x7d", some "\x7b",
    some (.ofList [("n", "soon")])⟩]⟩

/-- Of the first entry only the name is reported, of the second one all that is wrong. -/
theorem validation_reports_flawed : flawedConfig.validate = .error (.invalid [
    ⟨0, "", .emptyName⟩, ⟨1, "two words", .severalWords⟩,
    ⟨1, "two words", .unfitDefault "soon" "<n: number>"⟩,
    ⟨1, "two words", .undeclaredPlaceholder "reply" "x"⟩,
    ⟨1, "two words", .badTemplate "preview" (.unclosedBrace "\x7b")⟩]) := by
  obtain ⟨-, hok, hreport⟩ := validation_reports flawedConfig
  rcases hreport with haccepted | hrejected
  · exact absurd (.emptyName rfl) (hok.mp haccepted _ List.mem_cons_self .emptyName)
  · rw [hrejected]
    decide +kernel

/-- `kick <ip`, where the grammar cannot be read, and the template of the reply neither. -/
def hiddenConfig : Config :=
  ⟨none, none, some [⟨"kick", some "<ip", none, some "kicked \x7b", none, none⟩]⟩

/-- The template is wrong, and is not reported. -/
theorem validation_hides_template :
    (∃ e ∈ hiddenConfig.entries,
      e.Flaw (.badTemplate "reply" (.unclosedBrace "kicked \x7b"))) ∧
    hiddenConfig.validate
      = .error (.invalid [⟨0, "kick", .badGrammar (.malformed (.unclosedAngle 0))⟩]) := by
  constructor
  · refine ⟨_, List.mem_cons_self, ?_⟩
    have hunclosed : Template.parse "kicked \x7b" = .error (.unclosedBrace "kicked \x7b") := by decide
    exact .badTemplate (by decide) hunclosed
  · decide +kernel

end Config
end CommandGrammar
