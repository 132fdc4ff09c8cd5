import CommandGrammar.Config.Commands
import CommandGrammar.Proofs.Config.Validation
import CommandGrammar.Proofs.Resolution.Bindings

/-!
# `Proofs.Config.Commands` — the commands of sound entries

Validation and the declaration of commands read grammars and templates independently, and they look
at defaults differently: validation checks one against the first variable of its name, every
variable of the name gets it, and the first one that a resolution comes to is bound. These agree
because changing and numbering the variables of a scheme leaves their order and their names alone
(`Entry.variables_numbered`): the variable that is checked is the one whose default is bound.

## Contents
- `Command.declare_ok`: a command with a name can be declared.
- `Config.Entry.withDefault`, `Config.Entry.Declares`: the command of an entry.
- `Config.Entry.declare_ok`, `Config.declareAll_ok`: sound entries have commands.
- `Config.Entry.defaultOf_withDefault`, `Config.Entry.Declares.defaultOf_eq`: the default that is
  bound.
-/

namespace CommandGrammar

/-! ## Commands with a name -/

theorem Command.declare_ok (supply : Supply) {name : String} (hname : name ≠ "")
    (scheme : Scheme SegmentId) (action : Invocation → Except Failure Outcome) :
    ∃ c supply', Command.declare supply name scheme action = .ok (c, supply') ∧ c.name = name ∧
      c.scheme = .keyword ⟨supply.segment, name, none⟩ :: scheme ∧
      c.graph = (Graph.compile supply.scope c.scheme).1 := by
  have hkeyword : Keyword.named supply.segment name = some ⟨supply.segment, name, none⟩ := by
    simp [Keyword.named, hname]
  unfold Command.declare
  rw [hkeyword]
  exact ⟨_, _, rfl, rfl, rfl, rfl⟩

namespace Config

/-! ## The command of an entry -/

/-- The variable with its configured default, if it has one. -/
def Entry.withDefault (e : Entry) (v : Variable Unit) : Variable Unit :=
  match e.default? v.name with
  | some raw => { v with default := some (v.coerce raw) }
  | none => v

theorem Entry.attachDefaults_eq (e : Entry) (scheme : Scheme Unit) :
    attachDefaults (e.defaults.getD NameMap.empty) scheme
      = Scheme.mapVariables e.withDefault scheme := rfl

@[simp] theorem Entry.name_withDefault (e : Entry) (v : Variable Unit) :
    (e.withDefault v).name = v.name := by
  unfold withDefault
  split <;> rfl

/-- The command is compiled from the scheme of the entry, with the defaults that are configured. -/
structure Entry.Declares (e : Entry) (c : Command) : Prop where
  name : c.name = e.name
  compiled : ∃ scope, c.graph = (Graph.compile scope c.scheme).1
  declared : (Scheme.variables c.scheme).map Variable.unnumbered
    = e.declared.map fun v => (e.withDefault v).unnumbered

theorem readTemplate_ok {source : Option String} {declared : List (Variable Unit)}
    (h : ∀ s ∈ source, Template.Covered declared s) : ∃ t, readTemplate source = .ok t := by
  cases source with
  | none => exact ⟨none, rfl⟩
  | some s =>
      obtain ⟨t, ht, -⟩ := h s rfl
      exact ⟨some t, by simp [readTemplate, ht]⟩

/-- The scheme of an entry with its defaults and with identities from `next` on; also the first
identity not used. -/
def Entry.numbered (e : Entry) (scheme : Scheme Unit) (next : SegmentId) :
    Scheme SegmentId × SegmentId :=
  Scheme.number next (attachDefaults (e.defaults.getD NameMap.empty) scheme)

/-- Neither defaults nor identities change the order of the variables. -/
theorem Entry.variables_numbered (e : Entry) (scheme : Scheme Unit) (next : SegmentId) :
    (Scheme.variables (e.numbered scheme next).1).map Variable.unnumbered
      = (Scheme.variables scheme).map fun v => (e.withDefault v).unnumbered := by
  unfold Entry.numbered
  rw [Scheme.unnumbered_number, e.attachDefaults_eq, Scheme.variables_mapVariables, List.map_map]
  rfl

/-- **A sound entry has a command.** -/
theorem Entry.declare_ok {e : Entry} {scheme : Scheme Unit} (h : e.Sound scheme)
    (supply : Supply) : ∃ c supply', e.declare supply = .ok (c, supply') ∧ e.Declares c := by
  obtain ⟨reply, hreply⟩ := readTemplate_ok h.reply
  obtain ⟨preview, hpreview⟩ := readTemplate_ok h.preview
  obtain ⟨c, supply', hc, hname, hscheme, hgraph⟩ := Command.declare_ok
    { supply with segment := (e.numbered scheme supply.segment).2 } h.name_ne_empty
    (e.numbered scheme supply.segment).1 (replyAction reply)
  have hdeclare : e.declare supply = .ok ({ c with
      comment := e.comment
      preview := preview.map fun t i => some (t.render i.bindings) }, supply') := by
    unfold Entry.numbered at hc
    simp only [Entry.declare, h.grammar, hreply, hpreview, pure, Except.pure, bind, Except.bind, hc]
  have hdeclared : (Scheme.variables c.scheme).map Variable.unnumbered
      = e.declared.map fun v => (e.withDefault v).unnumbered := by
    -- The keyword in front declares no variable.
    rw [hscheme, Scheme.variables_cons, h.declared_eq, ← e.variables_numbered scheme supply.segment]
    rfl
  exact ⟨_, _, hdeclare, hname, ⟨_, hgraph⟩, hdeclared⟩

/-- **Sound entries have commands, each its own, in the same order.** -/
theorem declareAll_ok {entries : List Entry} (h : ∀ e ∈ entries, ∃ scheme, e.Sound scheme)
    (supply : Supply) : ∃ cs supply', declareAll supply entries = .ok (cs, supply') ∧
      List.Forall₂ Entry.Declares entries cs := by
  induction entries generalizing supply with
  | nil => exact ⟨[], supply, rfl, .nil⟩
  | cons e rest ih =>
      obtain ⟨⟨scheme, he⟩, hrest⟩ := List.forall_mem_cons.mp h
      obtain ⟨c, next, hc, hdeclares⟩ := Entry.declare_ok he supply
      obtain ⟨cs, supply', hcs, hall⟩ := ih hrest next
      refine ⟨c :: cs, supply', ?_, .cons hdeclares hall⟩
      simp only [declareAll, hc, bind, Except.bind, hcs]
      rfl

/-! ## The default that is bound -/

theorem Entry.defaultBinding_withDefault (e : Entry) {v : Variable Unit} (h : v.default = none) :
    (e.withDefault v).defaultBinding
      = (e.default? v.name).map fun raw => v.binding (v.coerce raw) := by
  unfold withDefault Variable.defaultBinding
  cases e.default? v.name with
  | none => simp [h]
  | some raw => rfl

/-- Of the variables with a name the first one decides what is bound: all of them have a default, or
none has. -/
theorem Entry.defaultOf_withDefault (e : Entry) (name : String) {declared : List (Variable Unit)}
    (h : ∀ v ∈ declared, v.default = none) :
    Bindings.defaultOf name (declared.map e.withDefault)
      = (declared.find? fun v => v.name == name).bind fun v =>
          (e.default? name).map fun raw => v.binding (v.coerce raw) := by
  induction declared with
  | nil => rfl
  | cons v rest ih =>
      obtain ⟨hv, hrest⟩ := List.forall_mem_cons.mp h
      unfold Bindings.defaultOf at ih ⊢
      rw [List.map_cons, List.findSome?_cons, name_withDefault, ih hrest]
      by_cases hname : v.name = name
      · subst hname
        rw [if_pos rfl, e.defaultBinding_withDefault hv, List.find?_cons_of_pos (by simp)]
        -- Without a configured default the later variables of the name have none either.
        cases hraw : e.default? v.name with
        | none => simp
        | some raw => rfl
      · rw [if_neg hname, List.find?_cons_of_neg (by simpa using hname)]

/-- **A command binds the default that its entry configures**, by the first variable of the
name. -/
theorem Entry.Declares.defaultOf_eq {e : Entry} {c : Command} (h : e.Declares c)
    (hdeclared : ∀ v ∈ e.declared, v.default = none) (name : String) :
    Bindings.defaultOf name (Scheme.variables c.scheme)
      = (e.declared.find? fun v => v.name == name).bind fun v =>
          (e.default? name).map fun raw => v.binding (v.coerce raw) := by
  rw [← Bindings.defaultOf_unnumbered, h.declared]
  show Bindings.defaultOf name (e.declared.map (Variable.unnumbered ∘ e.withDefault)) = _
  rw [← List.map_map, Bindings.defaultOf_unnumbered, e.defaultOf_withDefault name hdeclared]

end Config
end CommandGrammar
