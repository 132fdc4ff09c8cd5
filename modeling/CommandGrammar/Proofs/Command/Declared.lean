import CommandGrammar.Command
import CommandGrammar.Proofs.Graph.Substitution
import CommandGrammar.Proofs.Matching.Walks

/-!
# `Proofs.Command.Declared` — commands as they are declared

A command has a name, a scheme that is led by the keyword of that name, and the graph of that
scheme: `Command.declare` makes no other, and a comment or a preview changes none of the three. This
is all that is assumed of the commands of a registry.

## Contents
- `Command.Declared`, `Command.declared_iff`.
- `Declared.ranked`, `Declared.uniqueIds`, `Declared.framed`: what the graph of a command is like.
- `Command.mapVariables`, `Declared.mapVariables`: changing variables after the declaration.
- `silentCommand`: a command for examples.
-/

namespace CommandGrammar

namespace Command

/-- The command was declared, before it may have been given a comment and a preview. -/
def Declared (c : Command) : Prop :=
  ∃ supply scheme supply', declare supply c.name scheme c.action
    = .ok ({ c with comment := none, preview := none }, supply')

/-- **A command has a name, its scheme is led by the keyword of that name, and its graph is that of
the scheme.** -/
theorem declared_iff {c : Command} :
    c.Declared ↔ c.name ≠ "" ∧ ∃ id scope rest,
      c.scheme = .keyword ⟨id, c.name, none⟩ :: rest ∧
      c.graph = (Graph.compile scope c.scheme).1 := by
  obtain ⟨name, comment, scheme, graph, action, preview⟩ := c
  constructor
  · rintro ⟨supply, rest, supply', h⟩
    unfold declare Keyword.named at h
    by_cases hname : name = ""
    · simp [hname] at h
    · simp only [String.isEmpty_iff, hname, if_false] at h
      injection h with h
      injection h with hcommand
      injection hcommand with _ _ hscheme hgraph
      subst hscheme
      exact ⟨hname, supply.segment, supply.scope, rest, rfl, hgraph.symm⟩
  · rintro ⟨hname, id, scope, rest, hscheme, hgraph⟩
    simp only at hname hscheme hgraph
    subst hscheme hgraph
    refine ⟨⟨id, scope⟩, rest,
      ⟨id + 1, (Graph.compile scope (.keyword ⟨id, name, none⟩ :: rest)).2⟩, ?_⟩
    simp only [declare, Keyword.named, String.isEmpty_iff, hname, if_false]

namespace Declared

variable {c : Command}

theorem compiled (h : c.Declared) : ∃ scope, c.graph = (Graph.compile scope c.scheme).1 := by
  obtain ⟨-, -, scope, -, -, hgraph⟩ := declared_iff.mp h
  exact ⟨scope, hgraph⟩

theorem ranked (h : c.Declared) : ∃ rank, c.graph.Ranked rank := by
  obtain ⟨scope, hgraph⟩ := h.compiled
  rw [hgraph]
  exact Graph.compile_ranked scope c.scheme

theorem uniqueIds (h : c.Declared) : c.graph.UniqueIds := by
  obtain ⟨scope, hgraph⟩ := h.compiled
  rw [hgraph]
  exact Graph.compile_uniqueIds scope c.scheme

theorem framed (h : c.Declared) : c.graph.Framed := by
  obtain ⟨scope, hgraph⟩ := h.compiled
  rw [hgraph]
  exact Graph.compile_framed scope c.scheme

end Declared

/-! ## Changing variables -/

/-- The command with every variable changed, in its scheme and in its graph. -/
def mapVariables (f : Variable SegmentId → Variable SegmentId) (c : Command) : Command :=
  { c with scheme := Scheme.mapVariables f c.scheme, graph := c.graph.mapVariables f }

/-- **With its variables changed a command is one that could have been declared so.** -/
theorem Declared.mapVariables {f : Variable SegmentId → Variable SegmentId}
    (hf : Variable.Neutral f) {c : Command} (h : c.Declared) : (c.mapVariables f).Declared := by
  obtain ⟨hname, id, scope, rest, hscheme, hgraph⟩ := declared_iff.mp h
  refine declared_iff.mpr ⟨hname, id, scope, Scheme.mapVariables f rest, ?_, ?_⟩
  · show Scheme.mapVariables f c.scheme = _
    rw [hscheme]
    rfl
  · show c.graph.mapVariables f = (Graph.compile scope (Scheme.mapVariables f c.scheme)).1
    rw [Graph.compile_mapVariables hf, hgraph]

end Command

/-- A command that answers with silence. -/
def silentCommand (name : String) (scheme : Scheme SegmentId) : Command :=
  ⟨name, none, scheme, (Graph.compile 0 scheme).1, fun _ => .ok .silent, none⟩

theorem silentCommand_declared {name : String} (hname : name ≠ "") (id : SegmentId)
    (rest : Scheme SegmentId) :
    (silentCommand name (.keyword ⟨id, name, none⟩ :: rest)).Declared :=
  Command.declared_iff.mpr ⟨hname, id, 0, rest, rfl, rfl⟩

end CommandGrammar
