import CommandGrammar.Proofs.Graph.Growth
import CommandGrammar.Value.Typing
import CommandGrammar.Matching.Check

/-!
# `Proofs.Graph.Substitution` — changing the variables of a graph

Every variable of a scheme can be exchanged for another one. If the new one has the same identity
and takes as many tokens, the graph of the changed scheme is the graph of the scheme with its
variables changed: the compiler looks at nothing else of a variable (`Graph.compile_mapVariables`).

## Contents
- `Variable.Neutral`: changes that neither the compiler nor a token can see.
- `NodeKind.mapVariable`, `Graph.mapVariables` and what of a graph they leave alone.
- `Builder.mapVariables`, `Scope.mapVariables`: one equation per operation.
- `Graph.compile_mapVariables`.
-/

namespace CommandGrammar

/-- The change leaves alone where a variable stands, how many tokens it takes, and what each token
is for it when the candidates are given. -/
structure Variable.Neutral (f : Variable SegmentId → Variable SegmentId) : Prop where
  id : ∀ v, (f v).id = v.id
  isRest : ∀ v, (f v).isRest = v.isRest
  check : ∀ v token candidates, (f v).check token candidates = v.check token candidates
  coerce : ∀ v token, (f v).coerce token = v.coerce token

/-- To change nothing is neutral. -/
theorem neutral_id : Variable.Neutral id :=
  ⟨fun _ => rfl, fun _ => rfl, fun _ _ _ => rfl, fun _ _ => rfl⟩

/-- The kind of a node with its variable changed. -/
def NodeKind.mapVariable (f : Variable SegmentId → Variable SegmentId) : NodeKind → NodeKind
  | .keyword k => .keyword k
  | .var v => .var (f v)
  | .marker scope isEntry => .marker scope isEntry

/-- The node with its variable changed. -/
def Node.mapVariable (f : Variable SegmentId → Variable SegmentId) (n : Node) : Node :=
  { n with kind := n.kind.mapVariable f }

/-- The graph with every variable changed. -/
def Graph.mapVariables (f : Variable SegmentId → Variable SegmentId) (g : Graph) : Graph :=
  { g with nodes := g.nodes.map (Node.mapVariable f) }

/-- The solid segment with its variable changed. -/
def Solid.mapVariable (f : Variable SegmentId → Variable SegmentId) : Solid → Solid
  | .keyword k => .keyword k
  | .var v => .var (f v)

variable {f : Variable SegmentId → Variable SegmentId}

/-! ## Looking at the graph -/

namespace Graph

variable (g : Graph)

@[simp] theorem entry_mapVariables : (g.mapVariables f).entry = g.entry := rfl

@[simp] theorem exit_mapVariables : (g.mapVariables f).exit = g.exit := rfl

@[simp] theorem size_mapVariables : (g.mapVariables f).nodes.size = g.nodes.size :=
  Array.size_map

theorem mapVariables_id : g.mapVariables id = g := by
  have hnode : Node.mapVariable id = id := by
    funext n
    obtain ⟨kind, edges⟩ := n
    cases kind <;> rfl
  unfold mapVariables
  rw [hnode, Array.map_id]

theorem kind?_mapVariables (i : Nat) :
    (g.mapVariables f).kind? i = (g.kind? i).map (NodeKind.mapVariable f) := by
  unfold kind? mapVariables
  rw [Array.getElem?_map, Option.map_map, Option.map_map]
  rfl

@[simp] theorem successors_mapVariables (i : Nat) :
    (g.mapVariables f).successors i = g.successors i := by
  unfold successors mapVariables
  rw [Array.getElem?_map]
  cases g.nodes[i]? <;> rfl

@[simp] theorem maxDegree_mapVariables : (g.mapVariables f).maxDegree = g.maxDegree := by
  unfold maxDegree mapVariables
  rw [Array.foldl_map]
  rfl

end Graph

/-! ## The arena under construction -/

/-- The arena with every variable changed. -/
def Builder.mapVariables (f : Variable SegmentId → Variable SegmentId) (b : Builder) : Builder :=
  { b with nodes := b.nodes.map (Node.mapVariable f) }

/-- The scope under construction with every variable of its arena changed. -/
def Scope.mapVariables (f : Variable SegmentId → Variable SegmentId) (s : Scope) : Scope :=
  { s with builder := s.builder.mapVariables f }

namespace Builder

variable (b : Builder)

@[simp] theorem size_mapVariables : (b.mapVariables f).size = b.size := Array.size_map

theorem push_mapVariables (kind : NodeKind) :
    (b.mapVariables f).push (kind.mapVariable f)
      = ((b.push kind).1, (b.push kind).2.mapVariables f) := by
  simp [push, mapVariables, Node.mapVariable]

theorem marked_mapVariables : (b.mapVariables f).marked = b.marked.mapVariables f := by
  simp [marked_eq, push, mapVariables, Node.mapVariable, NodeKind.mapVariable]

theorem link_mapVariables (source target : Nat) :
    (b.mapVariables f).link source target = (b.link source target).mapVariables f := by
  unfold link mapVariables
  congr 1
  refine Array.ext_getElem? fun i => ?_
  simp only [Array.getElem?_modify, Array.getElem?_map]
  by_cases hi : source = i
  · cases b.nodes[i]? with
    | none => simp [hi]
    | some n =>
        simp only [hi, if_true, Option.map_some, Node.mapVariable]
        split <;> rfl
  · simp [hi]

theorem linkAll_mapVariables (source : Nat) (targets : List Nat) :
    (b.mapVariables f).linkAll source targets = (b.linkAll source targets).mapVariables f := by
  unfold linkAll
  induction targets generalizing b with
  | nil => rfl
  | cons t ts ih => rw [List.foldl_cons, List.foldl_cons, link_mapVariables, ih]

theorem id?_mapVariable (hf : Variable.Neutral f) (kind : NodeKind) :
    (kind.mapVariable f).id? = kind.id? := by
  cases kind with
  | keyword k => rfl
  | marker scope isEntry => rfl
  | var v => exact congrArg some (hf.id v)

/-- **A changed variable has the node that the variable has.** -/
theorem solid_mapVariables (hf : Variable.Neutral f) (kind : NodeKind) :
    (b.mapVariables f).solid (kind.mapVariable f)
      = ((b.solid kind).1, (b.solid kind).2.mapVariables f) := by
  have hfind : ((b.mapVariables f).nodes.findIdx? fun n => n.kind.id? == (kind.mapVariable f).id?)
      = b.nodes.findIdx? fun n => n.kind.id? == kind.id? := by
    unfold mapVariables
    rw [Array.findIdx?_map]
    congr 1
    funext n
    simp [Node.mapVariable, id?_mapVariable hf]
  unfold solid
  rw [hfind]
  cases b.nodes.findIdx? fun n => n.kind.id? == kind.id? with
  | none => exact b.push_mapVariables kind
  | some i => rfl

theorem enter_mapVariables (source node : Nat) (repeats : Bool) :
    (b.mapVariables f).enter source node repeats = (b.enter source node repeats).mapVariables f := by
  unfold enter
  cases repeats with
  | false => exact b.link_mapVariables source node
  | true => simp [link_mapVariables]

end Builder

namespace Scope

variable (s : Scope)

theorem linkPending_mapVariables (anchor : Nat) (pending : List (Nat × Nat)) (b : Builder) :
    linkPending anchor pending (b.mapVariables f)
      = (linkPending anchor pending b).mapVariables f := by
  induction pending generalizing b with
  | nil => rfl
  | cons p later ih => rw [linkPending, linkPending, Builder.linkAll_mapVariables, ih]

theorem settle_mapVariables (anchor : Nat) :
    (s.mapVariables f).settle anchor = (s.settle anchor).mapVariables f := by
  unfold settle mapVariables
  rw [linkPending_mapVariables]

theorem close_mapVariables (exit : Nat) :
    (s.mapVariables f).close exit = (s.close exit).mapVariables f := by
  unfold close
  rw [settle_mapVariables, ← Builder.link_mapVariables]
  rfl

theorem pass_mapVariables (hf : Variable.Neutral f) (t : Solid) :
    (s.mapVariables f).pass (t.mapVariable f) = (s.pass t).mapVariables f := by
  have hkind : (t.mapVariable f).kind = t.kind.mapVariable f := by cases t <;> rfl
  have hrepeats : (t.mapVariable f).repeats = t.repeats := by
    cases t with
    | keyword k => rfl
    | var v => exact hf.isRest v
  unfold pass mapVariables
  simp only [hkind, hrepeats, Builder.solid_mapVariables _ hf, Builder.enter_mapVariables]

theorem solid_mapVariables (hf : Variable.Neutral f) (t : Solid) :
    (s.mapVariables f).solid (t.mapVariable f).kind (t.mapVariable f).repeats
      = (s.solid t.kind t.repeats).mapVariables f := by
  rw [solid_eq, solid_eq, pass_mapVariables s hf, settle_mapVariables]
  rfl

theorem choiceStart_mapVariables :
    (s.mapVariables f).choiceStart = s.choiceStart.mapVariables f := by
  unfold choiceStart anchor
  have hmarked : (s.mapVariables f).builder.marked = s.builder.marked.mapVariables f :=
    s.builder.marked_mapVariables
  have hsize : (s.mapVariables f).builder.size = s.builder.size := s.builder.size_mapVariables
  simp only [hmarked, hsize, Builder.link_mapVariables]
  exact congrArg Scope.builder (settle_mapVariables
    ⟨s.builder.marked.link s.current s.builder.size, s.current, s.pending⟩ s.builder.size)

end Scope

/-! ## Compilations -/

/-- Every compilation of the changed scheme is the changed compilation. -/
def Scheme.Maps (f : Variable SegmentId → Variable SegmentId) (scheme : Scheme SegmentId) : Prop :=
  ∀ s : Scope, Scheme.compile (s.mapVariables f) (Scheme.mapVariables f scheme)
    = (Scheme.compile s scheme).mapVariables f

theorem Scheme.Maps.enclose {inner : Scheme SegmentId} (h : Scheme.Maps f inner) (b : Builder) :
    (b.mapVariables f).enclose (Scheme.mapVariables f inner)
      = (b.enclose inner).mapVariables f := by
  unfold Builder.enclose
  rw [Builder.marked_mapVariables, Builder.size_mapVariables, ← Scope.close_mapVariables,
    ← h ⟨b.marked, b.size, []⟩]
  rfl

theorem Scheme.Maps.branches {branches : List (Scheme SegmentId)}
    (h : ∀ branch ∈ branches, Scheme.Maps f branch) (entry exit : Nat) (b : Builder) :
    Scheme.compileBranches entry exit (b.mapVariables f) (Scheme.mapBranches f branches)
      = (Scheme.compileBranches entry exit b branches).mapVariables f := by
  induction branches generalizing b with
  | nil => rfl
  | cons branch rest ih =>
      have hbranch : (b.mapVariables f).branch entry exit (Scheme.mapVariables f branch)
          = (b.branch entry exit branch).mapVariables f := by
        unfold Builder.branch
        rw [(h branch (by simp)).enclose b, Builder.size_mapVariables, Builder.link_mapVariables,
          Builder.link_mapVariables]
      rw [Scheme.mapBranches, Scheme.compileBranches_cons, Scheme.compileBranches_cons, hbranch,
        ih fun c hc => h c (List.mem_cons_of_mem branch hc)]

/-- **Compiling commutes with changing variables.** -/
theorem Scheme.compile_maps (hf : Variable.Neutral f) (scheme : Scheme SegmentId) :
    Scheme.Maps f scheme := by
  induction scheme using Scheme.induct with
  | nil => exact fun s => rfl
  | solid t rest ih =>
      intro s
      have hsegment : t.segment.mapVariables f = (t.mapVariable f).segment := by cases t <;> rfl
      rw [Scheme.mapVariables, Scheme.compile_cons, Scheme.compile_cons, hsegment,
        Segment.compile_solid, Segment.compile_solid, Scope.solid_mapVariables s hf, ih]
  | optional inner rest ihinner ihrest =>
      intro s
      have hgroup : (s.mapVariables f).group (Scheme.mapVariables f inner)
          = (s.group inner).mapVariables f := by
        unfold Scope.group Scope.mapVariables
        rw [ihinner.enclose, Builder.size_mapVariables, Builder.link_mapVariables]
      rw [Scheme.mapVariables, Segment.mapVariables, Scheme.compile_cons, Scheme.compile_cons,
        Segment.compile_optional, Segment.compile_optional, hgroup, ihrest]
  | union branches rest ihbranches ihrest =>
      intro s
      have hchoice : (s.mapVariables f).choice (Scheme.mapBranches f branches)
          = (s.choice branches).mapVariables f := by
        have hsize : (s.mapVariables f).builder.size = s.builder.size :=
          s.builder.size_mapVariables
        unfold Scope.choice
        rw [hsize, Scope.choiceStart_mapVariables, Scheme.Maps.branches ihbranches]
        rfl
      rw [Scheme.mapVariables, Segment.mapVariables, Scheme.compile_cons, Scheme.compile_cons,
        Segment.compile_union, Segment.compile_union, hchoice, ihrest]

/-- **The graph of the changed scheme is the changed graph**, and it uses as many scopes. -/
theorem Graph.compile_mapVariables (hf : Variable.Neutral f) (nextScope : Nat)
    (scheme : Scheme SegmentId) :
    Graph.compile nextScope (Scheme.mapVariables f scheme)
      = ((Graph.compile nextScope scheme).1.mapVariables f, (Graph.compile nextScope scheme).2) := by
  have hempty : (⟨#[], nextScope⟩ : Builder).mapVariables f = ⟨#[], nextScope⟩ := by
    simp [Builder.mapVariables]
  have henclose := (Scheme.compile_maps hf scheme).enclose ⟨#[], nextScope⟩
  rw [hempty] at henclose
  show ((Builder.enclose ⟨#[], nextScope⟩ (Scheme.mapVariables f scheme)).view,
    (Builder.enclose ⟨#[], nextScope⟩ (Scheme.mapVariables f scheme)).nextScope) = _
  rw [henclose]
  rfl

end CommandGrammar
