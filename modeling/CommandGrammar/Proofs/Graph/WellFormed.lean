import CommandGrammar.Proofs.Graph.Inventory
import CommandGrammar.Proofs.Graph.Trim
import CommandGrammar.Proofs.Matching.Walks

/-!
# `Proofs.Graph.WellFormed` — the shape of compiled graphs

What can be said of every compiled graph without looking at what it accepts: links lead into the
arena and are made once, none leads back to the entry and none leaves the exit, every identity has
one node and every scope two markers (`Graph.WellFormed`). If all unions offer a branch, no node is
useless (`Graph.Trim`), from wherever a match has come to solid nodes lead on to the exit
(`Graph.Completable`), and so a session that has found nodes for a whole line has a match of it
(`Graph.NeverStuck`).

Scopes are numbered through all graphs that are compiled one after the other. A marker keeps 32 bits
of its number. As long as there are no more scopes than that, these tell all of them apart, in
whatever graph they are (`Graph.ScopesDiffer`), also if they have started anew from zero in between.

## Contents
- `Graph.WellFormed`, `Graph.compile_wellFormed`: the nodes and links of one graph.
- `Graph.Completable`, `Graph.NeverStuck`, `Graph.Trim.completable`, `Graph.Completable.neverStuck`:
  no dead ends.
- `Graph.compileAll`, `Graph.pairwise_compileAll`, `Graph.compileAll_scopesDiffer`: the numbers of
  several graphs.
- `Graph.compileAll_wellFormed_trim`: all of this for graphs compiled one after the other.
-/

namespace CommandGrammar

/-! ## One graph -/

/-- The nodes and links that a graph of the scheme has to have, its scopes numbered from `first`
on. -/
structure Graph.WellFormed (g : Graph) (first : Nat) (scheme : Scheme SegmentId) : Prop where
  entry_lt : g.entry < g.nodes.size
  exit_lt : g.exit < g.nodes.size
  closed : g.Closed
  nodup : ∀ i, (g.successors i).Nodup
  entry_notMem : ∀ i, g.entry ∉ g.successors i
  successors_exit : g.successors g.exit = []
  /-- Each identity of the scheme has one node, however often it stands there. -/
  solid : ∀ id ∈ Scheme.ids scheme, ∃! i, ∃ t, g.solid? i = some t ∧ t.id = id
  mem_solids : ∀ i t, g.solid? i = some t → t ∈ Scheme.solids scheme
  /-- Each scope of the scheme has one entry and one exit. -/
  numbered : g.Numbered first (first + Scheme.scopes scheme)
  kind?_entry : g.kind? g.entry = some (.marker first true)
  kind?_exit : g.kind? g.exit = some (.marker first false)

theorem Graph.compile_wellFormed (first : Nat) (scheme : Scheme SegmentId) :
    (Graph.compile first scheme).1.WellFormed first scheme where
  entry_lt := Graph.lt_size_of_kind? (Graph.compile_kind?_entry first scheme)
  exit_lt := Graph.lt_size_of_kind? (Graph.compile_kind?_exit first scheme)
  closed := Graph.compile_closed first scheme
  nodup := Graph.compile_successors_nodup first scheme
  entry_notMem := Graph.compile_entry_notMem first scheme
  successors_exit := Graph.compile_successors_exit first scheme
  solid := fun _ hid => Graph.compile_existsUnique_solid first scheme hid
  mem_solids := fun _ _ ht => Graph.mem_solids_of_compile ht
  numbered := Graph.compile_numbered first scheme
  kind?_entry := Graph.compile_kind?_entry first scheme
  kind?_exit := Graph.compile_kind?_exit first scheme

/-! ## No dead ends -/

namespace Graph

variable {g : Graph} {i : Nat} {ns : List Nat}

/-- Solid nodes `ms` lead on behind the walk `ns` from `i`, as far as the exit. -/
structure Completion (g : Graph) (i : Nat) (ns ms : List Nat) : Prop where
  solid : ∀ m ∈ ms, ∃ t, g.solid? m = some t
  chain : List.IsChain g.Leads (i :: (ns ++ ms))
  leaves : g.Leads ((ns ++ ms).getLastD i) g.exit

/-- Whatever candidates there are and whatever nodes have taken the tokens so far, a way to the exit
is left. -/
def Completable (g : Graph) : Prop :=
  ∀ (c : Variable SegmentId → List String) (argv : List String) (ns : List Nat),
    List.IsChain g.Leads (g.entry :: ns) → List.Forall₂ (g.Takes c) ns argv →
    ∃ ms, g.Completion g.entry ns ms

/-- A marker in front is passed. -/
theorem Completion.through {j : Nat} {ms : List Nat} (hj : j ∈ g.successors i)
    (hmarker : g.IsMarker j) (h : g.Completion j [] ms) : g.Completion i [] ms := by
  cases ms with
  | nil => exact ⟨h.solid, List.isChain_singleton i, .through hj hmarker h.leaves⟩
  | cons m ms =>
      obtain ⟨hlead, hchain⟩ := List.isChain_cons_cons.mp h.chain
      refine ⟨h.solid, List.isChain_cons_cons.mpr ⟨.through hj hmarker hlead, hchain⟩, ?_⟩
      have hleaves := h.leaves
      rw [List.nil_append, List.getLastD_cons] at hleaves ⊢
      exact hleaves

theorem Completion.cons {n : Nat} {ms : List Nat} (hlead : g.Leads i n)
    (h : g.Completion n ns ms) : g.Completion i (n :: ns) ms := by
  refine ⟨h.solid, List.isChain_cons_cons.mpr ⟨hlead, h.chain⟩, ?_⟩
  rw [List.cons_append, List.getLastD_cons]
  exact h.leaves

/-- **A way to the exit passes solid nodes**, with markers in between. -/
theorem Path.exists_completion (hc : g.Closed) (h : g.Path i g.exit) (hne : i ≠ g.exit) :
    ∃ ms, g.Completion i [] ms := by
  -- From the end of the way: the node in front is a segment and comes first, or it is passed.
  induction h using Relation.ReflTransGen.head_induction_on with
  | refl => exact absurd rfl hne
  | @head i j hj _ ih =>
      by_cases hexit : j = g.exit
      · rw [hexit] at hj
        exact ⟨[], fun m hm => absurd hm (by simp), List.isChain_singleton i, .link hj⟩
      obtain ⟨ms, h⟩ := ih hexit
      cases ht : g.solid? j with
      | some t =>
          refine ⟨j :: ms, ?_, List.isChain_cons_cons.mpr ⟨.link hj, h.chain⟩, ?_⟩
          · intro m hm
            rcases List.mem_cons.mp hm with rfl | hm
            · exact ⟨t, ht⟩
            · exact h.solid m hm
          · rw [List.nil_append, List.getLastD_cons]
            exact h.leaves
      | none =>
          refine ⟨ms, h.through hj ?_⟩
          rcases solid?_eq_none.mp ht with hnone | hmarker
          · rw [kind?_of_lt_size (hc i j hj)] at hnone
            exact absurd hnone (by simp)
          · exact hmarker

/-- **Where every node leads to the exit, every match can be completed.** -/
theorem Trim.completable (h : g.Trim) (hg : g.Framed) (hc : g.Closed) : g.Completable := by
  intro c argv ns hchain htakes
  have hexit : g.IsMarker g.exit := by
    obtain ⟨scope, hk⟩ := hg.kind?_exit
    exact ⟨scope, false, hk⟩
  have hentry : g.entry < g.nodes.size := by
    obtain ⟨scope, isEntry, hk⟩ := hg.isMarker_entry
    exact lt_size_of_kind? hk
  -- On the walk: wherever it has come to is not the exit, but the entry or a node with a token.
  have key : ∀ ns i argv, i < g.nodes.size → i ≠ g.exit → List.IsChain g.Leads (i :: ns) →
      List.Forall₂ (g.Takes c) ns argv → ∃ ms, g.Completion i ns ms := by
    intro ns
    induction ns with
    | nil => exact fun i _ hi hne _ _ => (h.leaves i hi).exists_completion hc hne
    | cons n ns ih =>
        intro i argv _ _ hchain htakes
        obtain ⟨hlead, hchain⟩ := List.isChain_cons_cons.mp hchain
        obtain ⟨token, rest, ⟨t, ht, -⟩, htakes, -⟩ := List.forall₂_cons_left_iff.mp htakes
        have hne : n ≠ g.exit := by
          rintro rfl
          exact hexit.solid?_ne_some t ht
        have hlt := lt_size_of_kind? (solid?_eq_some.mp ht)
        obtain ⟨ms, hms⟩ := ih n rest hlt hne hchain htakes
        exact ⟨ms, hms.cons hlead⟩
  exact key ns g.entry argv hentry hg.entry_ne_exit hchain htakes

/-- Whenever nodes have taken a whole line, one of its matches begins with them: the line can be
invoked behind them, or a segment waits there for another token. -/
def NeverStuck (g : Graph) : Prop :=
  ∀ (s : Session) (argv : List String) (ns : List Nat), List.IsChain g.Leads (g.entry :: ns) →
    List.Forall₂ (g.Takes s.answers) ns argv → ∃ m ∈ (s.matches g argv).1, ns <+: m.nodes

/-- The first node on the way that is left waits. -/
theorem Completable.neverStuck {rank : Nat → Nat} (h : g.Completable) (hr : g.Ranked rank)
    (hu : g.UniqueIds) (hg : g.Framed) : g.NeverStuck := by
  intro s argv ns hchain htakes
  obtain ⟨ms, hms⟩ := h s.answers argv ns hchain htakes
  cases ms with
  | nil =>
      have hleaves := hms.leaves
      rw [List.append_nil] at hleaves
      obtain ⟨m, hm, -, hnodes⟩ := (s.invokable_iff hr hu hg ns).mpr ⟨hchain, htakes, hleaves⟩
      exact ⟨m, hm, hnodes ▸ List.prefix_rfl⟩
  | cons n ms =>
      obtain ⟨t, ht⟩ := hms.solid n List.mem_cons_self
      have hwaits : g.PartialWalk s.answers g.entry argv (ns ++ [n]) := by
        refine ⟨?_, ns, n, argv, [], rfl, (List.append_nil argv).symm, htakes, t, ht, .pending⟩
        have happend : g.entry :: (ns ++ n :: ms) = (g.entry :: (ns ++ [n])) ++ ms := by simp
        have hlonger := hms.chain
        rw [happend] at hlonger
        exact hlonger.left_of_append
      obtain ⟨m, hm, -, hnodes⟩ := (s.partial_iff hr hu hg (ns ++ [n])).mpr hwaits
      exact ⟨m, hm, hnodes ▸ List.prefix_append ns [n]⟩

end Graph

/-- **From wherever a match has come to, the graph of a scheme whose unions all offer a branch leads
on to its exit.** -/
theorem Graph.compile_completable (nextScope : Nat) {scheme : Scheme SegmentId}
    (h : Scheme.choosable scheme = true) : (Graph.compile nextScope scheme).1.Completable :=
  (Graph.compile_trim nextScope h).completable (Graph.compile_framed nextScope scheme)
    (Graph.compile_closed nextScope scheme)

/-- **No match gets stuck**, in whatever session. -/
theorem Graph.compile_neverStuck (nextScope : Nat) {scheme : Scheme SegmentId}
    (h : Scheme.choosable scheme = true) : (Graph.compile nextScope scheme).1.NeverStuck := by
  obtain ⟨rank, hr⟩ := Graph.compile_ranked nextScope scheme
  exact (Graph.compile_completable nextScope h).neverStuck hr
    (Graph.compile_uniqueIds nextScope scheme) (Graph.compile_framed nextScope scheme)

/-! ## Several graphs -/

/-- The graphs of several schemes, compiled one after the other: each goes on with the numbers where
the one before it stopped. -/
def Graph.compileAll (nextScope : Nat) : List (Scheme SegmentId) → List Graph
  | [] => []
  | scheme :: rest =>
    (Graph.compile nextScope scheme).1 :: Graph.compileAll (Graph.compile nextScope scheme).2 rest

/-- The 32 bits that a marker keeps of its number tell which graph it is in and which of the scopes
there it belongs to. -/
def Graph.ScopesDiffer (graphs : List Graph) : Prop :=
  ∀ (a a' : Nat) (g g' : Graph) (i i' scope scope' : Nat) (isEntry isEntry' : Bool),
    graphs[a]? = some g → graphs[a']? = some g' →
    g.kind? i = some (.marker scope isEntry) → g'.kind? i' = some (.marker scope' isEntry') →
    UInt32.ofNat scope = UInt32.ofNat scope' → a = a' ∧ scope = scope'

/-- All scopes of the one graph have smaller numbers than those of the other. -/
def Graph.Before (g g' : Graph) : Prop :=
  ∀ (i i' scope scope' : Nat) (isEntry isEntry' : Bool), g.kind? i = some (.marker scope isEntry) →
    g'.kind? i' = some (.marker scope' isEntry') → scope < scope'

namespace Graph

variable {schemes : List (Scheme SegmentId)}

/-- The numbers that are given out to all graphs together. -/
theorem bounds_of_mem_compileAll {nextScope : Nat} {g : Graph}
    (hg : g ∈ compileAll nextScope schemes) {i scope : Nat} {isEntry : Bool}
    (hk : g.kind? i = some (.marker scope isEntry)) :
    nextScope ≤ scope ∧ scope < nextScope + Scheme.totalScopes schemes := by
  induction schemes generalizing nextScope with
  | nil => exact absurd hg (by simp [compileAll])
  | cons scheme rest ih =>
      rw [Scheme.totalScopes]
      rcases List.mem_cons.mp hg with rfl | hg
      · have hbounds := (compile_numbered nextScope scheme).mem i scope isEntry hk
        omega
      · have hbounds := ih hg
        rw [compile_next] at hbounds
        omega

/-- **Numbers are never given out again**: those of later graphs are larger. -/
theorem pairwise_compileAll (nextScope : Nat) (schemes : List (Scheme SegmentId)) :
    (compileAll nextScope schemes).Pairwise Before := by
  induction schemes generalizing nextScope with
  | nil => exact List.Pairwise.nil
  | cons scheme rest ih =>
      refine List.pairwise_cons.mpr ⟨?_, ih _⟩
      intro g' hg' i i' scope scope' isEntry isEntry' hk hk'
      have hlt := ((compile_numbered nextScope scheme).mem i scope isEntry hk).2
      have hle := (bounds_of_mem_compileAll hg' hk').1
      rw [compile_next] at hle
      omega

/-- 32 bits tell the numbers of a range apart that is no longer than they allow, wherever it
begins. -/
theorem eq_of_uint32_eq {first m n : Nat} (hm : first ≤ m ∧ m < first + UInt32.size)
    (hn : first ≤ n ∧ n < first + UInt32.size) (h : UInt32.ofNat m = UInt32.ofNat n) : m = n := by
  have hmod := congrArg UInt32.toNat h
  rw [UInt32.toNat_ofNat', UInt32.toNat_ofNat'] at hmod
  rw [show UInt32.size = 2 ^ 32 from rfl] at hm hn
  omega

/-- **As long as there are no more scopes than markers can number, no two have the same number**,
neither in one graph nor in two. -/
theorem compileAll_scopesDiffer (nextScope : Nat)
    (h : Scheme.totalScopes schemes ≤ UInt32.size) : ScopesDiffer (compileAll nextScope schemes) := by
  intro a a' g g' i i' scope scope' isEntry isEntry' hg hg' hk hk' heq
  have hbounds := bounds_of_mem_compileAll (List.mem_of_getElem? hg) hk
  have hbounds' := bounds_of_mem_compileAll (List.mem_of_getElem? hg') hk'
  have hscope : scope = scope' := by
    apply eq_of_uint32_eq ⟨hbounds.1, ?_⟩ ⟨hbounds'.1, ?_⟩ heq
    · omega
    · omega
  refine ⟨?_, hscope⟩
  obtain ⟨hlt, rfl⟩ := List.getElem?_eq_some_iff.mp hg
  obtain ⟨hlt', rfl⟩ := List.getElem?_eq_some_iff.mp hg'
  have hpairwise := List.pairwise_iff_getElem.mp (pairwise_compileAll nextScope schemes)
  rcases Nat.lt_trichotomy a a' with hless | rfl | hgreater
  · have := hpairwise a a' hlt hlt' hless i i' scope scope' isEntry isEntry' hk hk'
    omega
  · rfl
  · have := hpairwise a' a hlt' hlt hgreater i' i scope' scope isEntry' isEntry hk' hk
    omega

/-- What holds of each compilation, wherever the numbers begin, holds of several. -/
theorem forall₂_compileAll {P : Scheme SegmentId → Graph → Prop}
    (h : ∀ nextScope scheme, P scheme (compile nextScope scheme).1) (nextScope : Nat)
    (schemes : List (Scheme SegmentId)) : List.Forall₂ P schemes (compileAll nextScope schemes) := by
  induction schemes generalizing nextScope with
  | nil => exact List.Forall₂.nil
  | cons scheme rest ih => exact List.Forall₂.cons (h nextScope scheme) (ih _)

/-- **Compiled graphs are well formed and trim**: well formed whatever the schemes are, trim and
without dead ends where all unions offer a branch. No two of their scopes share a number while 32
bits are enough for all of them. -/
theorem compileAll_wellFormed_trim (nextScope : Nat) (schemes : List (Scheme SegmentId)) :
    List.Forall₂ (fun scheme g => (∃ first, g.WellFormed first scheme) ∧
        (Scheme.choosable scheme = true → g.Trim ∧ g.Completable ∧ g.NeverStuck))
      schemes (compileAll nextScope schemes) ∧
    (Scheme.totalScopes schemes ≤ UInt32.size →
      ScopesDiffer (compileAll nextScope schemes)) := by
  refine ⟨forall₂_compileAll ?_ nextScope schemes, compileAll_scopesDiffer nextScope⟩
  intro first scheme
  refine ⟨⟨first, compile_wellFormed first scheme⟩, ?_⟩
  intro hchoosable
  exact ⟨compile_trim first hchoosable, compile_completable first hchoosable,
    compile_neverStuck first hchoosable⟩

/-- `echo <word>... [echo] (<word>... | echo [<word>...])` with one and the same keyword and
variable. -/
def echoScheme : Scheme SegmentId :=
  let echo : Segment SegmentId := .keyword ⟨0, "echo", none⟩
  let word : Segment SegmentId := .var ⟨1, "word", none, [], none, true, none, none⟩
  [echo, word, .optional [echo], .union [[word], [echo, .optional [word]]]]

/-- Twice the same scheme, and the counter overflows on the way. -/
theorem compileAll_wellFormed_trim_echo :
    let schemes := [echoScheme, echoScheme]
    let graphs := compileAll (UInt32.size - 3) schemes
    (∀ scheme ∈ schemes, Scheme.choosable scheme = true) ∧ Scheme.totalScopes schemes = 12 ∧
    List.Forall₂ (fun scheme g => (∃ first, g.WellFormed first scheme) ∧
        g.Trim ∧ g.Completable ∧ g.NeverStuck) schemes graphs ∧ ScopesDiffer graphs := by
  intro schemes graphs
  have hchoosable : ∀ scheme ∈ schemes, Scheme.choosable scheme = true := by decide
  have htotal : Scheme.totalScopes schemes = 12 := by decide
  obtain ⟨hgraphs, hdiffer⟩ := compileAll_wellFormed_trim (UInt32.size - 3) schemes
  refine ⟨hchoosable, htotal, ?_, hdiffer ?_⟩
  · apply ((List.forall₂_and_left _ _).mpr ⟨hchoosable, hgraphs⟩).imp
    rintro scheme g ⟨hchoose, hwellFormed, htrim⟩
    exact ⟨hwellFormed, htrim hchoose⟩
  · rw [htotal]
    decide

end Graph

end CommandGrammar
