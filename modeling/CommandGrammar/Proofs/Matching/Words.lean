import CommandGrammar.Proofs.Graph.Words
import CommandGrammar.Proofs.Matching.Walks

/-!
# `Proofs.Matching.Words` — the matches of a line are words of the grammar

Where no segment stands twice in a scheme, a node of its graph stands for one segment, and a walk
reads as a row of segments. Then the graph can be left out: a line is invokable in exactly the ways
in which its tokens are taken by a word of the scheme's language, and what can be offered next are
the segments that continue such a word.

## Contents
- `Graph.Reads`: a walk and the segments on it.
- `Graph.mem_words_targets`, `Graph.Reads.extends`: walks and words.
- `Graph.exists_wholeWalk`, `Graph.exists_partialWalk`: walks that match a line, as words.
- `Match.reading`: a match as a row of segments.
- `Scheme.Offers`: the beginnings of words that a line leaves unfinished.
- The matches of a line in terms of the scheme.
-/

namespace CommandGrammar

/-! ## Walks that spell words -/

section

variable {g : Graph} {c : Variable SegmentId → List String}

/-- The nodes form a walk from `i`, and the segments on it are `w`. -/
structure Graph.Reads (g : Graph) (i : Nat) (ns : List Nat) (w : List Solid) : Prop where
  chain : List.IsChain g.Leads (i :: ns)
  segments : List.Forall₂ (fun n t => g.solid? n = some t) ns w

namespace Graph

variable {i n : Nat} {ns : List Nat} {t : Solid} {w : List Solid}

theorem Reads.nil (i : Nat) : g.Reads i [] [] := ⟨List.isChain_singleton i, .nil⟩

theorem reads_cons :
    g.Reads i (n :: ns) (t :: w) ↔ g.Leads i n ∧ g.solid? n = some t ∧ g.Reads n ns w := by
  constructor
  · intro h
    obtain ⟨hlead, hchain⟩ := List.isChain_cons_cons.mp h.chain
    cases h.segments with
    | cons ht hrest => exact ⟨hlead, ht, hchain, hrest⟩
  · rintro ⟨hlead, ht, h⟩
    exact ⟨List.isChain_cons_cons.mpr ⟨hlead, h.chain⟩, .cons ht h.segments⟩

theorem reads_iff_map :
    g.Reads i ns w ↔ List.IsChain g.Leads (i :: ns) ∧ ns.map g.solid? = w.map some := by
  have hmap : List.Forall₂ (fun n t => g.solid? n = some t) ns w
      ↔ ns.map g.solid? = w.map some := by
    rw [← List.forall₂_eq_eq_eq, List.forall₂_map_left_iff, List.forall₂_map_right_iff]
  rw [← hmap]
  exact ⟨fun h => ⟨h.chain, h.segments⟩, fun h => ⟨h.1, h.2⟩⟩

/-- What is spelled from a node that is led to, is spelled from a successor. -/
theorem Leads.spells (hg : g.Framed) (h : g.Leads i n) (hw : g.Spells n w) :
    ∃ j ∈ g.targets i, g.Spells j w := by
  induction h with
  | link hj => exact ⟨_, hj, hw⟩
  | through hm hmarker h ih =>
      obtain ⟨j, hj, hspells⟩ := ih hw
      exact ⟨_, hm, .marker ⟨hmarker, hg.ne_exit h⟩ hj hspells⟩

/-- **The words spelled after a node are the words on the walks from it to the exit.** -/
theorem mem_words_targets (hg : g.Framed) :
    w ∈ g.words (g.targets i) ↔ ∃ ns, g.Reads i ns w ∧ g.Leads (ns.getLastD i) g.exit := by
  constructor
  · rintro ⟨j, hj, h⟩
    induction h generalizing i with
    | exit => exact ⟨[], .nil i, .link hj⟩
    | @marker m j w hm hj' _ ih =>
        -- The walk from the marker begins at `i` as well.
        obtain ⟨ns, hreads, hleaves⟩ := ih hj'
        cases ns with
        | nil =>
            cases hreads.segments
            exact ⟨[], .nil i, .through hj hm.1 hleaves⟩
        | cons n ns =>
            cases hreads.segments with
            | cons ht hrest =>
                obtain ⟨hlead, hchain⟩ := List.isChain_cons_cons.mp hreads.chain
                rw [List.getLastD_cons] at hleaves
                refine ⟨n :: ns, reads_cons.mpr ⟨.through hj hm.1 hlead, ht, hchain, hrest⟩, ?_⟩
                rwa [List.getLastD_cons]
    | @solid n j t w ht hj' _ ih =>
        obtain ⟨ns, hreads, hleaves⟩ := ih hj'
        refine ⟨n :: ns, reads_cons.mpr ⟨.link hj, ht, hreads⟩, ?_⟩
        rwa [List.getLastD_cons]
  · rintro ⟨ns, hreads, hleaves⟩
    induction ns generalizing i w with
    | nil =>
        cases hreads.segments
        exact hleaves.spells hg .exit
    | cons n ns ih =>
        cases w with
        | nil => cases hreads.segments
        | cons t w =>
            obtain ⟨hlead, ht, hrest⟩ := reads_cons.mp hreads
            rw [List.getLastD_cons] at hleaves
            obtain ⟨j, hj, hspells⟩ := ih hrest hleaves
            exact hlead.spells hg (.solid ht hj hspells)

/-- Along a walk nothing is a dead end, if nothing is at its beginning. -/
theorem Leads.open (h : g.Leads i n) (hi : ∀ j ∈ g.targets i, g.Open j) : g.Open n := by
  induction h with
  | link hj => exact hi _ hj
  | through hm hmarker h ih => exact ih fun k hk => (hi _ hm).target hk

/-- A solid node that is open leads to an open one. -/
theorem Open.allOpen (hg : g.Framed) (h : g.Open n) (ht : g.solid? n = some t) :
    g.AllOpen (g.targets n) := by
  obtain ⟨v, hv⟩ := h.spells
  cases hv with
  | exit =>
      obtain ⟨scope, hk⟩ := hg.kind?_exit
      have hexit : g.IsMarker g.exit := ⟨scope, false, hk⟩
      exact absurd ht (hexit.solid?_ne_some t)
  | marker hi hj hv => exact absurd ht (hi.1.solid?_ne_some _)
  | solid ht' hj hv => exact ⟨⟨_, hj⟩, fun k hk => h.target hk⟩

/-- **Where nothing is a dead end, what a walk reads begins a word.** -/
theorem Reads.extends (hg : g.Framed) (h : g.Reads i ns w) (hi : g.AllOpen (g.targets i)) :
    ∃ v, w ++ v ∈ g.words (g.targets i) := by
  induction ns generalizing i w with
  | nil =>
      cases h.segments
      obtain ⟨⟨j, hj⟩, hall⟩ := hi
      obtain ⟨v, hv⟩ := (hall j hj).spells
      exact ⟨v, j, hj, hv⟩
  | cons n ns ih =>
      cases w with
      | nil => cases h.segments
      | cons t w =>
          obtain ⟨hlead, ht, hrest⟩ := reads_cons.mp h
          obtain ⟨v, j, hj, hv⟩ := ih hrest ((hlead.open hi.2).allOpen hg ht)
          exact ⟨v, hlead.spells hg (.solid ht hj hv)⟩

/-- The beginning of what a walk reads is read by a walk. -/
theorem Reads.beginning {v : List Solid} (h : g.Reads i ns (w ++ v)) : ∃ ms, g.Reads i ms w := by
  induction w generalizing i ns with
  | nil => exact ⟨[], .nil i⟩
  | cons t w ih =>
      cases ns with
      | nil => cases h.segments
      | cons n ns =>
          obtain ⟨hlead, ht, hrest⟩ := reads_cons.mp h
          obtain ⟨ms, hms⟩ := ih hrest
          exact ⟨n :: ms, reads_cons.mpr ⟨hlead, ht, hms⟩⟩

end Graph

/-! ## Tokens for the segments of a word -/

/-- The segments take the tokens, one each. -/
def Solid.AcceptAll (c : Variable SegmentId → List String) (w : List Solid) (argv : List String) :
    Prop :=
  List.Forall₂ (fun t token => t.accepts c token = true) w argv

namespace Graph

variable {i : Nat} {ns : List Nat} {argv : List String} {r : List (Option Solid)}

/-- Nodes take tokens if the segments at them do. -/
theorem forall₂_takes : List.Forall₂ (g.Takes c) ns argv ↔
    ∃ w, List.Forall₂ (fun n t => g.solid? n = some t) ns w ∧ Solid.AcceptAll c w argv := by
  constructor
  · intro h
    induction h with
    | nil => exact ⟨[], .nil, .nil⟩
    | cons htoken _ ih =>
        obtain ⟨t, ht, ha⟩ := htoken
        obtain ⟨w, hw, hall⟩ := ih
        exact ⟨t :: w, .cons ht hw, .cons ha hall⟩
  · rintro ⟨w, hw, hall⟩
    induction hw generalizing argv with
    | nil =>
        cases hall
        exact .nil
    | cons ht _ ih =>
        cases hall with
        | cons ha hall => exact .cons ⟨_, ht, ha⟩ (ih hall)

/-- **Whole walks read the words of the graph that take the line.** -/
theorem exists_wholeWalk (hg : g.Framed) :
    (∃ ns, g.WholeWalk c i argv ns ∧ ns.map g.solid? = r) ↔
      ∃ w ∈ g.words (g.targets i), Solid.AcceptAll c w argv ∧ r = w.map some := by
  constructor
  · rintro ⟨ns, hwalk, rfl⟩
    obtain ⟨w, hw, hall⟩ := forall₂_takes.mp hwalk.takes
    have hreads : g.Reads i ns w := ⟨hwalk.chain, hw⟩
    exact ⟨w, (mem_words_targets hg).mpr ⟨ns, hreads, hwalk.leaves⟩, hall,
      (reads_iff_map.mp hreads).2⟩
  · rintro ⟨w, hw, hall, rfl⟩
    obtain ⟨ns, hreads, hleaves⟩ := (mem_words_targets hg).mp hw
    exact ⟨ns, ⟨hreads.chain, forall₂_takes.mpr ⟨w, hreads.segments, hall⟩, hleaves⟩,
      (reads_iff_map.mp hreads).2⟩

/-- **Partial walks read the beginnings of words up to a segment that is left waiting.** -/
theorem exists_partialWalk (hg : g.Framed) (hi : g.AllOpen (g.targets i)) :
    (∃ ns, g.PartialWalk c i argv ns ∧ ns.map g.solid? = r) ↔
      ∃ p t used rest, (∃ v, p ++ [t] ++ v ∈ g.words (g.targets i)) ∧ argv = used ++ rest ∧
        Solid.AcceptAll c p used ∧ t.Waits c rest ∧ r = (p ++ [t]).map some := by
  constructor
  · rintro ⟨_, ⟨hchain, before, n, used, rest, rfl, hargv, htakes, t, ht, hwaits⟩, rfl⟩
    obtain ⟨p, hp, hall⟩ := forall₂_takes.mp htakes
    have hreads : g.Reads i (before ++ [n]) (p ++ [t]) :=
      ⟨hchain, List.rel_append hp (.cons ht .nil)⟩
    exact ⟨p, t, used, rest, hreads.extends hg hi, hargv, hall, hwaits,
      (reads_iff_map.mp hreads).2⟩
  · rintro ⟨p, t, used, rest, ⟨v, hv⟩, hargv, hall, hwaits, rfl⟩
    obtain ⟨ns, hreads, -⟩ := (mem_words_targets hg).mp hv
    obtain ⟨ms, hms⟩ := hreads.beginning
    have hbefore := List.forall₂_take_append ms p [t] hms.segments
    have hlast := List.forall₂_drop_append ms p [t] hms.segments
    obtain ⟨n, left, ht, hleft, hdrop⟩ := List.forall₂_cons_right_iff.mp hlast
    cases hleft
    have hns : ms.take p.length ++ [n] = ms := by
      rw [← hdrop, List.take_append_drop]
    refine ⟨ms, ⟨hms.chain, ms.take p.length, n, used, rest, hns.symm, hargv, ?_, t, ht, hwaits⟩,
      (reads_iff_map.mp hms).2⟩
    exact forall₂_takes.mpr ⟨p, hbefore, hall⟩

end Graph

/-! ## Readings of matches -/

/-- The segments at the nodes of a match. -/
def Match.reading (g : Graph) (m : Match) : List (Option Solid) :=
  m.nodes.map g.solid?

/-- Rows of solid nodes that read the same are the same. -/
theorem Graph.UniqueIds.eq_of_map_solid? (hu : g.UniqueIds) {ns ms : List Nat}
    (hns : ∀ n ∈ ns, ∃ t, g.solid? n = some t) (h : ns.map g.solid? = ms.map g.solid?) :
    ns = ms := by
  induction ns generalizing ms with
  | nil => exact (List.map_eq_nil_iff.mp h.symm).symm
  | cons n ns ih =>
      cases ms with
      | nil => exact absurd h (by simp)
      | cons m ms =>
          rw [List.map_cons, List.map_cons] at h
          injection h with hhead htail
          obtain ⟨t, ht⟩ := hns n (by simp)
          rw [hu n m t t ht (hhead ▸ ht) rfl, ih (fun k hk => hns k (by simp [hk])) htail]

/-- **No reading is found twice.** -/
theorem Session.nodup_readings {rank : Nat → Nat} (hr : g.Ranked rank) (hu : g.UniqueIds)
    (hg : g.Framed) (s : Session) (argv : List String) :
    ((s.matches g argv).1.map (Match.reading g)).Nodup := by
  have hnodes : ((s.matches g argv).1.map Match.nodes).Nodup := s.nodup_nodes hr hu hg
  refine List.Nodup.map_on ?_ (List.Nodup.of_map _ hnodes)
  intro m hm m' hm' hreading
  apply List.inj_on_of_nodup_map hnodes hm hm'
  refine hu.eq_of_map_solid? ?_ hreading
  intro n hn
  obtain ⟨v, hv, rfl⟩ := List.mem_map.mp hn
  exact (s.walks_of_mem_matches hr hu hg hm).solid v hv

end

/-! ## Matches in terms of the scheme -/

/-- **The invokable matches are the words of the grammar that take the line**, each exactly once.
The scheme may be nested in any way, with empty groups and unions without branches, as long as no
segment stands in it twice; candidates are those that the session gives. In particular a line is
invokable if and only if some word takes it. -/
theorem invokable_eq_words (nextScope : Nat) {scheme : Scheme SegmentId}
    (h : Scheme.Distinct scheme) (s : Session) (argv : List String) :
    let g := (Graph.compile nextScope scheme).1
    let found := (s.matches g argv).1.filter (·.isInvokable)
    (found.map (Match.reading g)).Nodup ∧
    (∀ r, r ∈ found.map (Match.reading g) ↔
      ∃ w ∈ Scheme.language scheme, Solid.AcceptAll s.answers w argv ∧ r = w.map some) ∧
    (found ≠ [] ↔ ∃ w ∈ Scheme.language scheme, Solid.AcceptAll s.answers w argv) := by
  intro g found
  obtain ⟨rank, hr⟩ := Graph.compile_ranked nextScope scheme
  have hu := Graph.compile_uniqueIds nextScope scheme
  have hg := Graph.compile_framed nextScope scheme
  have hread : ∀ r, r ∈ found.map (Match.reading g) ↔
      ∃ w ∈ Scheme.language scheme, Solid.AcceptAll s.answers w argv ∧ r = w.map some := by
    intro r
    rw [← Graph.compile_words nextScope h, ← Graph.exists_wholeWalk hg, List.mem_map]
    constructor
    · rintro ⟨m, hm, rfl⟩
      obtain ⟨hm, hinvokable⟩ := List.mem_filter.mp hm
      exact ⟨m.nodes, (s.invokable_iff hr hu hg _).mp ⟨m, hm, hinvokable, rfl⟩, rfl⟩
    · rintro ⟨ns, hwalk, rfl⟩
      obtain ⟨m, hm, hinvokable, rfl⟩ := (s.invokable_iff hr hu hg _).mpr hwalk
      exact ⟨m, List.mem_filter.mpr ⟨hm, hinvokable⟩, rfl⟩
  refine ⟨(s.nodup_readings hr hu hg argv).sublist (List.filter_sublist.map _), hread, ?_⟩
  constructor
  · intro hne
    obtain ⟨m, hm⟩ := List.exists_mem_of_ne_nil _ hne
    obtain ⟨w, hw, hall, -⟩ := (hread _).mp (List.mem_map.mpr ⟨m, hm, rfl⟩)
    exact ⟨w, hw, hall⟩
  · rintro ⟨w, hw, hall⟩
    obtain ⟨m, hm, -⟩ := List.mem_map.mp ((hread _).mpr ⟨w, hw, hall, rfl⟩)
    exact List.ne_nil_of_mem hm

/-- `run [fast] (now | <when>...)`. -/
def runScheme : Scheme SegmentId :=
  [.keyword ⟨0, "run", none⟩, .optional [.keyword ⟨1, "fast", none⟩],
    .union [[.keyword ⟨2, "now", none⟩], [.var ⟨3, "when", none, [], none, true, none, none⟩]]]

/-- `run mon tue` is a whole line: the group is left out, and the rest variable takes both days. -/
theorem invokable_run_mon_tue :
    let g := (Graph.compile 0 runScheme).1
    let found := ((Session.fresh []).matches g ["run", "mon", "tue"]).1.filter (·.isInvokable)
    Scheme.Distinct runScheme ∧ found ≠ [] := by
  have hdistinct : Scheme.Distinct runScheme := by decide
  refine ⟨hdistinct, (invokable_eq_words 0 hdistinct (.fresh []) _).2.2.mpr ?_⟩
  let run : Solid := .keyword ⟨0, "run", none⟩
  let when : Solid := .var ⟨3, "when", none, [], none, true, none, none⟩
  have hwhen : [when, when] ∈ when.segment.language :=
    Solid.mem_language.mpr (Or.inr ⟨rfl, 1, rfl⟩)
  have hbranch : [when, when] ∈ Scheme.language [when.segment] :=
    Scheme.append_mem_language hwhen Scheme.nil_mem_language
  have hunion : [when, when]
      ∈ (Segment.union [[.keyword ⟨2, "now", none⟩], [when.segment]]).language :=
    Segment.mem_language_union.mpr ⟨_, by simp, hbranch⟩
  have hrun : [run] ∈ run.segment.language := Solid.mem_language.mpr (Or.inl rfl)
  refine ⟨[run, when, when], Scheme.append_mem_language hrun (Scheme.append_mem_language
    (Segment.mem_language_optional.mpr (Or.inr rfl))
    (Scheme.append_mem_language hunion Scheme.nil_mem_language)), ?_⟩
  exact .cons (by decide) (.cons (by decide) (.cons (by decide) .nil))

/-- The beginnings of words that a line leaves unfinished, with the tokens for them: the next
segment waits after the last token, or it stops at a token that it takes only the beginning of. -/
inductive Scheme.Offers (scheme : Scheme SegmentId) (c : Variable SegmentId → List String)
    (argv : List String) : List Solid → List String → Prop
  | pending {p : List Solid} {t : Solid} (hword : ∃ v, p ++ [t] ++ v ∈ Scheme.language scheme)
      (hall : Solid.AcceptAll c p argv) : Offers scheme c argv (p ++ [t]) (argv ++ [""])
  | stopped {p : List Solid} {t : Solid} {used : List String} {token : String}
      {rest : List String} (hword : ∃ v, p ++ [t] ++ v ∈ Scheme.language scheme)
      (hargv : argv = used ++ token :: rest) (hall : Solid.AcceptAll c p used)
      (hs : t.stops c token rest.isEmpty = true) :
      Offers scheme c argv (p ++ [t]) (used ++ [token])

/-- The two cases at once: the tokens are the first ones of the line, an empty one behind them. -/
theorem Scheme.offers_iff {scheme : Scheme SegmentId} {c : Variable SegmentId → List String}
    {argv texts : List String} {w : List Solid} :
    Scheme.Offers scheme c argv w texts ↔
      ∃ p t used rest, (∃ v, p ++ [t] ++ v ∈ Scheme.language scheme) ∧ argv = used ++ rest ∧
        Solid.AcceptAll c p used ∧ t.Waits c rest ∧ w = p ++ [t] ∧
        texts = (argv ++ [""]).take w.length := by
  have htake : ∀ {p : List Solid} {t : Solid} {used : List String} {text : String}
      {rest : List String}, Solid.AcceptAll c p used →
      (used ++ text :: rest).take (p ++ [t]).length = used ++ [text] := by
    intro p t used text rest hall
    rw [List.length_append, hall.length_eq, List.length_singleton, List.take_length_add_append]
    rfl
  constructor
  · intro h
    cases h with
    | @pending p t hword hall =>
        exact ⟨p, t, argv, [], hword, (List.append_nil argv).symm, hall, .pending, rfl,
          (htake hall).symm⟩
    | @stopped p t used token rest hword hargv hall hs =>
        refine ⟨p, t, used, token :: rest, hword, hargv, hall, .stopped hs, rfl, ?_⟩
        rw [hargv, List.append_assoc, List.cons_append, htake hall]
  · rintro ⟨p, t, used, rest, hword, rfl, hall, hwaits, rfl, rfl⟩
    cases hwaits with
    | pending =>
        rw [List.append_nil, htake hall]
        exact .pending hword hall
    | @stopped token rest hs =>
        rw [List.append_assoc, List.cons_append, htake hall]
        exact .stopped hword rfl hall hs

/-- **The partial matches are the beginnings of words that the line leaves unfinished**, each
exactly once, with the tokens on the way. Every union must offer a branch: a union without one leads
to a dead end, and what stands before it begins no word. -/
theorem partial_eq_beginnings (nextScope : Nat) {scheme : Scheme SegmentId}
    (h : Scheme.Distinct scheme) (hchoosable : Scheme.choosable scheme = true) (s : Session)
    (argv : List String) :
    let g := (Graph.compile nextScope scheme).1
    let found := (s.matches g argv).1.filter Match.isPartial
    (found.map (Match.reading g)).Nodup ∧
    ∀ r texts, (∃ m ∈ found, m.reading g = r ∧ m.raws = texts) ↔
      ∃ w, Scheme.Offers scheme s.answers argv w texts ∧ r = w.map some := by
  intro g found
  obtain ⟨rank, hr⟩ := Graph.compile_ranked nextScope scheme
  have hu := Graph.compile_uniqueIds nextScope scheme
  have hg := Graph.compile_framed nextScope scheme
  have hopen := Graph.compile_allOpen nextScope h hchoosable
  have hwords : g.words (g.targets g.entry) = Scheme.language scheme :=
    Graph.compile_words nextScope h
  -- How many segments a match reads decides which tokens it keeps.
  have hraws : ∀ m ∈ (s.matches g argv).1, ∀ w : List Solid, m.reading g = w.map some →
      m.raws = (argv ++ [""]).take w.length := by
    intro m hm w hw
    have hlen : m.path.length = w.length := by
      have h := congrArg List.length hw
      rwa [Match.reading, Match.nodes, List.length_map, List.length_map, List.length_map] at h
    rw [← hlen]
    exact (s.walks_of_mem_matches hr hu hg hm).raws
  refine ⟨(s.nodup_readings hr hu hg argv).sublist (List.filter_sublist.map _), ?_⟩
  intro r texts
  simp only [Scheme.offers_iff, ← hwords]
  constructor
  · rintro ⟨m, hm, rfl, rfl⟩
    obtain ⟨hm, hpartial⟩ := List.mem_filter.mp hm
    have hwalk := (s.partial_iff hr hu hg _).mp ⟨m, hm, hpartial, rfl⟩
    obtain ⟨p, t, used, rest, hword, hargv, hall, hwaits, hreading⟩ :=
      (Graph.exists_partialWalk hg hopen).mp ⟨m.nodes, hwalk, rfl⟩
    exact ⟨p ++ [t], ⟨p, t, used, rest, hword, hargv, hall, hwaits, rfl, hraws m hm _ hreading⟩,
      hreading⟩
  · rintro ⟨w, ⟨p, t, used, rest, hword, hargv, hall, hwaits, rfl, rfl⟩, rfl⟩
    obtain ⟨ns, hwalk, hreading⟩ := (Graph.exists_partialWalk hg hopen).mpr
      ⟨p, t, used, rest, hword, hargv, hall, hwaits, rfl⟩
    obtain ⟨m, hm, hpartial, rfl⟩ := (s.partial_iff hr hu hg _).mpr hwalk
    exact ⟨m, List.mem_filter.mpr ⟨hm, hpartial⟩, hreading, hraws m hm _ hreading⟩

/-- After `run`, the keyword `now` is among what is offered. -/
theorem partial_run_now :
    let g := (Graph.compile 0 runScheme).1
    let found := ((Session.fresh []).matches g ["run"]).1.filter Match.isPartial
    Scheme.Distinct runScheme ∧ Scheme.choosable runScheme = true ∧
    ∃ m ∈ found,
      m.reading g = [some (.keyword ⟨0, "run", none⟩), some (.keyword ⟨2, "now", none⟩)] ∧
      m.raws = ["run", ""] := by
  have hdistinct : Scheme.Distinct runScheme := by decide
  have hchoosable : Scheme.choosable runScheme = true := by decide
  refine ⟨hdistinct, hchoosable,
    ((partial_eq_beginnings 0 hdistinct hchoosable (.fresh []) ["run"]).2 _ _).mpr ?_⟩
  let run : Solid := .keyword ⟨0, "run", none⟩
  let now : Solid := .keyword ⟨2, "now", none⟩
  have hrun : [run] ∈ run.segment.language := Solid.mem_language.mpr (Or.inl rfl)
  have hnow : [now] ∈ now.segment.language := Solid.mem_language.mpr (Or.inl rfl)
  have hbranch : [now] ∈ Scheme.language [now.segment] :=
    Scheme.append_mem_language hnow Scheme.nil_mem_language
  have hunion : [now] ∈ (Segment.union
      [[now.segment], [.var ⟨3, "when", none, [], none, true, none, none⟩]]).language :=
    Segment.mem_language_union.mpr ⟨_, by simp, hbranch⟩
  have hword : [run] ++ ([] ++ ([now] ++ [])) ∈ Scheme.language runScheme :=
    Scheme.append_mem_language hrun (Scheme.append_mem_language
      (Segment.mem_language_optional.mpr (Or.inr rfl))
      (Scheme.append_mem_language hunion Scheme.nil_mem_language))
  exact ⟨[run] ++ [now], .pending ⟨[], hword⟩ (.cons (by decide) .nil), rfl⟩

end CommandGrammar
