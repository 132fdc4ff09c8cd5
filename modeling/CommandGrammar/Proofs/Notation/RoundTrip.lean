import CommandGrammar.Proofs.Notation.Writing
import CommandGrammar.Proofs.Segment.Language
import CommandGrammar.Segment.Printer

/-!
# `Proofs.Notation.RoundTrip` — usage texts are notation

A usage text is read back as the scheme that it shows, as long as the names in it can be written in
the notation at all (`Segment.Writable`). What the notation cannot say is lost: identities, defaults
and comments (`Scheme.bare`).

## Contents
- `Scheme.bare`: what the notation says of a scheme.
- `Keyword.Writable`, `Variable.Writable`, `Segment.Writable`.
- `Declaration.exists_of_writable`: usage texts declare their variables.
- `written`: usage texts write their schemes.
- `parse_render`: usage texts are read back.
-/

namespace CommandGrammar

open Notation

section

variable {ι : Type}

/-! ## What the notation says -/

/-- The keyword without what the notation cannot say. -/
def Keyword.bare (k : Keyword ι) : Keyword Unit := ⟨(), k.name, none⟩

/-- The variable without what the notation cannot say. -/
def Variable.bare (v : Variable ι) : Variable Unit where
  id := ()
  name := v.name
  type := v.type
  choices := v.choices
  provider := v.provider
  isRest := v.isRest
  default := none
  comment := none

mutual

/-- The segment without identities, defaults and comments. -/
def Segment.bare : Segment ι → Segment Unit
  | .keyword k => .keyword k.bare
  | .var v => .var v.bare
  | .optional inner => .optional (Scheme.bare inner)
  | .union branches => .union (Scheme.bareBranches branches)

/-- The scheme without identities, defaults and comments. -/
def Scheme.bare : Scheme ι → Scheme Unit
  | [] => []
  | x :: rest => x.bare :: Scheme.bare rest

/-- The branches of a union without identities, defaults and comments. -/
def Scheme.bareBranches : List (Scheme ι) → List (Scheme Unit)
  | [] => []
  | b :: rest => Scheme.bare b :: Scheme.bareBranches rest

end

/-! ## What can be written -/

/-- The keyword is a bare word. -/
structure Keyword.Writable (k : Keyword ι) : Prop where
  name_ne_empty : k.name ≠ ""
  name_plain : ∀ c ∈ k.name.toList, endsWord c = false

/-- The variable can be declared in angle brackets: nothing in its name is taken for something else,
and its choices fit between double quotes. -/
structure Variable.Writable (v : Variable ι) : Prop where
  name_ne_empty : v.name ≠ ""
  name_not_blank : ∀ c ∈ v.name.toList, Text.isBlank c = false
  name_not_quote : ∀ c ∈ v.name.toList, isQuote c = false
  name_no_colon : ':' ∉ v.name.toList
  name_no_bracket : '>' ∉ v.name.toList
  name_no_dots : ¬ dots <:+ v.name.toList
  provider_eq_none : v.provider = none
  type_eq_none : v.choices ≠ [] → v.type = none
  choices_nodup : v.choices.Nodup
  choice_ne_empty : ∀ c ∈ v.choices, c ≠ ""
  choice_no_quote : ∀ c ∈ v.choices, '"' ∉ c.toList

instance (k : Keyword ι) : Decidable k.Writable :=
  decidable_of_iff (k.name ≠ "" ∧ (k.name.toList.all fun c => !endsWord c) = true)
    ⟨fun ⟨hne, hplain⟩ => ⟨hne, by simpa using hplain⟩,
      fun h => ⟨h.name_ne_empty, by simpa using h.name_plain⟩⟩

theorem Variable.Writable.all_isBracketChar {v : Variable ι} (h : v.Writable) :
    v.name.toList.all isBracketChar = true := by
  refine List.all_eq_true.mpr fun c hc => ?_
  have hbracket : c ≠ '>' := fun he => h.name_no_bracket (he ▸ hc)
  simp [isBracketChar, h.name_not_blank c hc, h.name_not_quote c hc, hbracket]

instance (v : Variable ι) : Decidable v.Writable :=
  decidable_of_iff (v.name ≠ "" ∧ v.name.toList.all isBracketChar = true ∧ ':' ∉ v.name.toList ∧
      ¬ dots <:+ v.name.toList ∧ v.provider = none ∧ (v.choices ≠ [] → v.type = none) ∧
      v.choices.Nodup ∧ ∀ c ∈ v.choices, c ≠ "" ∧ '"' ∉ c.toList) <| by
    constructor
    · rintro ⟨hne, hname, hcolon, hdots, hprovider, htype, hnodup, hchoices⟩
      simp only [List.all_eq_true, isBracketChar, Bool.and_eq_true, Bool.not_eq_true',
        bne_iff_ne] at hname
      exact ⟨hne, fun c hc => (hname c hc).1.1, fun c hc => (hname c hc).1.2, hcolon,
        fun hc => (hname _ hc).2 rfl, hdots, hprovider, htype, hnodup,
        fun c hc => (hchoices c hc).1, fun c hc => (hchoices c hc).2⟩
    · intro h
      exact ⟨h.name_ne_empty, h.all_isBracketChar, h.name_no_colon, h.name_no_dots,
        h.provider_eq_none, h.type_eq_none, h.choices_nodup,
        fun c hc => ⟨h.choice_ne_empty c hc, h.choice_no_quote c hc⟩⟩

/-- The segment can be written; for a group this says nothing of the segments inside. -/
def Segment.Writable : Segment ι → Prop
  | .keyword k => k.Writable
  | .var v => v.Writable
  | .optional inner => inner ≠ []
  | .union branches => branches ≠ [] ∧ ∀ b ∈ branches, b ≠ []

instance : (x : Segment ι) → Decidable x.Writable
  | .keyword k => inferInstanceAs (Decidable k.Writable)
  | .var v => inferInstanceAs (Decidable v.Writable)
  | .optional inner => inferInstanceAs (Decidable (inner ≠ []))
  | .union branches => inferInstanceAs (Decidable (branches ≠ [] ∧ ∀ b ∈ branches, b ≠ []))

end

namespace Notation

/-! ## Usage texts -/

/-- A text behind another one, with what separates them in front of it. -/
theorem toList_intercalate_cons (sep text : String) (texts : List String) :
    (sep.intercalate (text :: texts)).toList
      = text.toList ++ texts.flatMap fun t => sep.toList ++ t.toList := by
  rw [String.toList_intercalate, List.map_cons]
  induction texts generalizing text with
  | nil => simp
  | cons t texts ih =>
      rw [List.map_cons, List.intercalate_cons_cons, ih]
      simp

/-! ### Variables -/

/-- The last character of a restriction is no dot. -/
theorem Restriction.exists_last (a : Restriction) : ∃ cs c, a.chars = cs ++ [c] ∧ c ≠ '.' := by
  have hquote : ∀ c : Choice, c.quote ≠ '.' := by
    intro c hc
    have hq := c.isQuote_quote
    rw [hc] at hq
    exact absurd hq (by decide)
  cases a with
  | type t =>
      refine ⟨t.name.toList.dropLast, t.name.toList.getLast (by cases t <;> decide), ?_, ?_⟩
      · exact (List.dropLast_append_getLast _).symm
      · cases t <;> decide
  | choices first rest =>
      rcases List.eq_nil_or_concat rest with rfl | ⟨init, last, rfl⟩
      · refine ⟨first.quote :: first.text, first.quote, ?_, hquote first⟩
        simp [chars, Choice.chars, Choice.charsBehind]
      · refine ⟨first.chars ++ Choice.charsBehind init ++ '|' :: last.quote :: last.text,
          last.quote, ?_, hquote last⟩
        simp [chars, Choice.chars, Choice.charsBehind]

/-- Dots at the end of a declaration stand in its name. -/
theorem Restriction.not_dots_suffix {name : List Char} (h : ¬ dots <:+ name)
    (a : Option Restriction) : ¬ dots <:+ name ++ charsAfterName a := by
  cases a with
  | none => simpa [charsAfterName] using h
  | some a =>
      obtain ⟨cs, c, hchars, hc⟩ := a.exists_last
      rintro ⟨front, hfront⟩
      have hlast : (front ++ dots).getLast? = some c := by
        rw [hfront, charsAfterName, hchars, ← List.cons_append, ← List.append_assoc,
          List.getLast?_concat]
      have hdot : (front ++ dots).getLast? = some '.' := by simp [dots]
      exact hc (Option.some.inj (hlast.symm.trans hdot))

/-- Texts that fit between double quotes are choices. -/
theorem Choice.exists_of_texts {texts : List String} (hne : ∀ t ∈ texts, t ≠ "")
    (hquote : ∀ t ∈ texts, '"' ∉ t.toList) :
    ∃ cs : List Choice, Choice.texts cs = texts ∧ ∀ c ∈ cs, c.quote = '"' := by
  induction texts with
  | nil => exact ⟨[], rfl, by simp⟩
  | cons t texts ih =>
      obtain ⟨cs, htexts, hcs⟩ :=
        ih (fun u hu => hne u (by simp [hu])) (fun u hu => hquote u (by simp [hu]))
      have htext : t.toList ≠ [] := by simpa using hne t (by simp)
      refine ⟨⟨'"', t.toList, rfl, htext, hquote t (by simp)⟩ :: cs, ?_, ?_⟩
      · simpa [Choice.texts] using htexts
      · intro c hc
        rcases List.mem_cons.mp hc with rfl | hc
        · rfl
        · exact hcs c hc

/-- Choices as a usage text shows them. -/
theorem Choice.toList_intercalate {first : Choice} {rest : List Choice}
    (h : ∀ c ∈ first :: rest, c.quote = '"') :
    ("|".intercalate ((Choice.texts (first :: rest)).map fun t => "\"" ++ t ++ "\"")).toList
      = (Restriction.choices first rest).chars := by
  have hchars : ∀ c ∈ first :: rest, ("\"" ++ String.ofList c.text ++ "\"").toList = c.chars := by
    intro c hc
    simp [Choice.chars, h c hc]
  have hrest : ∀ c ∈ rest, '|' :: ("\"" ++ String.ofList c.text ++ "\"").toList = '|' :: c.chars :=
    fun c hc => by rw [hchars c (by simp [hc])]
  rw [Choice.texts, List.map_cons, List.map_cons, toList_intercalate_cons, hchars first (by simp),
    Restriction.chars, Choice.charsBehind, ← List.flatMap_congr hrest]
  simp [List.flatMap_map]

theorem eraseDups_of_nodup {l : List String} (h : l.Nodup) : l.eraseDups = l := by
  induction l with
  | nil => rfl
  | cons t l ih =>
      rw [List.nodup_cons] at h
      rw [List.eraseDups_cons, List.filter_eq_self.mpr, ih h.2]
      intro u hu
      simpa using fun he : u = t => h.1 (he ▸ hu)

/-- A restriction behind a name, as usage texts show it: with a blank behind the colon. -/
def Restriction.shown : Option Restriction → List Char
  | none => []
  | some a => ':' :: ' ' :: a.chars

theorem Gathers.shown (a : Option Restriction) :
    Gathers (Restriction.shown a) (Restriction.charsAfterName a) := by
  cases a with
  | none => exact Gathers.nil
  | some a =>
      have hcolon : Gathers [':'] [':'] := Gathers.plain (by decide)
      exact hcolon.append (Gathers.space.append (Gathers.restriction a))

section

variable {ι : Type} {v : Variable ι}

/-- The declaration of a variable with a restriction. -/
def Declaration.ofWritable (h : v.Writable) (a : Option Restriction) : Declaration where
  name := v.name.toList
  restriction := a
  isRest := v.isRest
  name_ne_nil := by simpa using h.name_ne_empty
  colon_notMem := h.name_no_colon
  isRest_of_dots := fun hdots => absurd hdots (Restriction.not_dots_suffix h.name_no_dots a)

@[simp] theorem Declaration.name_ofWritable (h : v.Writable) (a : Option Restriction) :
    (ofWritable h a).name = v.name.toList := rfl

@[simp] theorem Declaration.restriction_ofWritable (h : v.Writable) (a : Option Restriction) :
    (ofWritable h a).restriction = a := rfl

@[simp] theorem Declaration.isRest_ofWritable (h : v.Writable) (a : Option Restriction) :
    (ofWritable h a).isRest = v.isRest := rfl

/-- **A usage text declares its variable.** -/
theorem Declaration.exists_of_writable (h : v.Writable) :
    ∃ d : Declaration, d.declared = v.bare ∧ d.name = v.name.toList ∧ d.isRest = v.isRest ∧
      v.render.toList = '<' :: (d.name ++ Restriction.shown d.restriction ++
        if v.isRest then dots else []) ++ ['>'] := by
  have hrest : (if v.isRest then "..." else "").toList = if v.isRest then dots else [] := by
    cases v.isRest <;> rfl
  have hprovider := h.provider_eq_none
  -- Choices are shown before a type, and a writable variable does not have both.
  cases hchoices : v.choices with
  | cons c choices =>
      have htype : v.type = none := h.type_eq_none (by simp [hchoices])
      obtain ⟨cs, htexts, hquote⟩ := Choice.exists_of_texts h.choice_ne_empty h.choice_no_quote
      obtain ⟨first, rest, rfl⟩ : ∃ first rest, cs = first :: rest := by
        cases cs with
        | nil => simp [Choice.texts, hchoices] at htexts
        | cons first rest => exact ⟨first, rest, rfl⟩
      refine ⟨Declaration.ofWritable h (some (.choices first rest)), ?_, rfl, rfl, ?_⟩
      · simp [Declaration.declared, Declaration.type?, Declaration.choices, Variable.bare, htexts,
          eraseDups_of_nodup h.choices_nodup, htype, hprovider]
      · have hshown := Choice.toList_intercalate hquote
        rw [htexts] at hshown
        have hsome : v.choices.isEmpty = false := by simp [hchoices]
        simp only [Variable.render, hsome, Bool.not_false, if_true, String.toList_append, hshown,
          hrest, Declaration.name_ofWritable, Declaration.restriction_ofWritable, Restriction.shown]
        simp
  | nil =>
      cases htype : v.type with
      | some t =>
          refine ⟨Declaration.ofWritable h (some (.type t)), ?_, rfl, rfl, ?_⟩
          · simp [Declaration.declared, Declaration.type?, Declaration.choices, Variable.bare,
              hchoices, htype, hprovider]
          · simp [Variable.render, hchoices, htype, hprovider, hrest, Restriction.shown,
              Restriction.chars]
      | none =>
          refine ⟨Declaration.ofWritable h none, ?_, rfl, rfl, ?_⟩
          · simp [Declaration.declared, Declaration.type?, Declaration.choices, Variable.bare,
              hchoices, htype, hprovider]
          · simp [Variable.render, hchoices, htype, hprovider, hrest, Restriction.shown]

theorem Writes.variable (h : v.Writable) : Writes v.render.toList [.var v.bare] := by
  obtain ⟨d, hdeclared, hname, hisRest, hrender⟩ := Declaration.exists_of_writable h
  have hkept : Gathers (d.name ++ Restriction.shown d.restriction ++ if d.isRest then dots else [])
      d.chars := by
    refine Gathers.append (Gathers.append (Gathers.plain ?_) (Gathers.shown _)) ?_
    · exact hname ▸ h.all_isBracketChar
    · cases d.isRest <;> exact Gathers.plain (by decide)
  rw [hrender, ← hdeclared, ← hisRest]
  exact Writes.placeholder hkept

end

/-! ### Schemes -/

/-- A scheme as it is shown behind something else. -/
def shownBehind (scheme : Scheme SegmentId) : List Char :=
  (Scheme.renderEach scheme).flatMap fun t => " ".toList ++ t.toList

theorem bounded_shownBehind (scheme : Scheme SegmentId) : Bounded (shownBehind scheme) := by
  cases scheme with
  | nil => simp [shownBehind, Scheme.renderEach, Bounded]
  | cons x rest =>
      have hspace : endsWord ' ' = true := by decide
      simpa [shownBehind, Scheme.renderEach, Bounded] using hspace

/-- A scheme is written by its usage text, alone and behind something else. -/
structure Written (scheme : Scheme SegmentId) : Prop where
  alone : Writes (Scheme.render scheme).toList scheme.bare
  behind : Writes (shownBehind scheme) scheme.bare

theorem Written.nil : Written [] := ⟨Writes.nil, Writes.nil⟩

theorem Written.cons {x : Segment SegmentId} {rest : Scheme SegmentId}
    (hx : Writes x.render.toList [x.bare]) (hrest : Written rest) :
    Written (x :: rest) := by
  have halone : Writes (x.render.toList ++ shownBehind rest) ([x.bare] ++ Scheme.bare rest) :=
    hx.append hrest.behind (bounded_shownBehind rest)
  refine ⟨?_, halone.space⟩
  rw [Scheme.render, Scheme.renderEach, toList_intercalate_cons]
  exact halone

/-- The branches of a union as they are shown behind the first one. -/
def branchesBehind (branches : List (Scheme SegmentId)) : List Char :=
  (Scheme.renderBranches branches).flatMap fun t => " | ".toList ++ t.toList

theorem bounded_branchesBehind (branches : List (Scheme SegmentId)) :
    Bounded (branchesBehind branches) := by
  cases branches with
  | nil => simp [branchesBehind, Scheme.renderBranches, Bounded]
  | cons b rest =>
      have hspace : endsWord ' ' = true := by decide
      simpa [branchesBehind, Scheme.renderBranches, Bounded] using hspace

theorem Scheme.bare_ne_nil {scheme : Scheme SegmentId} (h : scheme ≠ []) : scheme.bare ≠ [] := by
  cases scheme with
  | nil => exact absurd rfl h
  | cons x rest => exact List.cons_ne_nil _ _

theorem writesRows_branchesBehind {branches : List (Scheme SegmentId)}
    (hne : ∀ b ∈ branches, b ≠ []) (h : ∀ b ∈ branches, Written b) :
    WritesRows (branchesBehind branches) (Scheme.bareBranches branches) := by
  induction branches with
  | nil => exact WritesRows.nil
  | cons b rest ih =>
      have hrest := ih (fun c hc => hne c (by simp [hc])) (fun c hc => h c (by simp [hc]))
      exact WritesRows.cons (Scheme.bare_ne_nil (hne b (by simp))) (h b (by simp)).alone hrest
        (bounded_branchesBehind rest)

theorem Writes.branches {branches : List (Scheme SegmentId)}
    (hne : (Segment.union branches).Writable) (h : ∀ b ∈ branches, Written b) :
    Writes (Segment.union branches).render.toList [(Segment.union branches).bare] := by
  obtain ⟨hbranches, hfilled⟩ := hne
  cases branches with
  | nil => exact absurd rfl hbranches
  | cons b rest =>
      have hrest : WritesRows (branchesBehind rest) (Scheme.bareBranches rest) :=
        writesRows_branchesBehind (fun c hc => hfilled c (by simp [hc]))
          (fun c hc => h c (by simp [hc]))
      have hunion := Writes.union (Scheme.bare_ne_nil (hfilled b (by simp))) (h b (by simp)).alone
        hrest (bounded_branchesBehind rest)
      rw [Segment.render, Scheme.renderBranches, String.toList_append, String.toList_append,
        toList_intercalate_cons]
      exact hunion

/-- **Every writable scheme is written by its usage text.** -/
theorem written (scheme : Scheme SegmentId) (h : ∀ x ∈ Scheme.parts scheme, x.Writable) :
    Written scheme := by
  induction scheme using Scheme.induct with
  | nil => exact Written.nil
  | solid t rest ih =>
      have hsolid : t.segment.Writable := h _ (by cases t <;> simp [Solid.segment, Segment.parts])
      refine Written.cons ?_ (ih fun x hx => h x (by simp [hx]))
      cases t with
      | keyword k =>
          have hword := Writes.word (w := k.name.toList) (by simpa using hsolid.name_ne_empty)
            hsolid.name_plain
          simpa [Solid.segment, Segment.bare, Segment.render, Keyword.bare] using hword
      | var v => exact Writes.variable hsolid
  | optional inner rest ihinner ih =>
      have hgroup : inner ≠ [] := h (.optional inner) (by simp [Segment.parts])
      have hinner := ihinner fun x hx => h x (by simp [Segment.parts, hx])
      refine Written.cons ?_ (ih fun x hx => h x (by simp [hx]))
      have hshown := Writes.optional (Scheme.bare_ne_nil hgroup) hinner.alone
      simpa [Segment.render, Segment.bare, Scheme.render] using hshown
  | union branches rest ihbranches ih =>
      refine Written.cons (Writes.branches (h _ (by simp [Segment.parts])) ?_)
        (ih fun x hx => h x (by simp [hx]))
      intro b hb
      refine ihbranches b hb fun x hx => h x ?_
      have hmem : x ∈ Scheme.branchParts branches := Scheme.mem_branchParts.mpr ⟨b, hb, hx⟩
      simp [Segment.parts, hmem]

/-- **A usage text is read back as the scheme that it shows**, up to identities, defaults and
comments. -/
theorem parse_render {scheme : Scheme SegmentId} (h : ∀ x ∈ Scheme.parts scheme, x.Writable) :
    parse (Scheme.render scheme) = .ok (Scheme.bare scheme) :=
  (written scheme h).alone.parse

/-- `[fast (<mode..: number...> | or [<at: "a>b: c"|"it's"|"..."...>])]`. -/
def runModes : Scheme SegmentId :=
  [.optional [.keyword ⟨0, "fast", none⟩,
    .union [[.var ⟨1, "mode..", some .number, [], none, true, none, some "how fast"⟩],
      [.keyword ⟨2, "or", none⟩,
        .optional [.var ⟨3, "at", none, ["a>b: c", "it's", "..."], none, true, none, none⟩]]]]]

/-- Groups in groups, and choices that look like other notation. -/
theorem parse_render_runModes : (∀ x ∈ Scheme.parts runModes, x.Writable) ∧
    parse (Scheme.render runModes) = .ok (Scheme.bare runModes) := by
  have hwritable : ∀ x ∈ Scheme.parts runModes, x.Writable := by decide
  exact ⟨hwritable, parse_render hwritable⟩

end Notation
end CommandGrammar
