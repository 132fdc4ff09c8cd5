import CommandGrammar.Notation.Reader

/-!
# `Proofs.Notation.Derivation` — the grammar of the notation

The grammar that the reader is compared with, as trees:

* a scheme is a list of phrases;
* a phrase is a bare word, a quoted word that is not empty, a placeholder whose inside is a
  declaration, a row of phrases in square brackets, or rows in parentheses with a bar between
  neighbours;
* a row is one or more phrases;
* a declaration is a name, or a name, a colon and a restriction, and then three dots for a rest
  variable. The restriction is a type, or choices with a bar between neighbours.

Whatever the grammar demands is part of the types, so every tree is a derivation. A tree has the
lexemes at its leaves (`tokens`), the positions of the marks included, and the scheme that it
stands for. Nothing here mentions the reader.

## Contents
- `Choice`, `Restriction`, `Declaration`: the inside of angle brackets; `chars`, the text of each;
  `Declaration.declared`, what is declared.
- `Phrase`, `Row`: derivations; `Phrases.tokens`, `Phrases.scheme`.
- `Phrases.induct`: induction on derivations.
- `Scheme.parts`, `Segment.Filled`: the segments of a scheme at any depth; groups that are not
  empty.
- `Phrases.filled_scheme`: a scheme that has a derivation holds no empty group.
-/

namespace CommandGrammar

/-! ## Groups that are not empty -/

section

variable {ι : Type}

mutual

/-- A segment and all segments inside it. -/
def Segment.parts : Segment ι → List (Segment ι)
  | .keyword k => [.keyword k]
  | .var v => [.var v]
  | .optional inner => .optional inner :: Scheme.parts inner
  | .union branches => .union branches :: Scheme.branchParts branches

/-- The segments of a scheme at any depth. -/
def Scheme.parts : Scheme ι → List (Segment ι)
  | [] => []
  | x :: rest => x.parts ++ Scheme.parts rest

/-- The segments in the branches of a union at any depth. -/
def Scheme.branchParts : List (Scheme ι) → List (Segment ι)
  | [] => []
  | b :: rest => Scheme.parts b ++ Scheme.branchParts rest

end

@[simp] theorem Scheme.parts_nil : Scheme.parts ([] : Scheme ι) = [] := rfl

@[simp] theorem Scheme.parts_cons (x : Segment ι) (rest : Scheme ι) :
    Scheme.parts (x :: rest) = x.parts ++ Scheme.parts rest := rfl

theorem Scheme.mem_branchParts {branches : List (Scheme ι)} {x : Segment ι} :
    x ∈ Scheme.branchParts branches ↔ ∃ b ∈ branches, x ∈ Scheme.parts b := by
  induction branches with
  | nil => simp [Scheme.branchParts]
  | cons b rest ih => simp [Scheme.branchParts, ih]

/-- The segment is no empty group, no union without branches, and no branch of it is empty. -/
def Segment.Filled : Segment ι → Prop
  | .keyword _ => True
  | .var _ => True
  | .optional inner => inner ≠ []
  | .union branches => branches ≠ [] ∧ ∀ b ∈ branches, b ≠ []

end

namespace Notation

/-! ## Declarations -/

/-- A quoted choice. The text between the quotes is not empty and does not hold the quote. -/
structure Choice where
  quote : Char
  text : List Char
  isQuote_quote : isQuote quote = true
  text_ne_nil : text ≠ []
  quote_notMem : quote ∉ text

/-- The choice as it is written. -/
def Choice.chars (c : Choice) : List Char := c.quote :: c.text ++ [c.quote]

/-- The texts of choices. -/
def Choice.texts (cs : List Choice) : List String := cs.map fun c => String.ofList c.text

/-- Choices behind other ones: a bar in front of each. -/
def Choice.charsBehind (cs : List Choice) : List Char := cs.flatMap fun c => '|' :: c.chars

/-- What follows the colon in a declaration. -/
inductive Restriction where
  | type (t : VariableType)
  | choices (first : Choice) (rest : List Choice)

/-- The restriction as it is written. -/
def Restriction.chars : Restriction → List Char
  | .type t => t.name.toList
  | .choices first rest => first.chars ++ Choice.charsBehind rest

/-- What follows the name in a declaration: nothing, or a colon and a restriction. -/
def Restriction.charsAfterName : Option Restriction → List Char
  | none => []
  | some a => ':' :: a.chars

/-- The three dots behind the declaration of a rest variable. -/
def dots : List Char := ['.', '.', '.']

/-- The inside of angle brackets. The first colon ends the name, and dots at the end always are the
mark of a rest variable. -/
structure Declaration where
  name : List Char
  restriction : Option Restriction
  isRest : Bool
  name_ne_nil : name ≠ []
  colon_notMem : ':' ∉ name
  isRest_of_dots : dots <:+ name ++ Restriction.charsAfterName restriction → isRest = true

namespace Declaration

/-- The declaration as it is written, up to the dots. -/
def body (d : Declaration) : List Char := d.name ++ Restriction.charsAfterName d.restriction

/-- The declaration as it is written. -/
def chars (d : Declaration) : List Char := d.body ++ if d.isRest then dots else []

/-- Dots at the end and nothing else declare a rest variable. -/
theorem isRest_iff_dots (d : Declaration) : d.isRest = true ↔ dots <:+ d.chars := by
  unfold chars
  cases h : d.isRest with
  | true => simp
  | false =>
      have hbody : ¬ dots <:+ d.body := fun hdots => by simp [d.isRest_of_dots hdots] at h
      simpa using hbody

/-- The declared type. -/
def type? (d : Declaration) : Option VariableType :=
  match d.restriction with
  | some (.type t) => some t
  | _ => none

/-- The declared choices, the first of equal ones. -/
def choices (d : Declaration) : List String :=
  match d.restriction with
  | some (.choices first rest) => (Choice.texts (first :: rest)).eraseDups
  | _ => []

/-- The variable that is declared. -/
def declared (d : Declaration) : Variable Unit where
  id := ()
  name := String.ofList d.name
  type := d.type?
  choices := d.choices
  provider := none
  isRest := d.isRest
  default := none
  comment := none

end Declaration

/-! ## Phrases -/

mutual

/-- A derivation of one segment, with the positions that its lexemes have. -/
inductive Phrase where
  | word (w : List Char)
  | quoted (w : List Char) (h : w ≠ [])
  | placeholder (d : Declaration) (pos : Nat)
  /-- The row behind an opening bracket, and the closing one. -/
  | optional (inner : Row) (stop : Nat)
  /-- The row behind an opening parenthesis, the rows behind bars, and the closing parenthesis. -/
  | union (first : Row) (later : List Row) (stop : Nat)

/-- One or more phrases behind the mark at a position. -/
inductive Row where
  | mk (pos : Nat) (first : Phrase) (rest : List Phrase)

end

namespace Row

/-- The position of the mark in front of the row. -/
def pos : Row → Nat
  | mk pos _ _ => pos

/-- The phrases of the row. -/
def phrases : Row → List Phrase
  | mk _ first rest => first :: rest

end Row

mutual

/-- The lexemes of a phrase. -/
def Phrase.tokens : Phrase → List Token
  | .word w => [.word w]
  | .quoted w _ => [.quoted w]
  | .placeholder d pos => [.placeholder d.chars pos]
  | .optional inner stop => .openSquare inner.pos :: inner.tokens ++ [.closeSquare stop]
  | .union first later stop =>
    .openParen first.pos :: first.tokens ++ Rows.tokens later ++ [.closeParen stop]

/-- The lexemes of a row, without the mark in front of it. -/
def Row.tokens : Row → List Token
  | .mk _ first rest => first.tokens ++ Phrases.tokens rest

/-- The lexemes of phrases. -/
def Phrases.tokens : List Phrase → List Token
  | [] => []
  | p :: rest => p.tokens ++ Phrases.tokens rest

/-- The lexemes of rows behind bars. -/
def Rows.tokens : List Row → List Token
  | [] => []
  | r :: rest => .bar r.pos :: r.tokens ++ Rows.tokens rest

end

mutual

/-- The segment that a phrase stands for. -/
def Phrase.segment : Phrase → Segment Unit
  | .word w => .keyword ⟨(), String.ofList w, none⟩
  | .quoted w _ => .keyword ⟨(), String.ofList w, none⟩
  | .placeholder d _ => .var d.declared
  | .optional inner _ => .optional inner.scheme
  | .union first later _ => .union (first.scheme :: Rows.schemes later)

/-- The scheme that a row stands for. -/
def Row.scheme : Row → Scheme Unit
  | .mk _ first rest => first.segment :: Phrases.scheme rest

/-- The scheme that phrases stand for. -/
def Phrases.scheme : List Phrase → Scheme Unit
  | [] => []
  | p :: rest => p.segment :: Phrases.scheme rest

/-- The schemes that rows stand for. -/
def Rows.schemes : List Row → List (Scheme Unit)
  | [] => []
  | r :: rest => r.scheme :: Rows.schemes rest

end

@[simp] theorem Row.tokens_phrases (r : Row) : Phrases.tokens r.phrases = r.tokens := by
  cases r with
  | mk pos first rest => rfl

@[simp] theorem Row.scheme_phrases (r : Row) : Phrases.scheme r.phrases = r.scheme := by
  cases r with
  | mk pos first rest => rfl

theorem Row.scheme_ne_nil (r : Row) : r.scheme ≠ [] := by
  cases r with
  | mk pos first rest => exact List.cons_ne_nil _ _

@[simp] theorem Phrases.tokens_nil : Phrases.tokens [] = [] := rfl

@[simp] theorem Phrases.tokens_cons (p : Phrase) (rest : List Phrase) :
    Phrases.tokens (p :: rest) = p.tokens ++ Phrases.tokens rest := rfl

@[simp] theorem Phrases.scheme_nil : Phrases.scheme [] = [] := rfl

@[simp] theorem Phrases.scheme_cons (p : Phrase) (rest : List Phrase) :
    Phrases.scheme (p :: rest) = p.segment :: Phrases.scheme rest := rfl

@[simp] theorem Rows.tokens_nil : Rows.tokens [] = [] := rfl

@[simp] theorem Rows.tokens_cons (r : Row) (rest : List Row) :
    Rows.tokens (r :: rest) = .bar r.pos :: r.tokens ++ Rows.tokens rest := rfl

@[simp] theorem Rows.schemes_nil : Rows.schemes [] = [] := rfl

@[simp] theorem Rows.schemes_cons (r : Row) (rest : List Row) :
    Rows.schemes (r :: rest) = r.scheme :: Rows.schemes rest := rfl

theorem Rows.mem_tokens_of_mem {later : List Row} {r : Row} (hr : r ∈ later) {t : Token}
    (ht : t ∈ r.tokens) : t ∈ Rows.tokens later := by
  induction later with
  | nil => exact absurd hr (by simp)
  | cons s rest ih =>
      rw [Rows.tokens_cons, List.mem_append]
      rcases List.mem_cons.mp hr with rfl | hr
      · exact Or.inl (List.mem_cons_of_mem _ ht)
      · exact Or.inr (ih hr)

/-! ## Induction on derivations -/

section Induction

variable {motive : List Phrase → Prop} (nil : motive [])
  (word : ∀ (w : List Char) (rest : List Phrase), motive rest → motive (.word w :: rest))
  (quoted : ∀ (w : List Char) (h : w ≠ []) (rest : List Phrase),
    motive rest → motive (.quoted w h :: rest))
  (placeholder : ∀ (d : Declaration) (pos : Nat) (rest : List Phrase),
    motive rest → motive (.placeholder d pos :: rest))
  (optional : ∀ (inner : Row) (stop : Nat) (rest : List Phrase),
    motive inner.phrases → motive rest → motive (.optional inner stop :: rest))
  (union : ∀ (first : Row) (later : List Row) (stop : Nat) (rest : List Phrase),
    motive first.phrases → (∀ r ∈ later, motive r.phrases) → motive rest →
    motive (.union first later stop :: rest))

include nil word quoted placeholder optional union

/-- Induction on the first of some phrases, with the hypothesis for the rows inside it and for the
phrases after it. -/
@[elab_as_elim]
theorem Phrases.induct (ps : List Phrase) : motive ps := by
  refine @Phrase.rec_2 (fun p => ∀ rest, motive rest → motive (p :: rest))
    (fun r => motive r.phrases) (fun later => ∀ r ∈ later, motive r.phrases) motive
    word quoted placeholder ?_ ?_ ?_ ?_ ?_ nil ?_ ps
  · intro inner stop hinner rest hrest
    exact optional inner stop rest hinner hrest
  · intro first later stop hfirst hlater rest hrest
    exact union first later stop rest hfirst hlater hrest
  · intro pos first rest hfirst hrest
    exact hfirst rest hrest
  · intro r hr
    exact absurd hr (by simp)
  · intro r later hr hlater s hs
    rcases List.mem_cons.mp hs with h | h
    · rw [h]
      exact hr
    · exact hlater s h
  · intro p rest hp hrest
    exact hp rest hrest

end Induction

theorem Rows.mem_schemes {later : List Row} {b : Scheme Unit} :
    b ∈ Rows.schemes later ↔ ∃ r ∈ later, r.scheme = b := by
  induction later with
  | nil => simp
  | cons r rest ih => simp [ih, eq_comm]

/-- A scheme that has a derivation holds no empty group. -/
theorem Phrases.filled_scheme (ps : List Phrase) :
    ∀ x ∈ Scheme.parts (Phrases.scheme ps), x.Filled := by
  induction ps using Phrases.induct with
  | nil => exact fun x hx => absurd hx (by simp)
  | word w rest ih => simpa [Phrase.segment, Segment.parts, Segment.Filled] using ih
  | quoted w h rest ih => simpa [Phrase.segment, Segment.parts, Segment.Filled] using ih
  | placeholder d pos rest ih => simpa [Phrase.segment, Segment.parts, Segment.Filled] using ih
  | optional inner stop rest ihinner ih =>
      rw [Row.scheme_phrases] at ihinner
      intro x hx
      rw [Phrases.scheme_cons, Scheme.parts_cons, List.mem_append] at hx
      rcases hx with hx | hx
      · rcases List.mem_cons.mp hx with rfl | hx
        · exact inner.scheme_ne_nil
        · exact ihinner x hx
      · exact ih x hx
  | union first later stop rest ihfirst ihlater ih =>
      rw [Row.scheme_phrases] at ihfirst
      intro x hx
      rw [Phrases.scheme_cons, Scheme.parts_cons, List.mem_append] at hx
      rcases hx with hx | hx
      · rcases List.mem_cons.mp hx with rfl | hx
        · refine ⟨List.cons_ne_nil _ _, ?_⟩
          intro b hb
          rcases List.mem_cons.mp hb with rfl | hb
          · exact first.scheme_ne_nil
          · obtain ⟨r, -, rfl⟩ := Rows.mem_schemes.mp hb
            exact r.scheme_ne_nil
        · obtain ⟨b, hb, hx⟩ := Scheme.mem_branchParts.mp hx
          rcases List.mem_cons.mp hb with rfl | hb
          · exact ihfirst x hx
          · obtain ⟨r, hr, rfl⟩ := Rows.mem_schemes.mp hb
            rw [← Row.scheme_phrases] at hx
            exact ihlater r hr x hx
      · exact ih x hx

end Notation
end CommandGrammar
