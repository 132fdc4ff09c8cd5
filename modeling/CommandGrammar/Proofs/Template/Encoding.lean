import CommandGrammar.Template
import Mathlib.Data.List.Basic

/-!
# `Proofs.Template.Encoding` — templates that are written out

Literal text is written with its braces doubled, a placeholder as its name in braces. Between two
pieces the reader is in plain text again, whatever literal text it has gathered: a brace that begins
a pair is never taken for one that closes a placeholder, and the other way round. So what one piece
adds to a scan does not depend on its neighbours (`Scan.take`), and a fold over the pieces gives the
whole.

The pieces that are read need not be those that were written, since literal texts that meet are one
and empty ones are dropped. What is made of the pieces one by one is the same if literal texts may
be cut anywhere (`Scan.gathered_take`).

## Contents
- `escape`, `Part.write`, `write`: writing.
- `IsName`: names that are read as they stand.
- `Scan.Reads`, `reads_escape`, `reads_placeholder`, `reads_write`: what is read.
- `Additive`, `Scan.gathered`, `parse_write`: what is made of the pieces one by one.
- `decodes_encoding`.
-/

namespace CommandGrammar
namespace Template

/-! ## Writing -/

/-- A character of literal text; a brace is doubled. -/
def escapeChar (c : Char) : List Char := if c = '\x7b' ∨ c = '\x7d' then [c, c] else [c]

/-- Literal text as it stands in a template. -/
def escape (text : List Char) : List Char := text.flatMap escapeChar

/-- A piece as it stands in a template. -/
def Part.write : Part → List Char
  | .literal text => escape text.toList
  | .placeholder name => '\x7b' :: (name.toList ++ ['\x7d'])

/-- The text with the given pieces. -/
def write (parts : List Part) : String := String.ofList (parts.flatMap Part.write)

/-- A name that is read as it stands between braces: the braces around it are not taken for others,
and it has no blanks at its ends. -/
structure IsName (name : String) : Prop where
  nonempty : name ≠ ""
  unclosed : '\x7d' ∉ name.toList
  unopened : name.toList.head? ≠ some '\x7b'
  head : ∀ c ∈ name.toList.head?, Text.isBlank c = false
  last : ∀ c ∈ name.toList.getLast?, Text.isBlank c = false

/-! ## Blanks -/

theorem dropBlank_eq_self {cs : List Char} (h : ∀ c ∈ cs.head?, Text.isBlank c = false) :
    Text.dropBlank cs = cs := by
  cases cs with
  | nil => rfl
  | cons c cs =>
      rw [Text.dropBlank, List.dropWhile_cons_of_neg]
      simp [h c rfl]

/-- A text without blanks at its ends is left as it is. -/
theorem trim_eq_self {cs : List Char} (hhead : ∀ c ∈ cs.head?, Text.isBlank c = false)
    (hlast : ∀ c ∈ cs.getLast?, Text.isBlank c = false) : Text.trim cs = cs := by
  have hend : cs.reverse.dropWhile Text.isBlank = cs.reverse :=
    dropBlank_eq_self (by simpa using hlast)
  rw [Text.trim, dropBlank_eq_self hhead, Text.dropBlankEnd, hend, List.reverse_reverse]

/-! ## Reading what was written -/

/-- The scan gets from one state to another over the given characters. -/
def Scan.Reads (source : String) (s : Scan) (cs : List Char) (s' : Scan) : Prop :=
  cs.foldlM (Scan.step source) s = .ok s'

section

variable {source : String} {s s' s'' : Scan} {done : List Part} {literal : List Char}

theorem Scan.Reads.nil : s.Reads source [] s := rfl

theorem Scan.Reads.single {c : Char} (h : s.step source c = .ok s') : s.Reads source [c] s' := by
  rw [Reads, List.foldlM_cons, h]
  rfl

theorem Scan.Reads.append {cs cs' : List Char} (h : s.Reads source cs s')
    (h' : s'.Reads source cs' s'') : s.Reads source (cs ++ cs') s'' := by
  rw [Reads, List.foldlM_append, h]
  exact h'

/-- One character of literal text: after a pair of braces the reader is in plain text, as it was
before the first of them. -/
theorem reads_escapeChar (c : Char) :
    Scan.Reads source ⟨.text, done, literal⟩ (escapeChar c) ⟨.text, done, c :: literal⟩ := by
  unfold escapeChar
  by_cases hbrace : c = '\x7b' ∨ c = '\x7d'
  · rw [if_pos hbrace]
    rcases hbrace with rfl | rfl <;> rfl
  · rw [if_neg hbrace]
    obtain ⟨hopen, hclose⟩ := not_or.mp hbrace
    apply Scan.Reads.single
    simp [Scan.step, Scan.plain, Scan.put, hopen, hclose]

/-- **Escaped text is read back**, whatever stands before it. -/
theorem reads_escape (text : List Char) :
    Scan.Reads source ⟨.text, done, literal⟩ (escape text)
      ⟨.text, done, text.reverse ++ literal⟩ := by
  induction text generalizing literal with
  | nil => exact .nil
  | cons c text ih =>
      rw [escape, List.flatMap_cons, List.reverse_cons, List.append_assoc]
      exact (reads_escapeChar c).append ih

/-- The characters of a name are taken as they are, opening braces included. -/
theorem reads_name {cs acc : List Char} (h : '\x7d' ∉ cs) :
    Scan.Reads source ⟨.name acc, done, literal⟩ cs ⟨.name (cs.reverse ++ acc), done, literal⟩ := by
  induction cs generalizing acc with
  | nil => exact .nil
  | cons c cs ih =>
      obtain ⟨hc, hcs⟩ := not_or.mp (mt List.mem_cons.mpr h)
      have hfirst : Scan.Reads source ⟨.name acc, done, literal⟩ [c]
          ⟨.name (c :: acc), done, literal⟩ := by
        apply Scan.Reads.single
        simp [Scan.step, Ne.symm hc]
      rw [List.reverse_cons, List.append_assoc]
      exact hfirst.append (ih hcs)

/-- **A name in braces is read as a placeholder**, and the reader is in plain text again. -/
theorem reads_placeholder {name : String} (h : IsName name) :
    Scan.Reads source ⟨.text, done, literal⟩ (Part.placeholder name).write
      ⟨.text, .placeholder name :: Scan.pieces ⟨.text, done, literal⟩, []⟩ := by
  obtain ⟨c, cs, hname⟩ := List.exists_cons_of_ne_nil (mt String.toList_eq_nil_iff.mp h.nonempty)
  have hopen : c ≠ '\x7b' := fun hc => h.unopened (by rw [hname, hc]; rfl)
  obtain ⟨hclose, hcs⟩ := not_or.mp (mt List.mem_cons.mpr (hname ▸ h.unclosed))
  have hbegin : Scan.Reads source ⟨.text, done, literal⟩ ['\x7b'] ⟨.opened, done, literal⟩ := rfl
  have hfirst : Scan.Reads source ⟨.opened, done, literal⟩ [c] ⟨.name [c], done, literal⟩ := by
    apply Scan.Reads.single
    simp [Scan.step, hopen, Ne.symm hclose]
  have hend : Scan.Reads source ⟨.name (cs.reverse ++ [c]), done, literal⟩ ['\x7d']
      ⟨.text, .placeholder name :: Scan.pieces ⟨.text, done, literal⟩, []⟩ := by
    apply Scan.Reads.single
    have hread : Text.trim (cs.reverse ++ [c]).reverse = name.toList := by
      rw [List.reverse_append, List.reverse_reverse, List.reverse_singleton,
        List.singleton_append, ← hname]
      exact trim_eq_self h.head h.last
    simp only [Scan.step, if_true, hread]
    rw [if_neg (by simp [hname]), String.ofList_toList]
    rfl
  rw [Part.write, hname]
  exact hbegin.append (hfirst.append ((reads_name hcs).append hend))

end

/-! ## Piece by piece -/

/-- The scan with one more piece: literal text joins the literal text before it. -/
def Scan.take (s : Scan) : Part → Scan
  | .literal text => { s with literal := text.toList.reverse ++ s.literal }
  | .placeholder name => ⟨.text, .placeholder name :: s.pieces, []⟩

section

variable {source : String} {s : Scan}

theorem Scan.take_mode (hs : s.mode = .text) (p : Part) : (s.take p).mode = .text := by
  cases p with
  | literal text => exact hs
  | placeholder name => rfl

/-- **A piece that was written is the piece that is read.** -/
theorem Part.reads_write (hs : s.mode = .text) {p : Part}
    (hp : ∀ name, p = .placeholder name → IsName name) : s.Reads source p.write (s.take p) := by
  obtain ⟨mode, done, literal⟩ := s
  cases hs
  cases p with
  | literal text => exact reads_escape text.toList
  | placeholder name => exact reads_placeholder (hp name rfl)

/-- **What was written is read piece by piece.** -/
theorem reads_write (hs : s.mode = .text) {parts : List Part}
    (hparts : ∀ name, .placeholder name ∈ parts → IsName name) :
    s.Reads source (parts.flatMap Part.write) (parts.foldl Scan.take s) ∧
      (parts.foldl Scan.take s).mode = .text := by
  induction parts generalizing s with
  | nil => exact ⟨.nil, hs⟩
  | cons p parts ih =>
      have hfirst : s.Reads source p.write (s.take p) :=
        Part.reads_write hs fun name hp => hparts name (hp ▸ List.mem_cons_self)
      obtain ⟨hrest, hmode⟩ :=
        ih (s.take_mode hs p) fun name hname => hparts name (List.mem_cons_of_mem _ hname)
      exact ⟨hfirst.append hrest, hmode⟩

end

/-! ## What is made of the pieces -/

section

variable {α : Type} {f : Part → List α}

/-- The function gives the same for a literal text that is cut in two. -/
def Additive (f : Part → List α) : Prop :=
  ∀ text more, f (.literal (text ++ more)) = f (.literal text) ++ f (.literal more)

theorem Additive.empty (hf : Additive f) : f (.literal "") = [] := by
  have h := hf "" ""
  rwa [String.append_empty, List.self_eq_append_left] at h

/-- What the function gives for the pieces of a scan, one after the other. -/
def Scan.gathered (f : Part → List α) (s : Scan) : List α := s.pieces.reverse.flatMap f

/-- The literal text at the end counts as a piece, even if there is none. -/
theorem Scan.gathered_eq (hf : Additive f) (s : Scan) :
    s.gathered f = s.done.reverse.flatMap f ++ f (.literal (String.ofList s.literal.reverse)) := by
  cases hempty : s.literal with
  | nil => simp [gathered, pieces, hempty, hf.empty]
  | cons c cs => simp [gathered, pieces, hempty]

theorem Scan.gathered_take (hf : Additive f) (s : Scan) (p : Part) :
    (s.take p).gathered f = s.gathered f ++ f p := by
  cases p with
  | literal text =>
      rw [gathered_eq hf, gathered_eq hf, take, List.reverse_append, List.reverse_reverse,
        String.ofList_append, String.ofList_toList, hf, List.append_assoc]
  | placeholder name =>
      simp [take, gathered, pieces]

theorem Scan.gathered_foldl (hf : Additive f) (s : Scan) (parts : List Part) :
    (parts.foldl Scan.take s).gathered f = s.gathered f ++ parts.flatMap f := by
  induction parts generalizing s with
  | nil => simp
  | cons p parts ih =>
      rw [List.foldl_cons, ih, s.gathered_take hf, List.flatMap_cons, List.append_assoc]

end

/-- **The template that is read has the pieces that were written**, up to the cuts between literal
texts. -/
theorem parse_write {parts : List Part} (h : ∀ name, .placeholder name ∈ parts → IsName name) :
    ∃ t, parse (write parts) = .ok t ∧
      ∀ (α : Type) (f : Part → List α), Additive f → t.parts.flatMap f = parts.flatMap f := by
  obtain ⟨hreads, hmode⟩ : Scan.Reads (write parts) .start (parts.flatMap Part.write)
      (parts.foldl Scan.take .start) ∧ (parts.foldl Scan.take .start).mode = .text :=
    reads_write rfl h
  refine ⟨⟨(parts.foldl Scan.take Scan.start).pieces.reverse⟩, ?_, ?_⟩
  · rw [parse, write, String.toList_ofList, ← write, hreads]
    show Scan.finish _ _ = _
    rw [Scan.finish, hmode]
  · intro α f hf
    exact Scan.gathered_foldl hf Scan.start parts

/-- **Templates decode their own encoding.** Write any pieces, literal texts with every brace
doubled and names in braces; a name has a character, no closing brace, no opening brace in front and
no blanks at its ends. The text is a template. Its placeholders are the names in order, and for any
bindings its text is put together from the literal texts and from the texts of what is bound to the
names; a name that is not bound has no text. -/
theorem decodes_encoding (parts : List Part)
    (h : ∀ name, .placeholder name ∈ parts → IsName name) :
    ∃ t, parse (write parts) = .ok t ∧
      t.placeholders = parts.filterMap (fun
        | .literal _ => none
        | .placeholder name => some name) ∧
      ∀ b : Bindings, t.render b = String.join (parts.map fun
        | .literal text => text
        | .placeholder name =>
          match b.find? name with
          | some bound => bound.toText
          | none => "") := by
  obtain ⟨t, hparse, hall⟩ := parse_write h
  refine ⟨t, hparse, ?_, ?_⟩
  · have hnames := hall String (fun p => p.name?.toList) fun _ _ => rfl
    rw [placeholders, List.filterMap_eq_flatMap_toList, hnames, ← List.filterMap_eq_flatMap_toList]
    rfl
  · intro b
    have hchars := hall Char (fun p => (p.render b).toList) fun text more =>
      String.toList_append
    apply String.toList_inj.mp
    rw [render, String.toList_join, List.flatMap_map, hchars, String.toList_join, List.flatMap_map]
    congr 1
    funext p
    cases p with
    | literal text => rfl
    | placeholder name =>
        cases hbound : b.find? name <;> simp [Part.render, hbound]

/-- Braces beside a placeholder: of `{{{n}}}`, the template of a name between two braces, the inner
ones belong to the placeholder. -/
theorem decodes_encoding_borders :
    let parts : List Part := [.literal "\x7b", .placeholder "n", .literal "\x7d"]
    write parts = "\x7b\x7b\x7bn\x7d\x7d\x7d" ∧
    (∀ name, .placeholder name ∈ parts → IsName name) ∧
    ∃ t, parse "\x7b\x7b\x7bn\x7d\x7d\x7d" = .ok t ∧ t.placeholders = ["n"] ∧
      t.render (NameMap.empty.insert "n" (.single (.text "x"))) = "\x7bx\x7d" := by
  intro parts
  have hwrite : write parts = "\x7b\x7b\x7bn\x7d\x7d\x7d" := by decide
  have hparts : ∀ name, .placeholder name ∈ parts → IsName name := by
    intro name hname
    have hn : name = "n" := by simpa [parts] using hname
    subst hn
    have hchars : "n".toList = ['n'] := rfl
    have hblank : Text.isBlank 'n' = false := by decide
    exact ⟨by decide, by decide, by decide, by simp [hchars, hblank], by simp [hchars, hblank]⟩
  obtain ⟨t, hparse, hnames, hrender⟩ := decodes_encoding parts hparts
  refine ⟨hwrite, hparts, t, hwrite ▸ hparse, hnames, ?_⟩
  rw [hrender]
  decide

end Template
end CommandGrammar
