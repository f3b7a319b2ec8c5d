import Synopsis.Proofs.Outlining
import Synopsis.Proofs.Tracing

/-!
# Literals as they are spelled

A literal is spelled by letters, an opening quote, its content and a closing quote. The content is
made of single characters and of atoms, which are read whole, and its single characters nowhere
spell the closing quote. The widths that an outline gives to a literal are those of its delimiters,
and a literal that is shortened is again one with the same delimiters: what it keeps are whole
pieces, and the first closing quote that its single characters spell is its own.
-/

namespace Synopsis

open Syntax Outline

namespace Lexeme

inductive Piece
  | char (c : Char)
  | atom (text : List Char)
deriving DecidableEq

def Piece.text : Piece → List Char
  | char c => [c]
  | atom text => text

def spell (pieces : List Piece) : List Char := pieces.flatMap Piece.text

def chars (text : List Char) : List Piece := text.map Piece.char

def atomSpans : Nat → List Piece → List Span
  | _, [] => []
  | offset, .char c :: ps => atomSpans (offset + c.utf8Size) ps
  | offset, .atom text :: ps =>
    ⟨offset, offset + Text.byteLength text⟩ :: atomSpans (offset + Text.byteLength text) ps

/-- What comes before the first place where single characters spell the closing quote. -/
def beforeClosing (closing : List Char) : List Piece → Option (List Piece)
  | [] => none
  | p :: ps =>
    if (chars closing).isPrefixOf (p :: ps) then some []
    else (beforeClosing closing ps).map (p :: ·)

def keep : Nat → List Piece → List Piece
  | _, [] => []
  | limit, p :: ps =>
    if p.text.length ≤ limit then p :: keep (limit - p.text.length) ps else []

inductive Quotes : Language → Kind → List Char → List Char → Prop
  | goString : Quotes .go .string ['"'] ['"']
  | goRaw : Quotes .go .rawString ['\x60'] ['\x60']
  | javaString : Quotes .java .string ['"'] ['"']
  | javaBlock : Quotes .java .string ['"', '"', '"'] ['"', '"', '"']
  | pythonString {q : Char} (hq : q = '"' ∨ q = '\'') : Quotes .python .string [q] [q]
  | pythonTriple {q : Char} (hq : q = '"' ∨ q = '\'') : Quotes .python .string [q, q, q] [q, q, q]
  | script {language : Language} {q : Char}
      (hl : language = .javaScript ∨ language = .typeScript ∨ language = .tsx)
      (hq : q = '"' ∨ q = '\'') : Quotes language .string [q] [q]
  | template {language : Language}
      (hl : language = .javaScript ∨ language = .typeScript ∨ language = .tsx) :
    Quotes language .template ['\x60'] ['\x60']
  | rustString : Quotes .rust .string ['"'] ['"']
  | rustRaw (hashes : Nat) : Quotes .rust .rawString (List.replicate hashes '#' ++ ['"'])
      ('"' :: List.replicate hashes '#')

def hasLetters : Language → Bool
  | .python | .rust => true
  | _ => false

end Lexeme

structure Lexeme where
  letters : List Char
  quote : List Char
  content : List Lexeme.Piece
  closing : List Char

namespace Lexeme

def opening (x : Lexeme) : List Char := x.letters ++ x.quote

def text (x : Lexeme) : List Char := x.opening ++ (spell x.content ++ x.closing)

def opensAtom (c : Char) : Bool := c == '\\' || c == '{' || c == '$'

structure WellFormed (language : Language) (kind : Kind) (x : Lexeme) : Prop where
  quotes : Quotes language kind x.quote x.closing
  letters : ∀ c ∈ x.letters, c.isAlpha = true
  noLetters : hasLetters language = false → x.letters = []
  atoms : ∀ a, .atom a ∈ x.content → ∃ c ∈ a.head?, opensAtom c = true
  closed : beforeClosing x.closing x.content = none

structure StandsAt (language : Language) (offset : Nat) (x : Lexeme) (t : Tree) : Prop where
  span : t.span = ⟨offset, offset + Text.byteLength x.text⟩
  sound : t.hasError = false
  atoms : atomsBelow language.atomKinds t =
    atomSpans (offset + Text.byteLength x.opening) x.content
  marks : language = .python → childWidth? .stringStart t = some (Text.byteLength x.opening) ∧
    childWidth? .stringEnd t = some (Text.byteLength x.closing)

section Pieces

variable {closing : List Char} {p : Piece} {ps kept dropped : List Piece}

@[simp] theorem spell_nil : spell [] = [] := rfl

@[simp] theorem spell_cons (p : Piece) (ps : List Piece) : spell (p :: ps) = p.text ++ spell ps :=
  rfl

@[simp] theorem spell_append (a b : List Piece) : spell (a ++ b) = spell a ++ spell b :=
  List.flatMap_append

@[simp] theorem spell_chars (text : List Char) : spell (chars text) = text := by
  induction text with
  | nil => rfl
  | cons c text ih => simpa [chars, Piece.text] using ih

theorem prefix_of_prefix_append_cons {α : Type} {a b c : List α} {x : α} (hx : x ∉ a)
    (h : a <+: b ++ x :: c) : a <+: b := by
  induction b generalizing a with
  | nil =>
    cases a with
    | nil => exact List.nil_prefix
    | cons y a =>
      obtain ⟨rfl, -⟩ := List.cons_prefix_cons.mp h
      simp at hx
  | cons y b ih =>
    cases a with
    | nil => exact List.nil_prefix
    | cons z a =>
      obtain ⟨rfl, htail⟩ := List.cons_prefix_cons.mp h
      exact List.cons_prefix_cons.mpr ⟨rfl, ih (fun hmem => hx (by simp [hmem])) htail⟩

theorem beforeClosing_cons_eq_none_iff : beforeClosing closing (p :: ps) = none ↔
    ¬chars closing <+: p :: ps ∧ beforeClosing closing ps = none := by
  by_cases h : chars closing <+: p :: ps
  · simp [beforeClosing, List.isPrefixOf_iff_prefix, h]
  · simp [beforeClosing, List.isPrefixOf_iff_prefix, h]

theorem beforeClosing_chars (hne : closing ≠ []) :
    beforeClosing closing (chars closing) = some [] := by
  cases closing with
  | nil => exact absurd rfl hne
  | cons c closing => simp [chars, beforeClosing]

-- A closing quote has no dot, so none begins in what is kept and goes on into the dots.
theorem beforeClosing_shortened (hne : closing ≠ []) (hdot : '.' ∉ closing)
    (h : beforeClosing closing (kept ++ dropped) = none) :
    beforeClosing closing (kept ++ chars ellipsis ++ chars closing) =
      some (kept ++ chars ellipsis) := by
  have hdots : ∀ rest, ¬chars closing <+: .char '.' :: rest := by
    intro rest hpre
    cases closing with
    | nil => exact hne rfl
    | cons c closing =>
      obtain ⟨hc, -⟩ := List.cons_prefix_cons.mp hpre
      exact hdot (by simp [Piece.char.inj hc])
  induction kept with
  | nil =>
    simp only [ellipsis, chars, List.map_cons, List.map_nil, List.nil_append, List.cons_append,
      beforeClosing, List.isPrefixOf_iff_prefix] at hdots ⊢
    rw [if_neg (hdots _), if_neg (hdots _), if_neg (hdots _)]
    rw [show closing.map Piece.char = chars closing from rfl, beforeClosing_chars hne]
    rfl
  | cons p kept ih =>
    obtain ⟨hpre, hrest⟩ := beforeClosing_cons_eq_none_iff.mp h
    have hnot : ¬chars closing <+: p :: (kept ++ chars ellipsis ++ chars closing) := by
      intro hp
      have hp' : chars closing <+: (p :: kept) ++ .char '.' ::
          (chars ['.', '.'] ++ chars closing) := by simpa [ellipsis, chars] using hp
      have hin := prefix_of_prefix_append_cons (by simpa [chars] using hdot) hp'
      exact hpre (hin.trans (List.prefix_append _ _))
    have hsome := ih hrest
    simp only [List.cons_append, beforeClosing, List.isPrefixOf_iff_prefix, if_neg hnot, hsome,
      Option.map_some]

theorem beforeClosing_of_append (h : beforeClosing closing (ps ++ dropped) = some ps) :
    beforeClosing closing ps = none := by
  induction ps with
  | nil => rfl
  | cons p ps ih =>
    rw [List.cons_append, beforeClosing] at h
    split at h
    case isTrue => cases h
    case isFalse hnot =>
      obtain ⟨front, hfront, he⟩ := Option.map_eq_some_iff.mp h
      obtain rfl := List.tail_eq_of_cons_eq he
      rw [List.isPrefixOf_iff_prefix] at hnot
      exact beforeClosing_cons_eq_none_iff.mpr
        ⟨fun hp => hnot (hp.trans (List.prefix_append (p :: front) _)), ih hfront⟩

end Pieces

section Keep

variable {limit offset : Nat} {ps : List Piece}

theorem keep_spec (h : limit < (spell ps).length) : ∃ dropped, ps = keep limit ps ++ dropped ∧
    ((spell (keep limit ps)).length = limit ∨ ∃ a rest, dropped = .atom a :: rest ∧
      (spell (keep limit ps)).length < limit ∧
      limit < (spell (keep limit ps)).length + a.length) := by
  induction ps generalizing limit with
  | nil => simp at h
  | cons p ps ih =>
    by_cases hp : p.text.length ≤ limit
    · have hrest : limit - p.text.length < (spell ps).length := by
        rw [spell_cons, List.length_append] at h
        omega
      obtain ⟨dropped, hps, hlen⟩ := ih hrest
      refine ⟨dropped, ?_, ?_⟩
      · rw [keep, if_pos hp, List.cons_append, ← hps]
      · rw [keep, if_pos hp, spell_cons, List.length_append]
        rcases hlen with hlen | ⟨a, rest, hd, hlt, hgt⟩
        · exact .inl (by omega)
        · exact .inr ⟨a, rest, hd, by omega, by omega⟩
    · refine ⟨p :: ps, by rw [keep, if_neg hp]; rfl, ?_⟩
      rw [keep, if_neg hp]
      by_cases h0 : limit = 0
      · exact .inl h0.symm
      · cases p with
        | char c => simp [Piece.text] at hp; omega
        | atom a =>
          refine .inr ⟨a, ps, rfl, ?_, ?_⟩
          · simp only [spell_nil, List.length_nil]
            omega
          · simpa [Piece.text] using hp

theorem le_of_mem_atomSpans {a : Span} (h : a ∈ atomSpans offset ps) : offset ≤ a.start := by
  induction ps generalizing offset with
  | nil => cases h
  | cons p ps ih =>
    cases p with
    | char c => exact Nat.le_trans (Nat.le_add_right _ _) (ih h)
    | atom text =>
      rcases List.mem_cons.mp h with rfl | h
      · exact Nat.le_refl _
      · exact Nat.le_trans (Nat.le_add_right _ _) (ih h)

theorem pullBack_cons_of_not {a : Span} {atoms : List Span} {offset : Nat}
    (h : ¬Span.StrictlyInside offset a) : pullBack (a :: atoms) offset = pullBack atoms offset := by
  simp [pullBack, h]

theorem pullBack_of_le {atoms : List Span} {offset : Nat} (h : ∀ a ∈ atoms, offset ≤ a.start) :
    pullBack atoms offset = offset := by
  rcases pullBack_cases atoms offset with ⟨he, -⟩ | ⟨a, ha, ⟨hlt, -⟩, -⟩
  · exact he
  · have hle := h a ha
    omega

theorem pullBack_atomSpans (limit offset : Nat) (ps : List Piece) :
    pullBack (atomSpans offset ps) (offset + Text.byteLength ((spell ps).take limit)) =
      offset + Text.byteLength (spell (keep limit ps)) := by
  induction ps generalizing limit offset with
  | nil => simp [atomSpans, keep, pullBack]
  | cons p ps ih =>
    by_cases hp : p.text.length ≤ limit
    · have htake : (spell (p :: ps)).take limit =
          p.text ++ (spell ps).take (limit - p.text.length) := by
        rw [spell_cons, List.take_append, List.take_of_length_le hp]
      have hrest := ih (limit - p.text.length) (offset + Text.byteLength p.text)
      rw [htake, keep, if_pos hp, spell_cons, Text.byteLength_append, Text.byteLength_append,
        ← Nat.add_assoc, ← Nat.add_assoc, ← hrest]
      cases p with
      | char c => rfl
      | atom a =>
        refine pullBack_cons_of_not fun hin => ?_
        have hlt := hin.2
        simp only [Piece.text] at hlt
        omega
    · rw [keep, if_neg hp]
      cases p with
      | char c =>
        have h0 : limit = 0 := by
          simp only [Piece.text, List.length_singleton] at hp
          omega
        subst h0
        exact pullBack_of_le fun a ha => le_of_mem_atomSpans ha
      | atom a =>
        have hlt : limit < a.length := by simpa [Piece.text] using hp
        have htake : (spell (.atom a :: ps)).take limit = a.take limit := by
          rw [spell_cons, Piece.text, List.take_append_of_le_length (Nat.le_of_lt hlt)]
        rw [htake]
        by_cases h0 : limit = 0
        · subst h0
          exact pullBack_of_le fun b hb => le_of_mem_atomSpans hb
        · have hpos : 0 < Text.byteLength (a.take limit) :=
            Text.byteLength_pos (by simp [h0, List.length_pos_iff.mp (Nat.zero_lt_of_lt hlt)])
          have hrest : 0 < Text.byteLength (a.drop limit) :=
            Text.byteLength_pos (by simpa using hlt)
          have hsum : Text.byteLength (a.take limit) + Text.byteLength (a.drop limit) =
              Text.byteLength a := by
            rw [← Text.byteLength_append, List.take_append_drop]
          have hin : Span.StrictlyInside (offset + Text.byteLength (a.take limit))
              ⟨offset, offset + Text.byteLength a⟩ := by
            constructor <;> simp only <;> omega
          simp [atomSpans, pullBack, hin]

end Keep

section Delimiters

variable {language : Language} {kind : Kind} {quote closing : List Char}

theorem toNat_of_isAlpha {c : Char} (h : c.isAlpha = true) : 65 ≤ c.toNat ∧ c.toNat ≤ 122 := by
  change (decide (65 ≤ c.val ∧ c.val ≤ 90) ||
    decide (97 ≤ c.val) && decide (c.val ≤ 122)) = true at h
  simp only [Bool.or_eq_true, Bool.and_eq_true, decide_eq_true_eq, UInt32.le_iff_toNat_le] at h
  change 65 ≤ c.val.toNat ∧ c.val.toNat ≤ 90 ∨ 97 ≤ c.val.toNat ∧ c.val.toNat ≤ 122 at h
  change 65 ≤ c.val.toNat ∧ c.val.toNat ≤ 122
  omega

theorem utf8Size_of_isAlpha {c : Char} (h : c.isAlpha = true) : c.utf8Size = 1 := by
  rw [Char.utf8Size_eq_one_iff, UInt32.le_iff_toNat_le]
  exact Nat.le_trans (toNat_of_isAlpha h).2 (by decide)

theorem byteLength_letters {letters : List Char} (h : ∀ c ∈ letters, c.isAlpha = true) :
    Text.byteLength letters = letters.length := by
  induction letters with
  | nil => rfl
  | cons c letters ih =>
    rw [Text.byteLength_cons, utf8Size_of_isAlpha (h c (by simp)),
      ih fun d hd => h d (by simp [hd]), List.length_cons]
    omega

theorem isBlank_of_isAlpha {c : Char} (h : c.isAlpha = true) : Text.isBlank c = false := by
  have hn := toNat_of_isAlpha h
  simp only [Text.isBlank]
  grind

@[simp] theorem byteLength_hashes (n : Nat) : Text.byteLength (List.replicate n '#') = n := by
  induction n with
  | zero => rfl
  | succ n ih =>
    rw [List.replicate_succ, Text.byteLength_cons, ih, show '#'.utf8Size = 1 from rfl]
    omega

theorem Quotes.byteLength_eq (h : Quotes language kind quote closing) :
    Text.byteLength quote = Text.byteLength closing := by
  cases h with
  | rustRaw hashes => simp [show '"'.utf8Size = 1 from rfl, Nat.add_comm]
  | _ => rfl

theorem Quotes.closing_ne_nil (h : Quotes language kind quote closing) : closing ≠ [] := by
  cases h <;> simp

theorem Quotes.dot_not_mem (h : Quotes language kind quote closing) : '.' ∉ closing := by
  cases h with
  | pythonString hq | pythonTriple hq => rcases hq with rfl | rfl <;> decide
  | script hl hq => rcases hq with rfl | rfl <;> decide
  | rustRaw hashes => simp
  | _ => decide

theorem Quotes.head_not_blank (h : Quotes language kind quote closing) :
    ∃ c rest, quote = c :: rest ∧ Text.isBlank c = false ∧ c.isAlpha = false := by
  cases h with
  | pythonString hq | pythonTriple hq => rcases hq with rfl | rfl <;> exact ⟨_, _, rfl, rfl, rfl⟩
  | script hl hq => rcases hq with rfl | rfl <;> exact ⟨_, _, rfl, rfl, rfl⟩
  | rustRaw hashes => cases hashes <;> exact ⟨_, _, rfl, rfl, rfl⟩
  | _ => exact ⟨_, _, rfl, rfl, rfl⟩

theorem Quotes.closing_not_blank (h : Quotes language kind quote closing) :
    ∀ c ∈ closing, Text.isBlank c = false := by
  have hall : closing.all (fun c => !Text.isBlank c) = true := by
    cases h with
    | pythonString hq | pythonTriple hq => rcases hq with rfl | rfl <;> rfl
    | script hl hq => rcases hq with rfl | rfl <;> rfl
    | rustRaw hashes =>
      rw [List.all_cons, List.all_replicate]
      cases hashes <;> rfl
    | _ => rfl
  simpa using hall

end Delimiters

section Outlined

variable {language : Language} {before after : List Char} {x : Lexeme} {t : Tree}

theorem head_spell_ne {content : List Piece}
    (hatoms : ∀ a, .atom a ∈ content → ∃ c ∈ a.head?, opensAtom c = true)
    (hclosed : beforeClosing ['"'] content = none) : (spell content).head? ≠ some '"' := by
  cases content with
  | nil => simp
  | cons p ps =>
    cases p with
    | char c =>
      obtain ⟨hnot, -⟩ := beforeClosing_cons_eq_none_iff.mp hclosed
      intro hc
      have hc' : c = '"' := by simpa [Piece.text] using hc
      exact hnot (by simp [chars, hc'])
    | atom a =>
      obtain ⟨c, hc, hopens⟩ := hatoms a (by simp)
      have hhead : (spell (.atom a :: ps)).head? = some c := by
        simp [Piece.text, Option.mem_def.mp hc]
      rw [hhead]
      rintro ⟨rfl⟩
      cases hopens

theorem StandsAt.slice?_eq (ht : StandsAt language (Text.byteLength before) x t) :
    Text.slice? (before ++ (x.text ++ after)) t.span = some x.text := by
  refine Text.slice?_eq_some_iff.mpr ⟨before, after, by simp, ?_, ?_⟩ <;> rw [ht.span]

theorem StandsAt.delimited?_eq (ht : StandsAt language (Text.byteLength before) x t)
    {kind : Kind} (hq : Quotes language kind x.quote x.closing) :
    delimited? language.atomKinds t (Text.byteLength x.letters) (Text.byteLength x.closing) =
      some ⟨t.span, Text.byteLength x.letters, Text.byteLength x.closing,
        atomSpans (Text.byteLength (before ++ x.opening)) x.content⟩ := by
  refine delimited?_eq_some_iff.mpr ⟨ht.sound, ?_, ?_⟩
  · have hquote := hq.byteLength_eq
    rw [Tree.stop, Tree.start, ht.span]
    simp only [text, opening, Text.byteLength_append]
    omega
  · rw [ht.atoms, Text.byteLength_append]

theorem WellFormed.takeWhile_text {kind : Kind} (hx : WellFormed language kind x) :
    x.text.takeWhile Char.isAlpha = x.letters := by
  obtain ⟨c, rest, hquote, -, hc⟩ := hx.quotes.head_not_blank
  rw [text, opening, List.append_assoc, List.takeWhile_append_of_pos hx.letters, hquote,
    List.cons_append, List.takeWhile_cons_of_neg (by simp [hc]), List.append_nil]

theorem drop_letters (x : Lexeme) :
    x.text.drop x.letters.length = x.quote ++ (spell x.content ++ x.closing) := by
  rw [text, opening, List.append_assoc, List.drop_left]

theorem takeWhile_hashes (n : Nat) (rest : List Char) :
    (List.replicate n '#' ++ ['"'] ++ rest).takeWhile (· == '#') = List.replicate n '#' := by
  rw [List.append_assoc, List.takeWhile_append_of_pos (by simp), List.singleton_append,
    List.takeWhile_cons_of_neg (by decide), List.append_nil]

theorem literalOf?_eq (hx : WellFormed language t.kind x)
    (ht : StandsAt language (Text.byteLength before) x t) :
    literalOf? language (before ++ (x.text ++ after)) t =
      some ⟨t.span, Text.byteLength x.letters, Text.byteLength x.closing,
        atomSpans (Text.byteLength (before ++ x.opening)) x.content⟩ := by
  rw [← ht.delimited?_eq hx.quotes]
  have hslice := @StandsAt.slice?_eq language before after x t ht
  have hmarks := ht.marks
  have htake := hx.takeWhile_text
  have hdrop := drop_letters x
  have hlead := byteLength_letters hx.letters
  obtain ⟨hquotes, hletters, hno, hatoms, hclosed⟩ := hx
  obtain ⟨letters, quote, content, closing⟩ := x
  simp only at hquotes hno hatoms hclosed hmarks htake hdrop hlead
  generalize hk : t.kind = kind at hquotes
  cases hquotes with
  | goString | goRaw =>
    obtain rfl := hno rfl
    rfl
  | script hl hq =>
    rcases hl with rfl | rfl | rfl <;> rcases hq with rfl | rfl <;> obtain rfl := hno rfl <;> rfl
  | template hl => rcases hl with rfl | rfl | rfl <;> obtain rfl := hno rfl <;> rfl
  | javaString =>
    obtain rfl := hno rfl
    have hne := head_spell_ne hatoms hclosed
    simp only [literalOf?, hslice, Option.bind_some]
    rw [if_neg]
    · rfl
    · cases hs : spell content with
      | nil => simp [text, opening, hs]
      | cons c rest =>
        have hc : c ≠ '"' := by simpa [hs] using hne
        simp [text, opening, hs, hc]
  | javaBlock =>
    obtain rfl := hno rfl
    simp only [literalOf?, hslice, Option.bind_some]
    rfl
  | pythonString hq | pythonTriple hq =>
    obtain ⟨hopen, hclose⟩ := hmarks rfl
    simp only [literalOf?, hopen, hclose, Option.bind_some]
    rw [if_neg (by rcases hq with rfl | rfl <;> simp [opening, Char.utf8Size]), opening,
      Text.byteLength_append, Nat.add_sub_cancel]
  | rustString =>
    simp only [literalOf?, hslice, Option.bind_some, hk, htake, hlead]
    rfl
  | rustRaw hashes =>
    simp only [literalOf?, hslice, Option.bind_some, hk, htake, hlead, hdrop, takeWhile_hashes]
    simp [Nat.add_comm, show '"'.utf8Size = 1 from rfl]

end Outlined

def withContent (x : Lexeme) (content : List Piece) : Lexeme := { x with content }

section Shortened

variable {language : Language} {kind : Kind} {before after : List Char} {x : Lexeme} {t : Tree}
  {limit : Nat} {kept dropped : List Piece}

theorem WellFormed.shortened (hx : WellFormed language kind x)
    (hkept : x.content = kept ++ dropped) :
    WellFormed language kind (x.withContent (kept ++ chars ellipsis)) ∧
      beforeClosing x.closing (kept ++ chars ellipsis ++ chars x.closing) =
        some (kept ++ chars ellipsis) := by
  have hclosed := hx.closed
  rw [hkept] at hclosed
  have hfirst := beforeClosing_shortened hx.quotes.closing_ne_nil hx.quotes.dot_not_mem hclosed
  refine ⟨⟨hx.quotes, hx.letters, hx.noLetters, fun a ha => hx.atoms a ?_,
    beforeClosing_of_append hfirst⟩, hfirst⟩
  rcases List.mem_append.mp ha with ha | ha
  · rw [hkept]
    exact List.mem_append_left _ ha
  · simp [chars] at ha

theorem WellFormed.trim_eq (hx : WellFormed language kind x) (before after : List Char) :
    Text.trim (before ++ x.text ++ after) =
      before.dropWhile Text.isBlank ++ x.text ++ Text.dropEndWhile Text.isBlank after := by
  obtain ⟨c, rest, hquote, hblank, -⟩ := hx.quotes.head_not_blank
  have hclosing := hx.quotes.closing_ne_nil
  refine Splice.trimBy_append (by simp [text, hclosing]) (fun d hd => ?_) fun d hd => ?_
  · cases hl : x.letters with
    | nil =>
      obtain rfl : c = d := by simpa [text, opening, hl, hquote] using hd
      exact hblank
    | cons e letters =>
      obtain rfl : e = d := by simpa [text, opening, hl] using hd
      exact isBlank_of_isAlpha (hx.letters e (by simp [hl]))
  · have hd' : x.closing.getLast? = some d := by
      simpa [text, hclosing] using hd
    exact hx.quotes.closing_not_blank d (List.mem_of_getLast? hd')

theorem plan_of_truncation {text : List Char} {l : Literal} {c : Cut} {placeholder : Option String}
    (h : l.truncation? text limit = some c) :
    plan text [] [l] ⟨limit, placeholder⟩ = .ok [c] := by
  simp [plan, Plan.candidates, h, Plan.sweep, Except.map]

theorem Quotes.shortens {quote closing : List Char} (h : Quotes language kind quote closing) :
    language.shortens kind = true := by
  cases h with
  | script hl _ | template hl => rcases hl with rfl | rfl | rfl <;> rfl
  | _ => rfl

theorem StandsAt.content_eq (ht : StandsAt language (Text.byteLength before) x t)
    (hq : Quotes language kind x.quote x.closing) (atoms : List Span) :
    Literal.content ⟨t.span, Text.byteLength x.letters, Text.byteLength x.closing, atoms⟩ =
      ⟨Text.byteLength (before ++ x.opening),
        Text.byteLength (before ++ x.opening ++ spell x.content)⟩ := by
  have hquote := hq.byteLength_eq
  simp only [Literal.content, ht.span, text, opening, Text.byteLength_append, Span.mk.injEq]
  omega

theorem slice?_content (before after : List Char) (x : Lexeme) :
    Text.slice? (before ++ (x.text ++ after)) ⟨Text.byteLength (before ++ x.opening),
      Text.byteLength (before ++ x.opening ++ spell x.content)⟩ = some (spell x.content) :=
  Text.slice?_eq_some_iff.mpr ⟨before ++ x.opening, x.closing ++ after, by simp [text], rfl,
    by simp [Nat.add_assoc]⟩

theorem WellFormed.apply_eq (hx : WellFormed language kind x) (hkept : x.content = kept ++ dropped)
    (before after : List Char) :
    Splice.apply (before ++ (x.text ++ after))
        [⟨⟨Text.byteLength (before ++ x.opening ++ spell kept),
          Text.byteLength (before ++ x.opening ++ spell x.content)⟩, ellipsis⟩] =
      before.dropWhile Text.isBlank ++ (x.opening ++ spell kept ++ ellipsis ++ x.closing) ++
        Text.dropEndWhile Text.isBlank after := by
  have htext : before ++ (x.text ++ after) =
      (before ++ x.opening ++ spell kept) ++ (spell dropped ++ (x.closing ++ after)) := by
    simp [text, hkept]
  have hfits : Splice.Fits 0 (before ++ (x.text ++ after))
      [⟨⟨Text.byteLength (before ++ x.opening ++ spell kept),
        Text.byteLength (before ++ x.opening ++ spell x.content)⟩, ellipsis⟩] := by
    rw [htext]
    refine .cons _ _ _ (Nat.zero_add _).symm ?_ .nil
    simp [hkept, Nat.add_assoc]
  have htrim := (hx.shortened hkept).1.trim_eq before after
  rw [hfits.apply_eq, htext, Splice.traced_cons (Nat.zero_add _).symm (by
    simp [hkept, Nat.add_assoc])]
  simpa [text, withContent, opening, Splice.traced, Function.comp_def] using htrim

end Shortened

/-- An outline gives a literal the widths of its delimiters, so that its content is what stands
between them. A plan for the literal alone, where its content is longer than the limit, leaves whole
pieces of it up to the limit and three dots. This is again a literal with the same delimiters, and
it ends where its single characters first spell the closing quote. -/
theorem shortened_reads_as_literal {language : Language} {before : List Char} {x : Lexeme}
    {t : Tree} (hx : WellFormed language t.kind x)
    (ht : StandsAt language (Text.byteLength before) x t) (after : List Char) (limit : Nat) :
    ∃ l, literal? language (before ++ (x.text ++ after)) t = some l ∧
      l.lead + l.quote = Text.byteLength x.opening ∧ l.quote = Text.byteLength x.closing ∧
      l.content.start = Text.byteLength (before ++ x.opening) ∧
      Text.slice? (before ++ (x.text ++ after)) l.content = some (spell x.content) ∧
      (limit < (spell x.content).length → ∃ kept dropped cuts, x.content = kept ++ dropped ∧
        ((spell kept).length = limit ∨ ∃ a rest, dropped = .atom a :: rest ∧
          (spell kept).length < limit ∧ limit < (spell kept).length + a.length) ∧
        plan (before ++ (x.text ++ after)) [] [l] ⟨limit, language.placeholder?⟩ = .ok cuts ∧
        Splice.apply (before ++ (x.text ++ after)) cuts =
          before.dropWhile Text.isBlank ++ (x.opening ++ spell kept ++ ellipsis ++ x.closing) ++
            Text.dropEndWhile Text.isBlank after ∧
        WellFormed language t.kind (x.withContent (kept ++ chars ellipsis)) ∧
        beforeClosing x.closing (kept ++ chars ellipsis ++ chars x.closing) =
          some (kept ++ chars ellipsis)) := by
  have hcontent := ht.content_eq hx.quotes
    (atomSpans (Text.byteLength (before ++ x.opening)) x.content)
  have hslice := slice?_content before after x
  refine ⟨_, literal?_eq_some_iff.mpr ⟨hx.quotes.shortens, literalOf?_eq hx ht⟩, ?_, rfl, ?_, ?_,
    fun hlong => ?_⟩
  · simp only [opening, Text.byteLength_append, hx.quotes.byteLength_eq]
  · rw [hcontent]
  · rw [hcontent, hslice]
  · obtain ⟨dropped, hkept, hroom⟩ := keep_spec hlong
    obtain ⟨hwell, hfirst⟩ := hx.shortened hkept
    have hcut := Literal.truncation?_eq_some_iff.mpr
      ⟨spell x.content, hcontent ▸ hslice, hlong, rfl⟩
    have hstart := pullBack_atomSpans limit (Text.byteLength (before ++ x.opening)) x.content
    simp only [Literal.limitOffset, hcontent, hstart] at hcut
    rw [← Text.byteLength_append] at hcut
    exact ⟨keep limit x.content, dropped, _, hkept, hroom, plan_of_truncation hcut,
      hx.apply_eq hkept before after, hwell, hfirst⟩

def hashInside : Lexeme :=
  ⟨['b', 'r'], ['#', '#', '"'], chars ['a', '"', '#', 'b'], ['"', '#', '#']⟩

theorem shortened_reads_as_literal_hashInside :
    ∃ l, literal? .rust ("s = ".toList ++ (hashInside.text ++ [';']))
        (.node .rawString ⟨4, 16⟩ false []) = some l ∧
      ∃ kept dropped cuts, hashInside.content = kept ++ dropped ∧ (spell kept).length = 3 ∧
        plan ("s = ".toList ++ (hashInside.text ++ [';'])) [] [l] ⟨3, none⟩ = .ok cuts ∧
        Splice.apply ("s = ".toList ++ (hashInside.text ++ [';'])) cuts =
          "s = ".toList ++ (hashInside.opening ++ spell kept ++ ellipsis ++ hashInside.closing) ++
            [';'] := by
  have hx : WellFormed .rust (Syntax.Tree.node .rawString ⟨4, 16⟩ false []).kind hashInside :=
    ⟨.rustRaw 2, by simp [hashInside], by decide, by simp [hashInside, chars], by decide⟩
  have ht : StandsAt .rust (Text.byteLength "s = ".toList) hashInside
      (.node .rawString ⟨4, 16⟩ false []) := ⟨by decide, rfl, rfl, by decide⟩
  obtain ⟨l, hl, -, -, -, -, hcut⟩ := shortened_reads_as_literal hx ht [';'] 3
  obtain ⟨kept, dropped, cuts, hkept, hroom, hplan, happly, -⟩ := hcut (by decide)
  have hlen : (spell kept).length = 3 := by
    rcases hroom with hlen | ⟨a, rest, rfl, -⟩
    · exact hlen
    · have hmem : Piece.atom a ∈ hashInside.content := by simp [hkept]
      simp [hashInside, chars] at hmem
  exact ⟨l, hl, kept, dropped, cuts, hkept, hlen, hplan, happly⟩

end Lexeme
end Synopsis
