import Synopsis.Proofs.LineStarts
import Synopsis.Proofs.Syntax.Grammars
import Synopsis.Proofs.Syntax.Origins
import Synopsis.Proofs.Tidying

/-!
# Abridged text in normal layout

Where a language has a normal layout, the abridged text is read again and its strings that go over
several lines are protected. In a text that is read without an error, a string begins and ends with
its quotes, so laying the text out leaves these strings alone. All other lines lose blanks only: the
lines that are not blank stay lines, with the same characters on them, blanks apart.
-/

namespace Synopsis

namespace Layout

/-- What stands on the lines of a text that are not blank, without the blanks. -/
def shape (text : List Char) : List (List Char) :=
  ((text.splitOn '\n').map fun line => line.filter (!Text.isBlank ·)).filter (!·.isEmpty)

section Shape

variable {a b : List Char} {c : Char}

theorem shape_append_newline (a b : List Char) : shape (a ++ '\n' :: b) = shape a ++ shape b := by
  unfold shape List.splitOn
  rw [List.splitOnP_append_cons a b (by simp), List.map_append, List.filter_append]

theorem shape_of_not_mem (h : '\n' ∉ a) :
    shape a = [a.filter (!Text.isBlank ·)].filter (!·.isEmpty) := by
  unfold shape List.splitOn
  rw [List.splitOnP_eq_singleton]
  · rfl
  · intro c hc
    have hne : c ≠ '\n' := fun he => h (he ▸ hc)
    simpa using hne

theorem shape_congr (ha : '\n' ∉ a) (hb : '\n' ∉ b)
    (h : a.filter (!Text.isBlank ·) = b.filter (!Text.isBlank ·)) : shape a = shape b := by
  rw [shape_of_not_mem ha, shape_of_not_mem hb, h]

theorem shape_nil : shape [] = [] := rfl

theorem shape_flatten (text : List Char) :
    (shape text).flatten = text.filter (!Text.isBlank ·) := by
  induction text using lines_induction with
  | nil => rfl
  | last content hnot _ =>
    rw [shape_of_not_mem hnot]
    cases hink : content.filter (!Text.isBlank ·) with
    | nil => rfl
    | cons c ink => simp
  | line content rest hnot ih =>
    rw [shape_append_newline, List.flatten_append, ih, List.filter_append, shape_of_not_mem hnot]
    have hnewline : ('\n' :: rest).filter (!Text.isBlank ·) = rest.filter (!Text.isBlank ·) :=
      List.filter_cons_of_neg (by decide)
    rw [hnewline]
    cases hink : content.filter (!Text.isBlank ·) with
    | nil => rfl
    | cons c ink => simp

theorem shape_cons_blank (hc : Text.isBlank c = true) (a : List Char) :
    shape (c :: a) = shape a := by
  by_cases hnewline : c = '\n'
  · subst hnewline
    exact shape_append_newline [] a
  · have hline : ∀ line, '\n' ∉ line → shape (c :: line) = shape line := by
      intro line hnot
      refine shape_congr ?_ hnot ?_
      · simp [hnot, Ne.symm hnewline]
      · simp [hc]
    by_cases h : '\n' ∈ a
    · obtain ⟨line, rest, rfl, hnot⟩ := List.eq_append_cons_of_mem h
      have hfirst := shape_append_newline (c :: line) rest
      rw [List.cons_append] at hfirst
      rw [hfirst, shape_append_newline, hline line hnot]
    · exact hline a h

theorem shape_append_blank (hc : Text.isBlank c = true) (a : List Char) :
    shape (a ++ [c]) = shape a := by
  by_cases hnewline : c = '\n'
  · subst hnewline
    rw [shape_append_newline, shape_nil, List.append_nil]
  · have hline : ∀ line, '\n' ∉ line → shape (line ++ [c]) = shape line := by
      intro line hnot
      refine shape_congr ?_ hnot ?_
      · simp [hnot, Ne.symm hnewline]
      · simp [hc]
    by_cases h : '\n' ∈ a
    · obtain ⟨front, ha⟩ := Text.exists_lastLine h
      have hnot := Text.newline_not_mem_lastLine a
      generalize Text.lastLine a = line at ha hnot
      subst ha
      rw [List.append_assoc, List.cons_append, shape_append_newline, shape_append_newline,
        hline line hnot]
    · exact hline a h

theorem shape_trim (text : List Char) : shape (Text.trim text) = shape text := by
  have hlead : ∀ lead rest, (∀ c ∈ lead, Text.isBlank c = true) →
      shape (lead ++ rest) = shape rest := by
    intro lead rest h
    induction lead with
    | nil => rfl
    | cons c lead ih =>
      rw [List.cons_append, shape_cons_blank (h c (by simp)), ih fun d hd => h d (by simp [hd])]
  have htrail : ∀ trail rest, (∀ c ∈ trail, Text.isBlank c = true) →
      shape (rest ++ trail) = shape rest := by
    intro trail
    induction trail with
    | nil => simp
    | cons c trail ih =>
      intro rest h
      have hsplit : rest ++ c :: trail = rest ++ [c] ++ trail := by simp
      rw [hsplit, ih _ fun d hd => h d (by simp [hd]), shape_append_blank (h c (by simp))]
  obtain ⟨lead, trail, htext, hl, ht⟩ := (Splice.trimmed_trim text).exists_ends
  calc shape (Text.trim text)
      = shape (lead ++ Text.trim text) := (hlead lead _ hl).symm
    _ = shape (lead ++ Text.trim text ++ trail) := (htrail trail _ ht).symm
    _ = shape text := congrArg shape htext.symm

theorem shape_dropEndWhile (h : '\n' ∉ a) :
    shape (Text.dropEndWhile Text.isSpaceOrTab a) = shape a := by
  obtain ⟨blanks, hsplit, hblanks⟩ := Splice.exists_dropEndWhile Text.isSpaceOrTab a
  generalize Text.dropEndWhile Text.isSpaceOrTab a = front at hsplit ⊢
  subst hsplit
  have hnone : blanks.filter (!Text.isBlank ·) = [] := by
    rw [List.filter_eq_nil_iff]
    intro c hc
    simp [isBlank_of_isSpaceOrTab (hblanks c hc)]
  refine shape_congr (fun hmem => h (List.mem_append_left _ hmem)) h ?_
  rw [List.filter_append, hnone, List.append_nil]

theorem shape_tidy (spans : List Span) (text : List Char) :
    ∀ offset afterBlank, shape (tidy spans offset afterBlank (lines text)) = shape text := by
  induction text using lines_induction with
  | nil => exact fun _ _ => rfl
  | last content hnot hne =>
    intro offset afterBlank
    rw [lines_of_not_mem hnot hne]
    simp only [tidy, Line.text, Bool.false_eq_true, if_false, List.append_nil]
    split
    case isTrue => rfl
    case isFalse =>
      split
      case isTrue hblank =>
        rw [← shape_dropEndWhile hnot, List.isEmpty_iff.mp (Bool.and_eq_true_iff.mp hblank).1]
      case isFalse => exact shape_dropEndWhile hnot
  | line content rest hnot ih =>
    intro offset afterBlank
    rw [lines_append_newline hnot, shape_append_newline]
    simp only [tidy, Line.text, if_true]
    split
    case isTrue => rw [List.append_assoc, List.singleton_append, shape_append_newline, ih]
    case isFalse =>
      split
      case isTrue hblank =>
        rw [ih, ← shape_dropEndWhile hnot, List.isEmpty_iff.mp (Bool.and_eq_true_iff.mp hblank).1]
        rfl
      case isFalse =>
        rw [List.append_assoc, List.singleton_append, shape_append_newline, ih,
          shape_dropEndWhile hnot]

theorem shape_normalize (text : List Char) (spans : List Span) :
    shape (normalize text spans) = shape text := by
  rw [normalize, shape_trim, shape_tidy]

end Shape

end Layout

namespace Grammar.Go

open Syntax Pattern

def quoted : P :=
  all [take (Scan.text ['"']),
    many (either (node .escape (take escape)) (take
      (Scan.while1 fun c => c != '"' && c != '\n' && c != '\\'))),
    closingQuote]

def backquoted : P :=
  all [take (Scan.text ['\x60']), many (take (Scan.while1 (· != '\x60'))),
    take (Scan.text ['\x60'])]

theorem string_patterns {name : Rule} {kind : Kind} {inner : P}
    (h : (kind, inner) ∈ (grammar name).nodes) (hkind : Language.shortens .go kind = true) :
    inner = quoted ∨ inner = backquoted := by
  have hfilter : (kind, inner) ∈ (grammar name).nodes.filter
      fun e => Language.shortens .go e.1 := by
    simp [h, hkind]
  cases name with
  | string line =>
    have hnodes : (grammar (.string line)).nodes.filter (fun e => Language.shortens .go e.1) =
        [(.string, quoted), (.rawString, backquoted)] := rfl
    rw [hnodes, List.mem_cons, List.mem_singleton] at hfilter
    rcases hfilter with hpair | hpair
    · exact .inl (Prod.mk.inj hpair).2
    · exact .inr (Prod.mk.inj hpair).2
  | operand line brace => cases line <;> cases brace <;> cases hfilter
  | _ => cases hfilter

section Quotes

variable {repair : Repair} {depth : Nat} {text : List Char} {p q : Syntax.Place}

theorem passes_between_marks {c : Char} {middle : P} (hm : middle.makes (Language.makes .go) = true)
    (hp : p.In text)
    (h : (all [take (Scan.text [c]), middle, take (Scan.text [c])]).read repair
      (Syntax.Grammar.read grammar repair depth) p = .ok q) :
    ∃ inside, p.Passes (c :: (inside ++ [c])) q := by
  obtain ⟨p1, hopen, h⟩ := read_seq_eq_ok.mp h
  obtain ⟨p2, hmiddle, hclose⟩ := read_seq_eq_ok.mp h
  have hin : ∀ {pattern : P} {p q : Syntax.Place}, pattern.read repair
      (Syntax.Grammar.read grammar repair depth) p = .ok q → p.In text → q.In text :=
    fun h hp => Pattern.read_in (fun _ _ _ h hp => Grammar.read_in h hp) h hp
  obtain ⟨_, hadds⟩ := Pattern.read_adds rfl
    (fun _ _ _ h => Grammar.read_adds rfl grammar_makes h) hm hmiddle
  obtain ⟨inside, hinside⟩ := (hin hopen hp).passes (hin hmiddle (hin hopen hp)) hadds.offset_le
  exact ⟨inside, (Pattern.read_mark_passes hopen).trans
    (hinside.trans (Pattern.read_mark_passes hclose))⟩

theorem closingQuote_cases (h : closingQuote.read repair (Syntax.Grammar.read grammar repair depth)
    p = .ok q) :
    (take (Scan.text ['"']) : P).read repair (Syntax.Grammar.read grammar repair depth) p = .ok q ∨
      ∃ t ∈ q.found, t.faulty = true := by
  rcases read_either_eq_ok h with h | ⟨reach, h⟩
  · exact .inl h
  · obtain ⟨m, -, hsupply⟩ := read_seq_eq_ok.mp h
    obtain rfl := read_supply_eq_ok hsupply
    exact .inr ⟨_, List.mem_cons_self, rfl⟩

end Quotes

/-- A string of a text that is read without an error begins and ends with its quotes. -/
theorem string_inked {text : List Char} (herror : (tree text).hasError = false) {x : Tree}
    (hx : x ∈ (tree text).preorder) (hkind : Language.shortens .go x.kind = true) :
    Layout.Inked text x.span := by
  obtain ⟨repair, htree⟩ := Grammar.exists_repair herror
  have hfile : (tree text).kind = .file := Grammar.tree?_kind htree
  have hbelow : x ∈ (tree text).descendants := by
    refine (Tree.mem_preorder.mp hx).resolve_left fun hroot => ?_
    rw [hroot, hfile] at hkind
    cases hkind
  obtain ⟨name, inner, depth, p, q, hmem, hin, -, hread, hspan⟩ :=
    Grammar.tree?_made htree hbelow (Tree.faulty_of_mem_preorder herror hx)
  have hchildren : ∀ t ∈ q.found, t.faulty = false := by
    intro t ht
    have hchild : t ∈ x.children := by
      rw [hspan]
      simpa [Tree.children] using ht
    exact Tree.faulty_of_mem_preorder herror (Tree.mem_preorder_trans
      (Tree.mem_preorder.mpr (.inr (Tree.mem_descendants_of_mem_children hchild))) hx)
  have hquotes : ∃ c inside, Text.isBlank c = false ∧ p.Passes (c :: (inside ++ [c])) q := by
    rcases string_patterns hmem hkind with rfl | rfl
    · obtain ⟨p1, hopen, hrest⟩ := read_seq_eq_ok.mp hread
      obtain ⟨p2, hmiddle, hclose⟩ := read_seq_eq_ok.mp hrest
      rcases closingQuote_cases hclose with hclose | ⟨t, ht, hfault⟩
      · have hmarks := read_seq_eq_ok.mpr ⟨p1, hopen, read_seq_eq_ok.mpr ⟨p2, hmiddle, hclose⟩⟩
        obtain ⟨inside, hpass⟩ := passes_between_marks rfl hin hmarks
        exact ⟨'"', inside, by decide, hpass⟩
      · rw [hchildren t ht] at hfault
        cases hfault
    · obtain ⟨inside, hpass⟩ := passes_between_marks rfl hin hread
      exact ⟨'\x60', inside, by decide, hpass⟩
  obtain ⟨c, inside, hc, hpass⟩ := hquotes
  refine ⟨c :: (inside ++ [c]), ?_, by simp, by simpa using hc, ?_⟩
  · rw [hspan]
    exact hin.slice?_eq hpass
  · simpa [List.getLast?_cons] using hc

end Grammar.Go

namespace Abridge

open Syntax

theorem protectedSpans_inked {language : Language} {text : List Char} {tree : Tree}
    (h : ∀ t ∈ tree.preorder, language.shortens t.kind = true → Layout.Inked text t.span) :
    ∀ s ∈ protectedSpans language text tree, Layout.Inked text s := by
  intro s hs
  obtain ⟨hmem, -⟩ := List.mem_filter.mp hs
  obtain ⟨x, hx, rfl⟩ := List.mem_map.mp hmem
  obtain ⟨hx, hkind⟩ := List.mem_filter.mp hx
  exact h x hx hkind

theorem mem_protectedSpans {language : Language} {text raw : List Char} {tree t : Tree}
    (ht : t ∈ tree.preorder) (hkind : language.shortens t.kind = true)
    (hraw : Text.slice? text t.span = some raw) (hlines : '\n' ∈ raw) :
    t.span ∈ protectedSpans language text tree := by
  simp only [protectedSpans, List.mem_filter, List.mem_map]
  exact ⟨⟨t, ⟨ht, hkind⟩, rfl⟩, by simp [hraw, hlines]⟩

theorem eq_ok_of_toOption {outcome : Except MapError (List Char)} {result : List Char}
    (h : outcome.toOption = some result) : outcome = .ok result := by
  cases outcome with
  | ok => exact congrArg _ (Option.some.inj h)
  | error => cases h

theorem layoutTree_eq_ok_iff {language : Language} {path text result : List Char} {tree : Tree} :
    layoutTree language path text tree = .ok result ↔
      tree.hasError = false ∧
        result = Layout.normalize text (protectedSpans language text tree) := by
  rw [layoutTree]
  cases tree.hasError with
  | true => simp
  | false => simp [eq_comm]

theorem source_go_cases {path text result : List Char} {limit : Nat}
    (h : source .go path text ⟨limit, true⟩ = .ok result) :
    ∃ plain, source .go path text ⟨limit, false⟩ = .ok plain ∧
      layoutTree .go path (plain ++ ['\n']) (Language.tree .go (plain ++ ['\n'])) = .ok result := by
  unfold source withOutline at h ⊢
  split at h
  case h_1 => cases h
  case h_2 cuts hplan =>
    simp only [hplan]
    exact ⟨Splice.apply text cuts, rfl, h⟩

/-- The result is the plain text in another layout: it has the same lines, blanks and blank lines
apart, and the same literals that go over several lines. -/
structure Relaid (language : Language) (plain result : List Char) (tree : Tree) : Prop where
  shape : Layout.shape result = Layout.shape plain
  ink : result.filter (!Text.isBlank ·) = plain.filter (!Text.isBlank ·)
  cleaned : ∃ tidied kept, kept.map Prod.fst = result ∧
    Layout.Cleaned (plain ++ ['\n']) (protectedSpans language (plain ++ ['\n']) tree) tidied kept ∧
    ∀ t ∈ tree.preorder, language.shortens t.kind = true →
      ∀ raw, Text.slice? (plain ++ ['\n']) t.span = some raw → '\n' ∈ raw →
        Splice.placed t.start raw <:+: kept

theorem relaid_of_inked {language : Language} {path plain result : List Char} {tree : Tree}
    (h : layoutTree language path (plain ++ ['\n']) tree = .ok result)
    (hink : ∀ t ∈ tree.preorder, language.shortens t.kind = true →
      Layout.Inked (plain ++ ['\n']) t.span) : Relaid language plain result tree := by
  obtain ⟨-, hresult⟩ := layoutTree_eq_ok_iff.mp h
  have hshape : Layout.shape result = Layout.shape plain := by
    rw [hresult, Layout.shape_normalize, Layout.shape_append_blank (by decide)]
  refine ⟨hshape, ?_, ?_⟩
  · rw [← Layout.shape_flatten, ← Layout.shape_flatten, hshape]
  · obtain ⟨tidied, kept, hkept, hcleaned⟩ :=
      Layout.normalize_cleaned (protectedSpans_inked hink)
    refine ⟨tidied, kept, by rw [hkept, hresult], hcleaned, fun t ht hkind raw hraw hlines => ?_⟩
    exact hcleaned.spared t.span (mem_protectedSpans ht hkind hraw hlines) raw hraw

/-- Normal layout deletes blanks only. Spans that begin and end with other characters than blanks
stay as they are, and so does the separation of what is not blank, by blanks and by newlines. So a
text is relaid by any tree whose literals begin and end so. The literals of abridged text that is
read again do, and what is abridged with a layout is what is abridged without one, relaid. -/
theorem layout_deletes_blanks :
    (∀ text spans, (∀ s ∈ spans, Layout.Inked text s) → ∃ tidied kept,
      kept.map Prod.fst = Layout.normalize text spans ∧ Layout.Cleaned text spans tidied kept) ∧
    (∀ language path plain result tree,
      layoutTree language path (plain ++ ['\n']) tree = .ok result →
      (∀ t ∈ tree.preorder, language.shortens t.kind = true →
        Layout.Inked (plain ++ ['\n']) t.span) → Relaid language plain result tree) ∧
    ∀ path text limit result, source .go path text ⟨limit, true⟩ = .ok result →
      ∃ plain, source .go path text ⟨limit, false⟩ = .ok plain ∧
        Relaid .go plain result (Language.tree .go (plain ++ ['\n'])) := by
  refine ⟨?_, ?_, ?_⟩
  · intro text spans hink
    exact Layout.normalize_cleaned hink
  · intro language path plain result tree h hink
    exact relaid_of_inked h hink
  · intro path text limit result h
    obtain ⟨plain, hplain, hlaid⟩ := source_go_cases h
    have herror := (layoutTree_eq_ok_iff.mp hlaid).1
    refine ⟨plain, hplain, relaid_of_inked hlaid ?_⟩
    intro t ht hkind
    exact Grammar.Go.string_inked herror ht hkind

def blankLinesInString : List Char :=
  "package p  \n\n\n\nvar s = \x60a \n\n\n b\x60  \n".toList

theorem layout_deletes_blanks_blankLinesInString :
    (∃ tidied kept, kept.map Prod.fst = Layout.normalize blankLinesInString [⟨23, 32⟩] ∧
      Layout.Cleaned blankLinesInString [⟨23, 32⟩] tidied kept) ∧
    (source .go "a.go".toList blankLinesInString ⟨100, true⟩).toOption =
      some "package p\n\nvar s = \x60a \n\n\n b\x60".toList ∧
    ∃ plain, source .go "a.go".toList blankLinesInString ⟨100, false⟩ = .ok plain ∧
      Layout.shape "package p\n\nvar s = \x60a \n\n\n b\x60".toList = Layout.shape plain := by
  have hink : ∀ s ∈ [(⟨23, 32⟩ : Span)], Layout.Inked blankLinesInString s := by
    intro s hs
    obtain rfl := List.mem_singleton.mp hs
    have hfirst : "\x60a \n\n\n b\x60".toList.head? = some '\x60' := by decide +kernel
    have hlast : "\x60a \n\n\n b\x60".toList.getLast? = some '\x60' := by decide +kernel
    refine ⟨"\x60a \n\n\n b\x60".toList, by decide +kernel, by decide +kernel, ?_, ?_⟩
    · rw [hfirst]
      exact fun d hd => Option.some.inj hd ▸ by decide
    · rw [hlast]
      exact fun d hd => Option.some.inj hd ▸ by decide
  have hlaid : (source .go "a.go".toList blankLinesInString ⟨100, true⟩).toOption =
      some "package p\n\nvar s = \x60a \n\n\n b\x60".toList := by
    decide +kernel
  obtain ⟨plain, hplain, hrelaid⟩ :=
    layout_deletes_blanks.2.2 _ _ _ _ (eq_ok_of_toOption hlaid)
  exact ⟨layout_deletes_blanks.1 _ _ hink, hlaid, plain, hplain, hrelaid.shape⟩

end Abridge

end Synopsis
