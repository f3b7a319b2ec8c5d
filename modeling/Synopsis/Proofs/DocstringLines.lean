import Synopsis.Proofs.Docstrings
import Synopsis.Proofs.Syntax.Suites

/-!
# Strings that document functions, and the lines on which they stand

The statement that stands in for the rest of a body goes on a line of its own. It belongs to the
same block as the string before it if the string is the first on its line and has the same
indentation. This is so exactly where the string stands on a line below the colon, with nothing but
spaces and tabs before it: for a body on the line of its header the indentation is made up, and
other blanks at the start of a line are not counted.
-/

namespace Synopsis.Outline

open Syntax

/-- What stands before the offset on its line is the indentation, which is spaces and tabs. -/
def HeadsLine (text : List Char) (offset : Nat) (indent : List Char) : Prop :=
  ∃ before ∈ Text.takeBytes? offset text, Text.lastLine before = indent ∧
    ∀ c ∈ indent, Text.isSpaceOrTab c = true

/-- A function whose body begins with a string that stays, and has more that goes. -/
structure KeepsDocstring (text : List Char) (tree f block doc : Tree) (b : Body) : Prop where
  mem : f ∈ tree.preorder
  kind : f.kind = .function
  child : block ∈ f.children
  blockKind : block.kind = .block
  body : indentedBody? text f block = some b
  first : block.namedChildren.find? (·.kind != .comment) = some doc
  docstring : isDocstring doc = true
  leaves : b.cutStart < b.span.stop

section Parts

variable {text : List Char} {tree f block colon doc : Tree} {b : Body}

theorem KeepsDocstring.body_eq (h : KeepsDocstring text tree f block doc b) {other : Tree}
    (hheaded : Grammar.Python.Headed text f colon other) :
    block = other ∧
      b = ⟨⟨colon.stop, block.stop⟩, doc.stop, some (bodyIndent text f colon doc)⟩ := by
  have hmarks : ∀ c ∈ f.children, c.kind = .token ":" ∨ c.kind = .block →
      c = colon ∨ c = other := by
    intro c hc hkind
    have hmem : c ∈ f.children.filter (fun c => c.kind == .token ":" || c.kind == .block) := by
      simp [hc, hkind]
    simpa [hheaded.children] using hmem
  have hblock : block = other := by
    refine (hmarks block h.child (.inr h.blockKind)).resolve_left ?_
    rintro rfl
    cases hheaded.colonKind.symm.trans h.blockKind
  obtain ⟨last, hlast, -⟩ := Option.map_eq_some_iff.mp h.body
  have hcolon : last = colon := by
    obtain ⟨hmem, hkind⟩ := List.mem_filter.mp (List.mem_of_getLast? hlast)
    have hkind := beq_iff_eq.mp (Bool.and_eq_true_iff.mp hkind).1
    refine (hmarks last hmem (.inl hkind)).resolve_right ?_
    rintro rfl
    cases hheaded.blockKind.symm.trans hkind
  rw [hcolon] at hlast
  have hbody := h.body
  rw [indentedBody?_of_docstring hlast h.first h.docstring] at hbody
  exact ⟨hblock, (Option.some.inj hbody).symm⟩

theorem headsLine_newline {before stretch after indent : List Char}
    (h : HeadsLine (before ++ ':' :: (stretch ++ after))
      (Text.byteLength (before ++ ':' :: stretch)) indent) :
    '\n' ∈ stretch ∧ ∀ c ∈ Text.lastLine stretch, Text.isSpaceOrTab c = true := by
  obtain ⟨shown, hshown, rfl, hindent⟩ := h
  have htext : before ++ ':' :: (stretch ++ after) = before ++ ':' :: stretch ++ after := by simp
  rw [htext, Text.takeBytes?_append] at hshown
  obtain rfl := Option.some.inj hshown
  by_cases hnewline : '\n' ∈ stretch
  · rw [Text.lastLine_append_of_mem (by simp [hnewline]),
      Text.lastLine_cons_of_mem _ hnewline] at hindent
    exact ⟨hnewline, hindent⟩
  · -- the colon is on the line of the string
    rw [Text.lastLine_append_of_not_mem (by simp [hnewline])] at hindent
    exact absurd (hindent ':' (by simp)) (by decide)

theorem bodyIndent_headsLine {before stretch after : List Char}
    (htext : text = before ++ ':' :: (stretch ++ after))
    (hcolon : colon.stop = Text.byteLength (before ++ [':']))
    (hdoc : doc.start = Text.byteLength (before ++ ':' :: stretch))
    (hafter : ∀ c ∈ after.head?, Text.isSpaceOrTab c = false) (hnewline : '\n' ∈ stretch)
    (hline : ∀ c ∈ Text.lastLine stretch, Text.isSpaceOrTab c = true) :
    HeadsLine text doc.start (bodyIndent text f colon doc) := by
  have htext' : text = before ++ ':' :: stretch ++ after := by simp [htext]
  have hlast : Text.lastLine (before ++ ':' :: stretch) = Text.lastLine stretch := by
    rw [Text.lastLine_append_of_mem (by simp [hnewline]), Text.lastLine_cons_of_mem _ hnewline]
  have hrows : (Text.position doc.start text).row ≠ (Text.position colon.stop text).row := by
    have hcount := List.count_pos_iff.mpr hnewline
    have hdocRow : (Text.position doc.start text).row = (before ++ ':' :: stretch).count '\n' := by
      rw [hdoc, htext', Text.position_row]
    have hcolonRow : (Text.position colon.stop text).row = (before ++ [':']).count '\n' := by
      have hsplit : text = before ++ [':'] ++ (stretch ++ after) := by simp [htext]
      rw [hcolon, hsplit, Text.position_row]
    rw [hdocRow, hcolonRow]
    simp only [List.count_append, List.count_cons, List.count_nil]
    omega
  have hindent : bodyIndent text f colon doc = Text.lastLine stretch := by
    rw [bodyIndent, if_neg hrows, hdoc, htext', lineIndent_eq, hlast]
    · rwa [hlast]
    · exact hafter
  refine ⟨before ++ ':' :: stretch, ?_, ?_, ?_⟩
  · rw [hdoc, htext', Text.takeBytes?_append]
    rfl
  · rw [hlast, hindent]
  · rw [hindent]
    exact hline

end Parts

theorem KeepsDocstring.headsLine_iff {text : List Char} {tree f block doc : Tree} {b : Body}
    (h : KeepsDocstring text tree f block doc b) (htree : Grammar.Python.HeadedIn text tree) :
    ∃ indent stretch,
      b.elision? (Language.placeholder? .python) =
        some ⟨⟨doc.stop, block.stop⟩, '\n' :: (indent ++ "pass".toList)⟩ ∧
      Text.slice? text ⟨b.span.start, doc.start⟩ = some stretch ∧
      (∀ c ∈ Text.lastLine stretch, Grammar.Python.isSpace c = true) ∧
      (HeadsLine text doc.start indent ↔
        '\n' ∈ stretch ∧ ∀ c ∈ Text.lastLine stretch, Text.isSpaceOrTab c = true) := by
  obtain ⟨colon, other, hheaded⟩ := htree f h.mem h.kind
  obtain ⟨rfl, hbody⟩ := h.body_eq hheaded
  obtain ⟨before, stretch, after, htext, hcolon, hdoc, hspacious, hafter⟩ :=
    hheaded.between doc h.first h.docstring
  refine ⟨bodyIndent text f colon doc, stretch, ?_, ?_, hspacious, ?_⟩
  · have hlt := h.leaves
    rw [hbody] at hlt ⊢
    rw [Body.elision?, if_pos hlt]
    rfl
  · rw [hbody]
    refine Text.slice?_eq_some_iff.mpr ⟨before ++ [':'], after, ?_, hcolon.symm, ?_⟩
    · simp [htext]
    · simp [hdoc]
      omega
  · constructor
    · intro hheads
      rw [hdoc, htext] at hheads
      exact headsLine_newline hheads
    · rintro ⟨hnewline, hline⟩
      exact bodyIndent_headsLine htext hcolon hdoc hafter hnewline hline

/-- Between the colon and a string that stays, only blanks stand before the string on its line, if
it is not the line of the colon. The string heads its line, with the indentation of what stands in
for the rest of the body, exactly if it is below the colon and these blanks are spaces and tabs.
This is so for every tree whose functions are headed, and in what is read without an error they
are. -/
theorem docstring_heads_line_iff (text : List Char) :
    ((Language.tree .python text).hasError = false →
      Grammar.Python.HeadedIn text (Language.tree .python text)) ∧
    ∀ (tree f block doc : Tree) (b : Body),
      Grammar.Python.HeadedIn text tree → KeepsDocstring text tree f block doc b →
      ∃ indent stretch,
        b.elision? (Language.placeholder? .python) =
          some ⟨⟨doc.stop, block.stop⟩, '\n' :: (indent ++ "pass".toList)⟩ ∧
        Text.slice? text ⟨b.span.start, doc.start⟩ = some stretch ∧
        (∀ c ∈ Text.lastLine stretch, Grammar.Python.isSpace c = true) ∧
        (HeadsLine text doc.start indent ↔
          '\n' ∈ stretch ∧ ∀ c ∈ Text.lastLine stretch, Text.isSpaceOrTab c = true) := by
  refine ⟨?_, ?_⟩
  · intro herror
    exact Grammar.Python.tree_headedIn herror
  · intro tree f block doc b htree h
    exact h.headsLine_iff htree

def docBelowComment : List Char :=
  "class A:\n\tdef f(self):  # c\n\n\t  \"doc\"\n\t  return 1\n".toList

theorem docstring_heads_line_belowComment :
    ∃ f block doc b,
      KeepsDocstring docBelowComment (Language.tree .python docBelowComment) f block doc b ∧
      b.elision? (Language.placeholder? .python) =
        some ⟨⟨doc.stop, block.stop⟩, "\n\t  pass".toList⟩ ∧
      HeadsLine docBelowComment doc.start "\t  ".toList := by
  have h : ∃ f ∈ (Language.tree .python docBelowComment).preorder, f.kind = .function ∧
      ∃ block ∈ f.children, block.kind = .block ∧
      ∃ b ∈ indentedBody? docBelowComment f block, b.cutStart < b.span.stop ∧
      ∃ doc ∈ block.namedChildren.find? (·.kind != .comment), isDocstring doc = true ∧
      b.elision? (Language.placeholder? .python) =
        some ⟨⟨doc.stop, block.stop⟩, "\n\t  pass".toList⟩ ∧
      Text.slice? docBelowComment ⟨b.span.start, doc.start⟩ = some "  # c\n\n\t  ".toList := by
    decide +kernel
  obtain ⟨f, hf, hkind, block, hchild, hblock, b, hbody, hcut, doc, hdoc, hstring, hmarker,
    hslice⟩ := h
  have hkeeps : KeepsDocstring docBelowComment (Language.tree .python docBelowComment) f block
      doc b :=
    ⟨hf, hkind, hchild, hblock, hbody, hdoc, hstring, hcut⟩
  obtain ⟨hheaded, hlines⟩ := docstring_heads_line_iff docBelowComment
  obtain ⟨indent, stretch, helision, hstretch, -, hiff⟩ :=
    hlines _ _ _ _ _ (hheaded (by decide +kernel)) hkeeps
  obtain rfl := Option.some.inj (hslice.symm.trans hstretch)
  obtain rfl : "\t  ".toList = indent := by
    have hcut := (Cut.mk.inj (Option.some.inj (hmarker.symm.trans helision))).2
    have hspelled : "\n\t  pass".toList = '\n' :: ("\t  ".toList ++ "pass".toList) := by decide
    rw [hspelled] at hcut
    exact List.append_cancel_right (List.cons.inj hcut).2
  have hspaces : (Text.lastLine "  # c\n\n\t  ".toList).all Text.isSpaceOrTab = true := by
    decide +kernel
  exact ⟨f, block, doc, b, hkeeps, hmarker, hiff.mpr ⟨by decide, List.all_eq_true.mp hspaces⟩⟩

def docBesideColon : List Char := "def f(): \"doc\"; return 1\n".toList

theorem docstring_besideColon :
    (Language.tree .python docBesideColon).hasError = false ∧
    (∃ f block doc b,
      KeepsDocstring docBesideColon (Language.tree .python docBesideColon) f block doc b ∧
      b.elision? (Language.placeholder? .python) =
        some ⟨⟨doc.stop, block.stop⟩, "\n    pass".toList⟩ ∧
      ∀ indent, ¬HeadsLine docBesideColon doc.start indent) ∧
    (Abridge.source .python "a.py".toList docBesideColon ⟨100, true⟩).toOption =
      some "def f(): \"doc\"\n    pass".toList := by
  have h : ∃ f ∈ (Language.tree .python docBesideColon).preorder, f.kind = .function ∧
      ∃ block ∈ f.children, block.kind = .block ∧
      ∃ b ∈ indentedBody? docBesideColon f block, b.cutStart < b.span.stop ∧
      ∃ doc ∈ block.namedChildren.find? (·.kind != .comment), isDocstring doc = true ∧
      b.elision? (Language.placeholder? .python) =
        some ⟨⟨doc.stop, block.stop⟩, "\n    pass".toList⟩ ∧
      Text.takeBytes? doc.start docBesideColon = some "def f(): ".toList := by
    decide +kernel
  refine ⟨by decide +kernel, ?_, by decide +kernel⟩
  obtain ⟨f, hf, hkind, block, hchild, hblock, b, hbody, hcut, doc, hdoc, hstring, hmarker,
    hshown⟩ := h
  refine ⟨f, block, doc, b, ⟨hf, hkind, hchild, hblock, hbody, hdoc, hstring, hcut⟩, hmarker, ?_⟩
  rintro indent ⟨before, hbefore, rfl, hindent⟩
  obtain rfl := Option.some.inj (hshown.symm.trans hbefore)
  exact absurd (hindent 'd' (by decide)) (by decide)

end Synopsis.Outline
