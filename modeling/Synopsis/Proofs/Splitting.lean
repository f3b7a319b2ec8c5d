import Synopsis.Proofs.Outlining
import Synopsis.Proofs.Syntax.Grammars
import Synopsis.Proofs.Truncation

/-!
# What a cut in a literal splits

A cut moves back to the start of an atom, so it never splits a node of a kind that the language
counts among its atoms. Other nodes are split where the limit falls inside them. Two kinds that a
cut should not split are not counted: the doubled braces of Python and the expressions inside the
strings of Java.
-/

namespace Synopsis.Outline

open Syntax Synopsis.Span

def indivisible : Kind → Bool
  | .escape | .braceEscape | .interpolation => true
  | _ => false

section Nodes

variable {kinds : List Kind} {t n : Tree} (hw : t.WellNested)

include hw

theorem pullBack_not_inside_node
    (hleaf : ∀ x ∈ t.descendants, x.named = false → x.children = []) (hn : n ∈ t.descendants)
    (hnamed : n.named = true) (hkind : n.kind ∈ kinds) (offset : Nat) :
    ¬StrictlyInside (pullBack (atomsBelow kinds t) offset) n.span := by
  rintro ⟨hlt1, hlt2⟩
  obtain ⟨a, ha, h1, h2⟩ := exists_atom_holds hw hleaf hn hnamed hkind
  exact pullBack_not_inside (atomsBelow_inOrder hw).apart offset ha
    ⟨Nat.lt_of_le_of_lt h1 hlt1, Nat.lt_of_lt_of_le hlt2 h2⟩

-- An atom that begins inside a node can neither hold the node nor reach out of it.
theorem holds_atom_of_start_inside (hn : n ∈ t.descendants) (hkind : n.kind ∉ kinds) {a : Span}
    (ha : a ∈ atomsBelow kinds t) (hstart : StrictlyInside a.start n.span)
    (hne : a.start < a.stop) : n.span.Holds a := by
  obtain ⟨m, hm, hmk, rfl⟩ := mem_atomsBelow ha
  have hnt : n ∈ t.preorder := Tree.mem_preorder.mpr (.inr hn)
  have hmt : m ∈ t.preorder := Tree.mem_preorder.mpr (.inr hm)
  obtain ⟨h1, h2⟩ := hstart
  rcases hw.trichotomy hnt hmt with rfl | hnm | hmn | hap
  · exact absurd hmk hkind
  · have hle := ((hw.of_mem_preorder hmt).2.holds_of_mem_descendants hnm).1
    omega
  · exact (hw.of_mem_preorder hnt).2.holds_of_mem_descendants hmn
  · rcases hap with hap | hap <;> omega

/-- An offset that is moved back splits a node exactly where the node's kind is no atom, the offset
was inside the node, and the atom that it moves out of, if any, begins inside the node too. -/
theorem pullBack_splits_iff (hleaf : ∀ x ∈ t.descendants, x.named = false → x.children = [])
    (hn : n ∈ t.descendants) (hnamed : n.named = true) (offset : Nat) :
    StrictlyInside (pullBack (atomsBelow kinds t) offset) n.span ↔
      n.kind ∉ kinds ∧ StrictlyInside offset n.span ∧
        ∀ a ∈ atomsBelow kinds t, StrictlyInside offset a → n.start < a.start := by
  have hord : InOrder (atomsBelow kinds t) := atomsBelow_inOrder hw
  constructor
  · intro hin
    have hkind : n.kind ∉ kinds := fun hk =>
      pullBack_not_inside_node hw hleaf hn hnamed hk offset hin
    refine ⟨hkind, ?_⟩
    rcases pullBack_cases (atomsBelow kinds t) offset with ⟨he, hnone⟩ | ⟨a, ha, hoff, he⟩
    · rw [he] at hin
      exact ⟨hin, fun a ha hoff => absurd hoff (hnone a ha)⟩
    · rw [he] at hin
      obtain ⟨h1, h2⟩ := hoff
      have hna := holds_atom_of_start_inside hw hn hkind ha hin (Nat.lt_trans h1 h2)
      refine ⟨⟨Nat.lt_trans hin.1 h1, Nat.lt_of_lt_of_le h2 hna.2⟩, ?_⟩
      rintro b hb ⟨h3, h4⟩
      -- atoms follow one another, so the offset is inside one of them only
      rcases hord.eq_or_apart ha hb with rfl | hap | hap
      · exact hin.1
      · omega
      · omega
  · rintro ⟨-, hin, hall⟩
    rcases pullBack_cases (atomsBelow kinds t) offset with ⟨he, -⟩ | ⟨a, ha, hoff, he⟩
    · rw [he]
      exact hin
    · rw [he]
      exact ⟨hall a ha hoff, Nat.lt_trans hoff.1 hin.2⟩

end Nodes

theorem named_of_indivisible {kind : Kind} (h : indivisible kind = true) : kind.named = true := by
  cases kind with
  | token text => cases h
  | _ => rfl

theorem not_mem_atomKinds_iff {language : Language} {kind : Kind}
    (hmakes : language.makes kind = true) (h : indivisible kind = true) :
    kind ∉ language.atomKinds ↔
      language = .python ∧ kind = .braceEscape ∨ language = .java ∧ kind = .interpolation := by
  cases kind with
  | escape | braceEscape | interpolation => cases language <;> revert hmakes <;> decide
  | _ => cases h

theorem truncation_splits_node_iff {language : Language} {text content : List Char} {limit : Nat}
    {t n : Tree} {l : Literal} {c : Cut} (hbuilt : ∀ x ∈ t.preorder, Built language.makes x)
    (hl : literal? language text t = some l) (hc : l.truncation? text limit = some c)
    (hcontent : Text.slice? text l.content = some content) (hn : n ∈ t.descendants)
    (hkind : indivisible n.kind = true) :
    StrictlyInside c.span.start n.span ↔
      (language = .python ∧ n.kind = .braceEscape ∨ language = .java ∧ n.kind = .interpolation) ∧
      StrictlyInside (l.limitOffset limit content) n.span ∧
      ∀ a ∈ l.atoms, StrictlyInside (l.limitOffset limit content) a → n.start < a.start := by
  have hliteral := (literal?_eq_some_iff.mp hl).2
  have hw : t.WellNested :=
    (hbuilt t (Tree.self_mem_preorder t)).nested (literalOf?_hasError hliteral)
  have hbelow : ∀ x ∈ t.descendants, Built language.makes x := fun x hx =>
    hbuilt x (Tree.mem_preorder.mpr (.inr hx))
  obtain ⟨content', hcontent', -, rfl⟩ := Literal.truncation?_eq_some_iff.mp hc
  obtain rfl : content = content' := Option.some.inj (hcontent.symm.trans hcontent')
  rw [literalOf?_atoms hliteral, ← not_mem_atomKinds_iff (hbelow n hn).kind hkind]
  exact pullBack_splits_iff hw (fun x hx => (hbelow x hx).leaf) hn (named_of_indivisible hkind) _

/-- A cut in a literal splits an escape or an interpolation exactly where it is of a kind that the
language does not count among the atoms, the characters that may stay end inside it, and no atom
around that place begins before it. This is so for every tree that is built as those of the
language, and the trees that are read are. -/
theorem truncation_splits_iff (language : Language) (text : List Char) (limit : Nat) :
    (∀ x ∈ (language.tree text).preorder, Built language.makes x) ∧
    ∀ (tree t n : Tree) (l : Literal) (c : Cut) (content : List Char),
      (∀ x ∈ tree.preorder, Built language.makes x) → t ∈ tree.preorder →
      literal? language text t = some l → l.truncation? text limit = some c →
      Text.slice? text l.content = some content → n ∈ t.descendants → indivisible n.kind = true →
      (StrictlyInside c.span.start n.span ↔
        (language = .python ∧ n.kind = .braceEscape ∨
          language = .java ∧ n.kind = .interpolation) ∧
        StrictlyInside (l.limitOffset limit content) n.span ∧
        ∀ a ∈ l.atoms, StrictlyInside (l.limitOffset limit content) a → n.start < a.start) := by
  refine ⟨language.tree_built text, ?_⟩
  intro tree t n l c content hbuilt ht hl hc hcontent hn hkind
  have hbelow : ∀ x ∈ t.preorder, Built language.makes x := fun x hx =>
    hbuilt x (Tree.mem_preorder_trans hx ht)
  exact truncation_splits_node_iff hbelow hl hc hcontent hn hkind

def expressionInString : List Char := "class A \x7b String s = \"a\\\x7bbc\x7dd\"; \x7d".toList

theorem truncation_splits_expressionInString :
    ∃ t ∈ (Language.tree .java expressionInString).preorder,
      ∃ l ∈ literal? .java expressionInString t, ∃ c ∈ l.truncation? expressionInString 3,
      ∃ n ∈ t.descendants, n.kind = .interpolation ∧ StrictlyInside c.span.start n.span := by
  have h : ∃ t ∈ (Language.tree .java expressionInString).preorder,
      ∃ l ∈ literal? .java expressionInString t, ∃ c ∈ l.truncation? expressionInString 3,
      ∃ content ∈ Text.slice? expressionInString l.content, ∃ n ∈ t.descendants,
        n.kind = .interpolation ∧ StrictlyInside (l.limitOffset 3 content) n.span ∧
        ∀ a ∈ l.atoms, StrictlyInside (l.limitOffset 3 content) a → n.start < a.start := by
    decide +kernel
  obtain ⟨t, ht, l, hl, c, hc, content, hcontent, n, hn, hkind, hin, hall⟩ := h
  refine ⟨t, ht, l, hl, c, hc, n, hn, hkind, ?_⟩
  obtain ⟨hbuilt, hiff⟩ := truncation_splits_iff .java expressionInString 3
  exact (hiff _ t n l c content hbuilt ht hl hc hcontent hn (by rw [hkind]; rfl)).mpr
    ⟨.inr ⟨rfl, hkind⟩, hin, hall⟩

def doubledBrace : List Char := "x = f\"a\x7b\x7bb\"".toList

theorem truncation_splits_doubledBrace :
    (∃ t ∈ (Language.tree .python doubledBrace).preorder, ∃ l ∈ literal? .python doubledBrace t,
      ∃ c ∈ l.truncation? doubledBrace 2, ∃ n ∈ t.descendants,
        n.kind = .braceEscape ∧ StrictlyInside c.span.start n.span) ∧
    (Abridge.source .python "a.py".toList doubledBrace ⟨2, true⟩).toOption =
      some "x = f\"a\x7b...\"".toList := by
  decide +kernel

end Synopsis.Outline
