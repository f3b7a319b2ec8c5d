import Synopsis.Proofs.Outlining
import Synopsis.Proofs.Syntax.Places

/-!
# The form of a literal

A literal is taken from a node that has no fault and room for its delimiters, so its content lies
between its ends. Its atoms are found by going down from the node through named nodes and stopping
at the first node of an atom's kind on each way: they come one after another, and whatever has such
a kind lies in exactly one of them.
-/

namespace Synopsis

open Syntax Synopsis.Span

namespace Syntax.Tree

/-- A way down from a node, with the nodes that it passes through. -/
inductive Route : Tree → List Tree → Tree → Prop
  | child {t n : Tree} (h : n ∈ t.children) : Route t [] n
  | down {t c n : Tree} {between : List Tree} (h : c ∈ t.children) (hr : Route c between n) :
      Route t (c :: between) n

theorem Route.mem_descendants {t n : Tree} {between : List Tree} (h : Route t between n) :
    n ∈ t.descendants := by
  induction h with
  | child h => exact mem_descendants_of_mem_children h
  | down h _ ih => exact Tree.mem_descendants.mpr ⟨_, h, mem_preorder.mpr (.inr ih)⟩

end Syntax.Tree

theorem Span.InOrder.countP_holds {spans : List Span} (h : InOrder spans) {a s : Span}
    (ha : a ∈ spans) (has : a.Holds s) (hs : s.start < s.stop) :
    spans.countP (fun b => b.Holds s) = 1 := by
  induction h with
  | nil => cases ha
  | @cons b spans hb _ ih =>
    by_cases hbs : b.Holds s
    · -- every later span begins behind the first, so it cannot hold what the first one holds
      have hnone : spans.countP (fun c => c.Holds s) = 0 := by
        rw [List.countP_eq_zero]
        intro c hc hcs
        have hle := hb c hc
        have hstart := (of_decide_eq_true hcs).1
        have hstop := hbs.2
        omega
      rw [List.countP_cons_of_pos (by simpa using hbs), hnone]
    · rw [List.countP_cons_of_neg (by simpa using hbs)]
      rcases List.mem_cons.mp ha with rfl | ha
      · exact absurd has hbs
      · exact ih ha

namespace Outline

variable {kinds : List Kind} {t : Tree}

theorem mem_atomsBelow_of_mem_atomsOf {c : Tree} (hc : c ∈ t.children) {a : Span}
    (ha : a ∈ atomsOf kinds c) : a ∈ atomsBelow kinds t := by
  rw [atomsBelow_eq_flatMap, List.mem_flatMap]
  exact ⟨c, hc, ha⟩

theorem exists_route_of_mem_atomsBelow {a : Span} (ha : a ∈ atomsBelow kinds t) :
    ∃ between n, Tree.Route t between n ∧ n.kind ∈ kinds ∧ (∀ m ∈ between, m.kind ∉ kinds) ∧
      a = n.span := by
  induction t using Tree.children_induction with
  | step t ih =>
    rw [atomsBelow_eq_flatMap, List.mem_flatMap] at ha
    obtain ⟨c, hc, ha⟩ := ha
    by_cases hk : c.kind ∈ kinds
    · refine ⟨[], c, .child hc, hk, by simp, ?_⟩
      unfold atomsOf at ha
      split at ha
      case isFalse => cases ha
      case isTrue => simpa [hk] using ha
    · rcases mem_atomsOf ha with ⟨hk', -⟩ | ha
      · exact absurd hk' hk
      · obtain ⟨between, n, hr, hn, hbetween, hspan⟩ := ih c hc ha
        refine ⟨c :: between, n, .down hc hr, hn, ?_, hspan⟩
        exact List.forall_mem_cons.mpr ⟨hk, hbetween⟩

theorem exists_atom_of_route {n : Tree} {between : List Tree} (hr : Tree.Route t between n)
    (hw : t.WellNested) (hnamed : ∀ m ∈ between, m.named = true) (hn : n.named = true)
    (hk : n.kind ∈ kinds) : ∃ a ∈ atomsBelow kinds t, a.Holds n.span := by
  induction hr with
  | @child t n hc =>
    refine ⟨n.span, mem_atomsBelow_of_mem_atomsOf hc ?_, Holds.refl _⟩
    simp [atomsOf, hn, hk]
  | @down t c n between hc hr ih =>
    obtain ⟨hcn, hbetween⟩ := List.forall_mem_cons.mp hnamed
    have hcw := (hw.child hc).2
    by_cases hck : c.kind ∈ kinds
    · refine ⟨c.span, mem_atomsBelow_of_mem_atomsOf hc ?_,
        hcw.holds_of_mem_descendants hr.mem_descendants⟩
      simp [atomsOf, hcn, hck]
    · obtain ⟨a, ha, hholds⟩ := ih hcw hbetween hn hk
      refine ⟨a, mem_atomsBelow_of_mem_atomsOf hc ?_, hholds⟩
      simp [atomsOf, hcn, hck, ha]

/-- The literal of a node has a content between its ends, and atoms that follow one another in it.
Each atom is the outermost node of an atom's kind on some way down, and each node of such a kind
lies in one atom. -/
structure Recognised (kinds : List Kind) (t : Tree) (l : Literal) : Prop where
  span : l.span = t.span
  closing : l.content.stop + l.quote = l.span.stop
  start_le : l.span.start ≤ l.content.start
  content_le : l.content.start ≤ l.content.stop
  stop_le : l.content.stop ≤ l.span.stop
  inOrder : InOrder l.atoms
  inside : ∀ a ∈ l.atoms, a.start ≤ a.stop ∧ l.span.Holds a
  outermost : ∀ a ∈ l.atoms, ∃ between n, Tree.Route t between n ∧ n.kind ∈ kinds ∧
    (∀ m ∈ between, m.kind ∉ kinds) ∧ a = n.span
  covered : ∀ between n, Tree.Route t between n → (∀ m ∈ between, m.named = true) →
    n.named = true → n.kind ∈ kinds → n.start < n.stop →
    l.atoms.countP (fun a => a.Holds n.span) = 1

theorem delimited?_recognised {lead quote : Nat} {l : Literal} (hw : t.WellNested)
    (h : delimited? kinds t lead quote = some l) : Recognised kinds t l := by
  obtain ⟨-, hle, rfl⟩ := delimited?_eq_some_iff.mp h
  have hts := hw.start_le_stop
  have hord : InOrder (atomsBelow kinds t) := atomsBelow_inOrder hw
  refine
    { span := rfl
      closing := ?_
      start_le := Nat.le_trans (Nat.le_add_right _ _) (Nat.le_add_right _ _)
      content_le := ?_
      stop_le := Nat.sub_le _ _
      inOrder := hord
      inside := ?_
      outermost := fun a ha => exists_route_of_mem_atomsBelow ha
      covered := ?_ }
  · change t.stop - quote + quote = t.stop
    omega
  · change t.start + lead + quote ≤ t.stop - quote
    omega
  · intro a ha
    obtain ⟨n, hn, -, rfl⟩ := mem_atomsBelow ha
    have hnw := hw.of_mem_preorder (Tree.mem_preorder.mpr (.inr hn))
    exact ⟨hnw.2.start_le_stop, hnw.1⟩
  · intro between n hr hnamed hn hk hne
    obtain ⟨a, ha, hholds⟩ := exists_atom_of_route hr hw hnamed hn hk
    exact hord.countP_holds ha hholds hne

variable {language : Language} {text : List Char} {tree : Tree}

/-- In a well nested tree, a node that gives a literal gives one of the right form. A node with a
fault in it gives none, nor does one that is too short for its delimiters; all others with
delimiters do. -/
theorem literals_recognised (hw : tree.WellNested) (ht : t ∈ tree.preorder) :
    (∀ l, literalOf? language text t = some l → Recognised language.atomKinds t l) ∧
    ((∃ x ∈ t.preorder, x.faulty = true) → literalOf? language text t = none) ∧
    ∀ lead quote, Delimits language text t lead quote →
      (t.stop - t.start < lead + 2 * quote → literalOf? language text t = none) ∧
      (lead + 2 * quote ≤ t.stop - t.start → (∀ x ∈ t.preorder, x.faulty = false) →
        ∃ l, literalOf? language text t = some l ∧ l.lead = lead ∧ l.quote = quote) := by
  refine ⟨?_, ?_, ?_⟩
  · intro l hl
    obtain ⟨lead, quote, -, hd⟩ := literalOf?_delimited hl
    exact delimited?_recognised (hw.of_mem_preorder ht).2 hd
  · intro hfault
    rw [Option.eq_none_iff_forall_ne_some]
    intro l hl
    have herror := literalOf?_hasError hl
    rw [Tree.hasError_iff.mpr hfault] at herror
    cases herror
  · intro lead quote hd
    rw [hd.literalOf?_eq]
    constructor
    · intro hlt
      rw [Option.eq_none_iff_forall_ne_some]
      intro l hl
      have hle := (delimited?_eq_some_iff.mp hl).2.1
      omega
    · intro hle hnone
      have herror : t.hasError = false := by
        rw [← Bool.not_eq_true, Tree.hasError_iff]
        rintro ⟨x, hx, hfault⟩
        rw [hnone x hx] at hfault
        cases hfault
      exact ⟨_, delimited?_eq_some_iff.mpr ⟨herror, hle, rfl⟩, rfl, rfl⟩

def nestedEscape : List Char := "x = `$\x7bg(\"\\n\")\x7d\\t`".toList

def nestedEscapeString : Tree :=
  .node .string ⟨9, 13⟩ false [.node .escape ⟨10, 12⟩ false []]

def nestedEscapeTemplate : Tree :=
  .node .template ⟨4, 18⟩ false
    [.node .interpolation ⟨5, 15⟩ false [nestedEscapeString], .node .escape ⟨15, 17⟩ false []]

theorem literals_recognised_nestedEscape :
    ∃ l, literalOf? .javaScript nestedEscape nestedEscapeTemplate = some l ∧
      l.atoms = [⟨5, 15⟩, ⟨15, 17⟩] ∧
      Recognised (Language.atomKinds .javaScript) nestedEscapeTemplate l ∧
      l.atoms.countP (fun a => a.Holds ⟨10, 12⟩) = 1 := by
  have hw : Tree.WellNested (.node .file ⟨0, 18⟩ false [nestedEscapeTemplate]) := by decide +kernel
  have ht : nestedEscapeTemplate ∈
      Tree.preorder (.node .file ⟨0, 18⟩ false [nestedEscapeTemplate]) :=
    List.mem_cons_of_mem _ List.mem_cons_self
  have hl : literalOf? .javaScript nestedEscape nestedEscapeTemplate =
      some ⟨⟨4, 18⟩, 0, 1, [⟨5, 15⟩, ⟨15, 17⟩]⟩ := rfl
  have hform := (@literals_recognised _ .javaScript nestedEscape _ hw ht).1 _ hl
  refine ⟨_, hl, rfl, hform, ?_⟩
  have hroute : Tree.Route nestedEscapeTemplate
      [.node .interpolation ⟨5, 15⟩ false [nestedEscapeString], nestedEscapeString]
      (.node .escape ⟨10, 12⟩ false []) :=
    .down List.mem_cons_self (.down List.mem_cons_self (.child List.mem_cons_self))
  exact hform.covered _ _ hroute (by decide) rfl (by decide) (by decide)

end Outline
end Synopsis
