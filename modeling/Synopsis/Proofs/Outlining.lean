import Synopsis.Outline
import Synopsis.Proofs.Syntax.Nesting
import Synopsis.Proofs.Text.Boundary

/-!
# What an outline takes from a tree

The bodies and literals of an outline stand for nodes of the tree. This module says where their
spans lie: the atoms of a literal follow one another below it, a body between braces takes nothing
but spaces and tabs from before it, and a body behind a colon begins at the last colon before its
block or where a statement of the block ends.
-/

namespace Synopsis.Outline

open Syntax Synopsis.Span

section Atoms

variable {kinds : List Kind}

def atomsOf (kinds : List Kind) (t : Tree) : List Span :=
  if t.named then if kinds.contains t.kind then [t.span] else atomsBelow kinds t else []

theorem atomsAmong_eq_flatMap (ts : List Tree) :
    atomsAmong kinds ts = ts.flatMap (atomsOf kinds) := by
  induction ts with
  | nil => rfl
  | cons t ts ih => rw [atomsAmong, ih, List.flatMap_cons, atomsOf]

theorem atomsBelow_eq_flatMap (t : Tree) :
    atomsBelow kinds t = t.children.flatMap (atomsOf kinds) := by
  cases t with
  | node => exact atomsAmong_eq_flatMap _

theorem mem_atomsOf {t : Tree} {a : Span} (h : a ∈ atomsOf kinds t) :
    (t.kind ∈ kinds ∧ a = t.span) ∨ a ∈ atomsBelow kinds t := by
  unfold atomsOf at h
  split at h
  case isFalse => cases h
  case isTrue =>
    split at h
    case isTrue hk => exact .inl ⟨List.contains_iff_mem.mp hk, List.mem_singleton.mp h⟩
    case isFalse => exact .inr h

theorem mem_atomsBelow {t : Tree} {a : Span} (h : a ∈ atomsBelow kinds t) :
    ∃ n ∈ t.descendants, n.kind ∈ kinds ∧ a = n.span := by
  induction t using Tree.children_induction with
  | step t ih =>
    rw [atomsBelow_eq_flatMap, List.mem_flatMap] at h
    obtain ⟨c, hc, ha⟩ := h
    rcases mem_atomsOf ha with ⟨hk, hspan⟩ | ha
    · exact ⟨c, Tree.mem_descendants_of_mem_children hc, hk, hspan⟩
    · obtain ⟨n, hn, hk, hspan⟩ := ih c hc ha
      exact ⟨n, Tree.mem_descendants.mpr ⟨c, hc, Tree.mem_preorder.mpr (.inr hn)⟩, hk, hspan⟩

theorem holds_of_mem_atomsOf {t : Tree} (hn : t.WellNested) {a : Span} (h : a ∈ atomsOf kinds t) :
    t.span.Holds a := by
  rcases mem_atomsOf h with ⟨-, rfl⟩ | h
  · exact Holds.refl _
  · obtain ⟨n, hmem, -, rfl⟩ := mem_atomsBelow h
    exact hn.holds_of_mem_descendants hmem

theorem atomsBelow_inOrder {t : Tree} (hn : t.WellNested) : InOrder (atomsBelow kinds t) := by
  induction t using Tree.children_induction with
  | step t ih =>
    rw [atomsBelow_eq_flatMap, InOrder, List.pairwise_flatMap]
    refine ⟨fun c hc => ?_, ?_⟩
    · unfold atomsOf
      split
      case isFalse => exact .nil
      case isTrue =>
        split
        case isTrue => exact List.pairwise_singleton _ _
        case isFalse => exact ih c hc (hn.child hc).2
    · refine hn.nestedWithin.inOrder.imp_of_mem ?_
      intro c d hc hd hcd a ha b hb
      have hca := holds_of_mem_atomsOf (hn.child hc).2 ha
      have hdb := holds_of_mem_atomsOf (hn.child hd).2 hb
      exact Nat.le_trans hca.2 (Nat.le_trans hcd hdb.1)

theorem exists_atom_holds {t n : Tree} (hn : t.WellNested)
    (hleaf : ∀ x ∈ t.descendants, x.named = false → x.children = []) (hmem : n ∈ t.descendants)
    (hnamed : n.named = true) (hkind : n.kind ∈ kinds) :
    ∃ a ∈ atomsBelow kinds t, a.Holds n.span := by
  induction t using Tree.children_induction with
  | step t ih =>
    obtain ⟨c, hc, hnc⟩ := Tree.mem_descendants.mp hmem
    have hcn := (hn.child hc).2
    have hcnamed : c.named = true := by
      rcases Tree.mem_preorder.mp hnc with rfl | hd
      · exact hnamed
      · obtain ⟨d, hd, -⟩ := Tree.mem_descendants.mp hd
        cases hname : c.named with
        | true => rfl
        | false =>
          rw [hleaf c (Tree.mem_descendants_of_mem_children hc) hname] at hd
          cases hd
    have hmemc : ∀ a ∈ atomsOf kinds c, a ∈ atomsBelow kinds t := by
      intro a ha
      rw [atomsBelow_eq_flatMap, List.mem_flatMap]
      exact ⟨c, hc, ha⟩
    by_cases hck : c.kind ∈ kinds
    · refine ⟨c.span, hmemc _ ?_, (hcn.of_mem_preorder hnc).1⟩
      simp [atomsOf, hcnamed, hck]
    · have hd : n ∈ c.descendants := by
        rcases Tree.mem_preorder.mp hnc with rfl | hd
        · exact absurd hkind hck
        · exact hd
      have hleafc : ∀ x ∈ c.descendants, x.named = false → x.children = [] := fun x hx =>
        hleaf x (Tree.mem_descendants.mpr ⟨c, hc, Tree.mem_preorder.mpr (.inr hx)⟩)
      obtain ⟨a, ha, hholds⟩ := ih c hc hcn hleafc hd
      refine ⟨a, hmemc _ ?_, hholds⟩
      simp [atomsOf, hcnamed, hck, ha]

end Atoms

def literal? (language : Language) (text : List Char) (t : Tree) : Option Literal :=
  if language.shortens t.kind then literalOf? language text t else none

section Literals

variable {language : Language} {text : List Char} {t : Tree} {l : Literal}

theorem delimited?_eq_some_iff {kinds : List Kind} {lead quote : Nat} :
    delimited? kinds t lead quote = some l ↔
      t.hasError = false ∧ lead + 2 * quote ≤ t.stop - t.start ∧
        l = ⟨t.span, lead, quote, atomsBelow kinds t⟩ := by
  unfold delimited?
  split
  case isTrue h => simp [h]
  case isFalse h =>
    split
    case isTrue hlt =>
      constructor
      · intro h
        cases h
      · rintro ⟨-, hle, -⟩
        omega
    case isFalse hge =>
      have hle : lead + 2 * quote ≤ t.stop - t.start := by omega
      simp [h, hle, eq_comm]

def Delimits (language : Language) (text : List Char) (t : Tree) (lead quote : Nat) : Prop :=
  match language with
  | .go | .javaScript | .typeScript | .tsx => lead = 0 ∧ quote = 1
  | .java => ∃ source, Text.slice? text t.span = some source ∧ lead = 0 ∧
      quote = if source.take 3 = ['"', '"', '"'] then 3 else 1
  | .python => childWidth? .stringStart t = some (lead + quote) ∧
      childWidth? .stringEnd t = some quote ∧ 0 < quote
  | .rust => ∃ source, Text.slice? text t.span = some source ∧
      lead = (source.takeWhile Char.isAlpha).length ∧
      quote =
        if t.kind = .rawString then ((source.drop lead).takeWhile (· == '#')).length + 1 else 1

theorem Delimits.quote_pos {lead quote : Nat} (h : Delimits language text t lead quote) :
    0 < quote := by
  cases language with
  | go | javaScript | typeScript | tsx => exact h.2 ▸ Nat.one_pos
  | java =>
    obtain ⟨source, -, -, rfl⟩ := h
    split <;> decide
  | python => exact h.2.2
  | rust =>
    obtain ⟨source, -, -, rfl⟩ := h
    split <;> omega

theorem Delimits.literalOf?_eq {lead quote : Nat} (h : Delimits language text t lead quote) :
    literalOf? language text t = delimited? language.atomKinds t lead quote := by
  cases language with
  | go | javaScript | typeScript | tsx =>
    obtain ⟨rfl, rfl⟩ := h
    rfl
  | java =>
    obtain ⟨source, hsource, rfl, rfl⟩ := h
    simp only [literalOf?, hsource, Option.bind_some, beq_iff_eq]
  | python =>
    obtain ⟨hopening, hclosing, hpos⟩ := h
    have hwide : ¬(quote = 0 ∨ lead + quote < quote) := by omega
    simp only [literalOf?, hopening, hclosing, Option.bind_some, if_neg hwide, Nat.add_sub_cancel]
  | rust =>
    obtain ⟨source, hsource, rfl, rfl⟩ := h
    simp only [literalOf?, hsource, Option.bind_some, beq_iff_eq]

theorem exists_delimits (h : literalOf? language text t = some l) :
    ∃ lead quote, Delimits language text t lead quote := by
  cases language with
  | go | javaScript | typeScript | tsx => exact ⟨0, 1, rfl, rfl⟩
  | java =>
    obtain ⟨source, hsource, -⟩ := Option.bind_eq_some_iff.mp h
    exact ⟨_, _, source, hsource, rfl, rfl⟩
  | python =>
    obtain ⟨opening, hopening, h⟩ := Option.bind_eq_some_iff.mp h
    obtain ⟨closing, hclosing, h⟩ := Option.bind_eq_some_iff.mp h
    split at h
    case isTrue => cases h
    case isFalse hwide =>
      have hsum : opening = opening - closing + closing := by omega
      exact ⟨opening - closing, closing, hsum ▸ hopening, hclosing, by omega⟩
  | rust =>
    obtain ⟨source, hsource, -⟩ := Option.bind_eq_some_iff.mp h
    exact ⟨_, _, source, hsource, rfl, rfl⟩

theorem literalOf?_delimited (h : literalOf? language text t = some l) :
    ∃ lead quote, 0 < quote ∧ delimited? language.atomKinds t lead quote = some l := by
  obtain ⟨lead, quote, hd⟩ := exists_delimits h
  exact ⟨lead, quote, hd.quote_pos, hd.literalOf?_eq ▸ h⟩

theorem literalOf?_span (h : literalOf? language text t = some l) : l.span = t.span := by
  obtain ⟨lead, quote, -, hd⟩ := literalOf?_delimited h
  obtain ⟨-, -, rfl⟩ := delimited?_eq_some_iff.mp hd
  rfl

theorem literalOf?_atoms (h : literalOf? language text t = some l) :
    l.atoms = atomsBelow language.atomKinds t := by
  obtain ⟨lead, quote, -, hd⟩ := literalOf?_delimited h
  obtain ⟨-, -, rfl⟩ := delimited?_eq_some_iff.mp hd
  rfl

theorem literalOf?_hasError (h : literalOf? language text t = some l) : t.hasError = false := by
  obtain ⟨lead, quote, -, hd⟩ := literalOf?_delimited h
  exact (delimited?_eq_some_iff.mp hd).1

theorem literalOf?_content (h : literalOf? language text t = some l) :
    t.start < l.content.start ∧ l.content.start ≤ l.content.stop ∧ l.content.stop < t.stop := by
  obtain ⟨lead, quote, hq, hd⟩ := literalOf?_delimited h
  obtain ⟨-, hle, rfl⟩ := delimited?_eq_some_iff.mp hd
  simp only [Literal.content]
  change t.start < t.start + lead + quote ∧ t.start + lead + quote ≤ t.stop - quote ∧
    t.stop - quote < t.stop
  omega

theorem literal?_eq_some_iff : literal? language text t = some l ↔
    language.shortens t.kind = true ∧ literalOf? language text t = some l := by
  simp [literal?]

end Literals

def BlankAt (text : List Char) (offset : Nat) : Prop :=
  (Text.encode text)[offset]? = some 0x20 ∨ (Text.encode text)[offset]? = some 0x09

instance (text : List Char) (offset : Nat) : Decidable (BlankAt text offset) := instDecidableOr

section Braces

variable {text : List Char} {block : Tree}

theorem encode_of_isSpaceOrTab {c : Char} (h : Text.isSpaceOrTab c = true) :
    String.utf8EncodeChar c = [0x20] ∨ String.utf8EncodeChar c = [0x09] := by
  simp only [Text.isSpaceOrTab, Bool.or_eq_true, beq_iff_eq] at h
  rcases h with rfl | rfl
  · exact .inl rfl
  · exact .inr rfl

theorem byteLength_padding {padding : List Char}
    (h : ∀ c ∈ padding, Text.isSpaceOrTab c = true) : Text.byteLength padding = padding.length := by
  induction padding with
  | nil => rfl
  | cons c padding ih =>
    have hc : c.utf8Size = 1 := by
      rw [← String.length_utf8EncodeChar]
      rcases encode_of_isSpaceOrTab (h c (by simp)) with he | he <;> rw [he] <;> rfl
    rw [Text.byteLength_cons, hc, ih fun d hd => h d (by simp [hd]), List.length_cons]
    omega

theorem mem_encode_padding {padding : List Char} (h : ∀ c ∈ padding, Text.isSpaceOrTab c = true)
    {b : UInt8} (hb : b ∈ Text.encode padding) : b = 0x20 ∨ b = 0x09 := by
  obtain ⟨c, hc, hbc⟩ := List.mem_flatMap.mp hb
  rcases encode_of_isSpaceOrTab (h c hc) with he | he
  · exact .inl (by simpa [he] using hbc)
  · exact .inr (by simpa [he] using hbc)

theorem blankAt_padding {front padding after : List Char}
    (h : ∀ c ∈ padding, Text.isSpaceOrTab c = true) {offset : Nat}
    (h1 : Text.byteLength front ≤ offset)
    (h2 : offset < Text.byteLength front + Text.byteLength padding) :
    BlankAt (front ++ padding ++ after) offset := by
  have hlen := Text.length_encode front
  have hpad := Text.length_encode padding
  have hlt : offset - (Text.encode front).length < (Text.encode padding).length := by omega
  have hget : (Text.encode (front ++ padding ++ after))[offset]? =
      (Text.encode padding)[offset - (Text.encode front).length]? := by
    rw [List.append_assoc, Text.encode_append, Text.encode_append,
      List.getElem?_append_right (by omega), List.getElem?_append_left hlt]
  rw [BlankAt, hget, List.getElem?_eq_getElem hlt]
  rcases mem_encode_padding h (List.getElem_mem hlt) with he | he
  · exact .inl (congrArg some he)
  · exact .inr (congrArg some he)

theorem bracedBody_cutStart_le : (bracedBody text block).cutStart ≤ block.start :=
  Nat.sub_le _ _

theorem bracedBody_cutStart_congr {other : Tree} (h : block.start = other.start) :
    (bracedBody text block).cutStart = (bracedBody text other).cutStart := by
  simp only [bracedBody, h]

theorem bracedBody_blankAt {offset : Nat} (h1 : (bracedBody text block).cutStart ≤ offset)
    (h2 : offset < block.start) : BlankAt text offset := by
  cases hb : Text.takeBytes? block.start text with
  | none =>
    simp only [bracedBody, hb, Option.getD_none, List.reverse_nil, List.takeWhile_nil,
      List.length_nil, Nat.sub_zero] at h1
    omega
  | some before =>
    obtain ⟨after, rfl, hlen⟩ := Text.takeBytes?_eq_some_iff.mp hb
    have hall : ∀ c ∈ (before.reverse.takeWhile Text.isSpaceOrTab).reverse,
        Text.isSpaceOrTab c = true := by
      intro c hc
      exact List.all_eq_true.mp List.all_takeWhile c (List.mem_reverse.mp hc)
    have hsplit : before = (before.reverse.dropWhile Text.isSpaceOrTab).reverse ++
        (before.reverse.takeWhile Text.isSpaceOrTab).reverse := by
      rw [← List.reverse_append, List.takeWhile_append_dropWhile, List.reverse_reverse]
    have hpad := byteLength_padding hall
    have hsum := congrArg Text.byteLength hsplit
    rw [Text.byteLength_append, hlen, hpad, List.length_reverse] at hsum
    simp only [bracedBody, hb, Option.getD_some] at h1
    rw [hsplit]
    refine blankAt_padding hall (by omega) ?_
    rw [hpad, List.length_reverse]
    omega

end Braces

/-- A body behind a colon: the colon is the last one before the block, and the cut begins there or
where a statement of the block ends. -/
structure Indented (callable block colon : Tree) (b : Body) : Prop where
  mem : colon ∈ callable.children
  kind : colon.kind = .token ":"
  stop_le : colon.stop ≤ block.start
  last : ∀ c ∈ callable.children, c.kind = .token ":" → c.stop ≤ block.start → c.stop ≤ colon.stop
  span : b.span = ⟨colon.stop, block.stop⟩
  cutStart : b.cutStart = colon.stop ∨ ∃ s ∈ block.children, b.cutStart = s.stop

theorem indentedBody?_indented {text : List Char} {callable block : Tree} {b : Body}
    (hn : callable.WellNested) (h : indentedBody? text callable block = some b) :
    ∃ colon, Indented callable block colon b := by
  obtain ⟨colon, hlast, hb⟩ := Option.map_eq_some_iff.mp h
  obtain ⟨earlier, hcolons⟩ := List.getLast?_eq_some_iff.mp hlast
  have hmem : colon ∈ callable.children.filter
      fun c => c.kind == .token ":" && c.stop ≤ block.start := by
    simp [hcolons]
  simp only [List.mem_filter, Bool.and_eq_true, beq_iff_eq, decide_eq_true_eq] at hmem
  obtain ⟨hchild, hkind, hle⟩ := hmem
  refine ⟨colon, hchild, hkind, hle, ?_, by rw [← hb], ?_⟩
  · intro c hc hck hcs
    have hcmem : c ∈ earlier ++ [colon] := by
      rw [← hcolons]
      simp [hc, hck, hcs]
    rcases List.mem_append.mp hcmem with hc' | hc'
    · -- children are in order, so a colon that is listed earlier ends earlier
      have hord := hn.nestedWithin.inOrder.sublist
        (List.filter_sublist (p := fun c => c.kind == .token ":" && c.stop ≤ block.start))
      rw [hcolons] at hord
      have hbefore := (List.pairwise_append.mp hord).2.2 c hc' colon (by simp)
      exact Nat.le_trans hbefore (hn.child hchild).2.start_le_stop
    · exact Nat.le_of_eq (congrArg Tree.stop (List.mem_singleton.mp hc'))
  · rw [← hb]
    cases hfirst : block.namedChildren.find? (·.kind != .comment) with
    | none => exact .inl rfl
    | some s =>
      by_cases hdoc : isDocstring s = true
      · refine .inr ⟨s, ?_, by simp [hdoc]⟩
        exact (List.mem_filter.mp (List.mem_of_find?_eq_some hfirst)).1
      · exact .inl (by simp [hdoc])

section Members

variable {language : Language} {text : List Char} {tree : Tree}

theorem mem_bodiesOf {t : Tree} {b : Body} : b ∈ bodiesOf language text t ↔
    language.elides t.kind = true ∧ ∃ block ∈ t.children, block.kind = .block ∧
      (language = .python ∧ indentedBody? text t block = some b ∨
        language ≠ .python ∧ b = bracedBody text block) := by
  unfold bodiesOf
  split
  case isFalse helides => simp [helides]
  case isTrue helides =>
    simp only [helides, List.mem_filterMap, List.mem_filter, beq_iff_eq, and_assoc, true_and]
    refine exists_congr fun block => and_congr_right fun _ => and_congr_right fun _ => ?_
    cases language <;> simp [eq_comm]

theorem mem_bodies {b : Body} : b ∈ (ofTree language text tree).bodies ↔
    ∃ t ∈ tree.preorder, b ∈ bodiesOf language text t := List.mem_flatMap

theorem mem_literals {l : Literal} : l ∈ (ofTree language text tree).literals ↔
    ∃ t ∈ tree.preorder, language.shortens t.kind = true ∧ literalOf? language text t = some l := by
  simp [ofTree, and_assoc]

end Members

end Synopsis.Outline
