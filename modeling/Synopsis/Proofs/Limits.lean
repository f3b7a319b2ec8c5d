import Synopsis.Proofs.Lexeme

/-!
# How much of a literal stays

A literal is cut at the last place of its content that has no more characters before it than may
stay and that splits no atom. Seen as a sequence of pieces, single characters and whole atoms, the
content keeps as many pieces as there is room for. Nothing is asked of the order in which the atoms
are listed: no two of them share a byte, so at most one of them is in the way of a cut.
-/

namespace Synopsis.Literal

open Synopsis.Span Lexeme

structure Atomic (text : List Char) (l : Literal) : Prop where
  apart : l.atoms.Pairwise Apart
  nonempty : ∀ a ∈ l.atoms, a.start < a.stop
  inside : ∀ a ∈ l.atoms, l.content.Holds a
  boundary : ∀ a ∈ l.atoms, Text.IsBoundary text a.start ∧ Text.IsBoundary text a.stop

/-- The content may end at an offset: no more characters come before it than the limit says, and no
atom is split. -/
structure MayEnd (l : Literal) (content : List Char) (limit offset : Nat) : Prop where
  place : ∃ front back, content = front ++ back ∧
    offset = l.content.start + Text.byteLength front ∧ front.length ≤ limit
  whole : ∀ a ∈ l.atoms, ¬StrictlyInside offset a

structure Views (l : Literal) (content : List Char) (items : List Piece) : Prop where
  spelled : spell items = content
  atoms : (atomSpans l.content.start items).Perm l.atoms

structure Longest (limit : Nat) (items kept : List Piece) : Prop where
  isPrefix : kept <+: items
  fits : (spell kept).length ≤ limit
  longest : ∀ front, front <+: items → (spell front).length ≤ limit → front <+: kept

theorem longest_keep (limit : Nat) (items : List Piece) :
    Longest limit items (keep limit items) := by
  induction items generalizing limit with
  | nil => exact ⟨List.prefix_rfl, Nat.zero_le _, fun front h _ => h⟩
  | cons p ps ih =>
    by_cases hp : p.text.length ≤ limit
    · obtain ⟨hpre, hfits, hlongest⟩ := ih (limit - p.text.length)
      simp only [keep, if_pos hp]
      refine ⟨List.cons_prefix_cons.mpr ⟨rfl, hpre⟩, ?_, ?_⟩
      · rw [spell_cons, List.length_append]
        omega
      · intro front hfront hlen
        cases front with
        | nil => exact List.nil_prefix
        | cons q front =>
          obtain ⟨rfl, htail⟩ := List.cons_prefix_cons.mp hfront
          rw [spell_cons, List.length_append] at hlen
          exact List.cons_prefix_cons.mpr ⟨rfl, hlongest front htail (by omega)⟩
    · simp only [keep, if_neg hp]
      refine ⟨List.nil_prefix, Nat.zero_le _, ?_⟩
      intro front hfront hlen
      cases front with
      | nil => exact List.nil_prefix
      | cons q front =>
        obtain ⟨rfl, -⟩ := List.cons_prefix_cons.mp hfront
        rw [spell_cons, List.length_append] at hlen
        omega

section Places

variable {text content : List Char} {limit offset : Nat} {l : Literal}

theorem split_of_boundary {before after : List Char}
    (hb : Text.IsBoundary (before ++ content ++ after) offset)
    (h1 : Text.byteLength before ≤ offset) (h2 : offset ≤ Text.byteLength (before ++ content)) :
    ∃ front back, content = front ++ back ∧ Text.byteLength (before ++ front) = offset := by
  obtain ⟨x, y, hxy, rfl⟩ := hb
  rw [List.append_assoc] at hxy
  obtain ⟨front, rfl, hfront⟩ := Text.append_split_of_le hxy h1
  rw [Text.byteLength_append, Text.byteLength_append] at h2
  obtain ⟨back, rfl, -⟩ := Text.append_split_of_le hfront.symm (by omega)
  exact ⟨front, back, rfl, rfl⟩

theorem byteLength_le_take {front back : List Char} (hlen : front.length ≤ limit) :
    Text.byteLength front ≤ Text.byteLength ((front ++ back).take limit) := by
  rw [List.take_append, List.take_of_length_le hlen, Text.byteLength_append]
  exact Nat.le_add_right _ _

theorem length_le_of_byteLength_lt {front back : List Char}
    (h : Text.byteLength front < Text.byteLength ((front ++ back).take limit)) :
    front.length ≤ limit := by
  by_cases hlen : front.length ≤ limit
  · exact hlen
  · have hstarts : (front ++ back).take limit = front.take limit :=
      List.take_append_of_le_length (by omega)
    have hsum := congrArg Text.byteLength (List.take_append_drop limit front)
    rw [Text.byteLength_append] at hsum
    rw [hstarts] at h
    omega

theorem Atomic.mayEnd_pullBack (h : Atomic text l)
    (hslice : Text.slice? text l.content = some content) :
    MayEnd l content limit (pullBack l.atoms (l.limitOffset limit content)) := by
  refine ⟨?_, fun a ha => pullBack_not_inside h.apart _ ha⟩
  rcases pullBack_cases l.atoms (l.limitOffset limit content) with ⟨he, -⟩ | ⟨a, ha, hin, he⟩
  · refine ⟨content.take limit, content.drop limit, (List.take_append_drop _ _).symm, he, ?_⟩
    simp only [List.length_take]
    omega
  · have hholds := h.inside a ha
    have hne := h.nonempty a ha
    obtain ⟨before, after, rfl, hbefore, hstop⟩ := Text.slice?_eq_some_iff.mp hslice
    obtain ⟨front, back, rfl, hfront⟩ := split_of_boundary (h.boundary a ha).1
      (hbefore ▸ hholds.1) (by
        rw [Text.byteLength_append, hstop]
        exact Nat.le_trans (Nat.le_of_lt hne) hholds.2)
    rw [Text.byteLength_append, hbefore] at hfront
    refine ⟨front, back, rfl, he.trans hfront.symm, ?_⟩
    have hlt := hin.1
    rw [← hfront, limitOffset] at hlt
    exact @length_le_of_byteLength_lt limit front back (by omega)

theorem MayEnd.le_pullBack (h : MayEnd l content limit offset) :
    offset ≤ pullBack l.atoms (l.limitOffset limit content) := by
  obtain ⟨front, back, rfl, hoffset, hlen⟩ := h.place
  have hle : offset ≤ l.limitOffset limit (front ++ back) := by
    have htake := @byteLength_le_take limit front back hlen
    unfold limitOffset
    omega
  rcases pullBack_cases l.atoms (l.limitOffset limit (front ++ back)) with
    ⟨he, -⟩ | ⟨a, ha, hin, he⟩
  · rw [he]
    exact hle
  · rw [he]
    apply Nat.le_of_not_lt
    intro hlt
    exact h.whole a ha ⟨hlt, Nat.lt_of_le_of_lt hle hin.2⟩

end Places

section Items

theorem atomSpans_chars (offset : Nat) (text : List Char) (items : List Piece) :
    atomSpans offset (chars text ++ items) = atomSpans (offset + Text.byteLength text) items := by
  induction text generalizing offset with
  | nil => rfl
  | cons c text ih =>
    rw [Text.byteLength_cons, ← Nat.add_assoc]
    exact ih (offset + c.utf8Size)

theorem exists_items {before content after : List Char} {atoms : List Span}
    (hord : InOrder atoms) (hne : ∀ a ∈ atoms, a.start < a.stop)
    (hin : ∀ a ∈ atoms, Text.byteLength before ≤ a.start ∧
      a.stop ≤ Text.byteLength (before ++ content))
    (hb : ∀ a ∈ atoms, Text.IsBoundary (before ++ content ++ after) a.start ∧
      Text.IsBoundary (before ++ content ++ after) a.stop) :
    ∃ items, spell items = content ∧ atomSpans (Text.byteLength before) items = atoms := by
  induction atoms generalizing before content with
  | nil =>
    refine ⟨chars content ++ [], by simp, ?_⟩
    rw [atomSpans_chars]
    rfl
  | cons a atoms ih =>
    obtain ⟨hfirst, hord⟩ := List.pairwise_cons.mp hord
    obtain ⟨hstart, hstop⟩ := hb a (by simp)
    obtain ⟨hlo, hhi⟩ := hin a (by simp)
    have hlt := hne a (by simp)
    obtain ⟨plain, rest, rfl, hplain⟩ := split_of_boundary hstart hlo (by omega)
    rw [← List.append_assoc] at hstop hhi
    obtain ⟨spelled, rest, rfl, hspelled⟩ := split_of_boundary hstop (by omega) hhi
    -- what is left of the content begins where the atom ends
    have hrest : ∀ b ∈ atoms, Text.byteLength (before ++ plain ++ spelled) ≤ b.start ∧
        b.stop ≤ Text.byteLength (before ++ plain ++ spelled ++ rest) := by
      intro b hmem
      refine ⟨hspelled ▸ hfirst b hmem, ?_⟩
      simpa using (hin b (by simp [hmem])).2
    obtain ⟨items, rfl, hitems⟩ := ih hord (fun b hmem => hne b (by simp [hmem])) hrest
      (fun b hmem => by simpa using hb b (by simp [hmem]))
    refine ⟨chars plain ++ .atom spelled :: items, by simp [Piece.text], ?_⟩
    rw [Text.byteLength_append] at hspelled
    rw [atomSpans_chars, ← Text.byteLength_append, hplain, atomSpans, ← hitems,
      Text.byteLength_append, hplain]
    rw [hplain] at hspelled
    rw [hspelled]

theorem exists_inOrder {atoms : List Span} (hap : atoms.Pairwise Apart)
    (hne : ∀ a ∈ atoms, a.start < a.stop) : ∃ sorted, sorted.Perm atoms ∧ InOrder sorted := by
  have hperm := List.mergeSort_perm atoms fun a b => decide (a.start ≤ b.start)
  refine ⟨_, hperm, ?_⟩
  have hsorted : (atoms.mergeSort fun a b => decide (a.start ≤ b.start)).Pairwise
      fun a b => decide (a.start ≤ b.start) = true := by
    refine List.pairwise_mergeSort ?_ ?_ atoms
    · intro a b c hab hbc
      simp only [decide_eq_true_eq] at hab hbc ⊢
      exact Nat.le_trans hab hbc
    · intro a b
      simp only [Bool.or_eq_true, decide_eq_true_eq]
      exact Nat.le_total a.start b.start
  have hap' := (hperm.pairwise_iff fun h => Apart.symm h).mpr hap
  refine (hsorted.and hap').imp_of_mem ?_
  rintro a b - hb ⟨hle, hapart⟩
  have hlt := hne b (hperm.mem_iff.mp hb)
  simp only [decide_eq_true_eq] at hle
  rcases hapart with hapart | hapart <;> omega

theorem pullBack_perm {atoms others : List Span} (hap : atoms.Pairwise Apart)
    (hperm : others.Perm atoms) (offset : Nat) :
    pullBack others offset = pullBack atoms offset := by
  rcases pullBack_cases atoms offset with ⟨he, hnone⟩ | ⟨a, ha, hin, he⟩ <;>
    rcases pullBack_cases others offset with ⟨he', hnone'⟩ | ⟨b, hb, hin', he'⟩
  · rw [he, he']
  · exact absurd hin' (hnone b (hperm.mem_iff.mp hb))
  · exact absurd hin (hnone' a (hperm.mem_iff.mpr ha))
  · obtain ⟨h1, h2⟩ := hin
    obtain ⟨h3, h4⟩ := hin'
    rcases eq_or_apart_of_pairwise hap ha (hperm.mem_iff.mp hb) with rfl | hapart | hapart
    · rw [he, he']
    · omega
    · omega

variable {text content : List Char} {limit : Nat} {l : Literal}

theorem Atomic.exists_views (h : Atomic text l)
    (hslice : Text.slice? text l.content = some content) : ∃ items, Views l content items := by
  obtain ⟨before, after, rfl, hbefore, hstop⟩ := Text.slice?_eq_some_iff.mp hslice
  obtain ⟨sorted, hperm, hord⟩ := exists_inOrder h.apart h.nonempty
  have hmem : ∀ {a}, a ∈ sorted → a ∈ l.atoms := hperm.mem_iff.mp
  obtain ⟨items, hspell, hitems⟩ := exists_items hord (fun a ha => h.nonempty a (hmem ha))
    (fun a ha => by
      rw [Text.byteLength_append, hbefore, ← hbefore, hstop]
      exact hbefore ▸ h.inside a (hmem ha)) (fun a ha => h.boundary a (hmem ha))
  exact ⟨items, hspell, by rw [← hbefore, hitems]; exact hperm⟩

theorem Views.pullBack_eq {items : List Piece} (hv : Views l content items)
    (hap : l.atoms.Pairwise Apart) : pullBack l.atoms (l.limitOffset limit content) =
      l.content.start + Text.byteLength (spell (keep limit items)) := by
  rw [← pullBack_perm hap hv.atoms, limitOffset, ← hv.spelled]
  exact pullBack_atomSpans limit l.content.start items

theorem Views.length_keep {items : List Piece} (hv : Views l content items)
    (hap : l.atoms.Pairwise Apart) (hlt : limit < content.length)
    (hnone : ∀ a ∈ l.atoms, ¬StrictlyInside (l.limitOffset limit content) a) :
    (spell (keep limit items)).length = limit := by
  have hbytes : Text.byteLength (content.take limit) =
      Text.byteLength (spell (keep limit items)) := by
    have hcut := @Views.pullBack_eq content limit l items hv hap
    rcases pullBack_cases l.atoms (l.limitOffset limit content) with ⟨he, -⟩ | ⟨a, ha, hin, -⟩
    · rw [he, limitOffset] at hcut
      omega
    · exact absurd hin (hnone a ha)
  obtain ⟨hstarts, hfits, -⟩ := longest_keep limit items
  obtain ⟨dropped, hitems⟩ := hstarts
  have hcontent : content = spell (keep limit items) ++ spell dropped := by
    rw [← spell_append, hitems, hv.spelled]
  apply Decidable.byContradiction
  intro hne
  -- characters of the content beyond what is kept would fit, and they take bytes
  have hmore : 0 < Text.byteLength
      ((spell dropped).take (limit - (spell (keep limit items)).length)) := by
    apply Text.byteLength_pos
    rw [hcontent, List.length_append] at hlt
    intro hnil
    have hlen := congrArg List.length hnil
    simp only [List.length_take, List.length_nil] at hlen
    omega
  rw [hcontent, List.take_append, List.take_of_length_le hfits,
    Text.byteLength_append] at hbytes
  omega

end Items

/-- A literal is left alone exactly if its content has no more characters than may stay. Otherwise
it is cut at the last place where it may end, and what stays of its pieces is the longest prefix for
which there is room; this uses up the limit unless an atom is in the way. -/
theorem truncation_keeps_longest {text content : List Char} {limit : Nat} {l : Literal}
    (hslice : Text.slice? text l.content = some content) (h : Atomic text l) :
    (l.truncation? text limit = none ↔ content.length ≤ limit) ∧
    (limit < content.length → ∃ c, l.truncation? text limit = some c ∧
      c.span.stop = l.content.stop ∧ c.marker = "...".toList ∧
      MayEnd l content limit c.span.start ∧
      ∀ offset, MayEnd l content limit offset → offset ≤ c.span.start) ∧
    (∃ items, Views l content items) ∧
    ∀ items, Views l content items → ∀ c, l.truncation? text limit = some c →
      ∃ kept, Longest limit items kept ∧
        c.span.start = l.content.start + Text.byteLength (spell kept) ∧
        ((∀ a ∈ l.atoms, ¬StrictlyInside (l.limitOffset limit content) a) →
          (spell kept).length = limit) := by
  have hsome : ∀ c, l.truncation? text limit = some c ↔ limit < content.length ∧
      c = ⟨⟨pullBack l.atoms (l.limitOffset limit content), l.content.stop⟩, ellipsis⟩ := by
    intro c
    rw [truncation?_eq_some_iff]
    constructor
    · rintro ⟨found, hfound, hlt, rfl⟩
      obtain rfl := Option.some.inj (hslice.symm.trans hfound)
      exact ⟨hlt, rfl⟩
    · rintro ⟨hlt, rfl⟩
      exact ⟨content, hslice, hlt, rfl⟩
  refine ⟨?_, ?_, h.exists_views hslice, ?_⟩
  · rw [Option.eq_none_iff_forall_ne_some]
    constructor
    · intro hnone
      apply Nat.le_of_not_lt
      intro hlt
      exact hnone _ ((hsome _).mpr ⟨hlt, rfl⟩)
    · intro hle c hc
      have hlt := ((hsome c).mp hc).1
      omega
  · intro hlt
    exact ⟨_, (hsome _).mpr ⟨hlt, rfl⟩, rfl, rfl, h.mayEnd_pullBack hslice,
      fun offset hoffset => hoffset.le_pullBack⟩
  · intro items hv c hc
    obtain ⟨hlt, rfl⟩ := (hsome c).mp hc
    exact ⟨keep limit items, longest_keep limit items, hv.pullBack_eq h.apart,
      hv.length_keep h.apart hlt⟩

def besideEscapes : List Char := "x = \"é\\n\\tü\"".toList

def besideEscapesLiteral : Literal := ⟨⟨4, 14⟩, 0, 1, [⟨9, 11⟩, ⟨7, 9⟩]⟩

theorem truncation_keeps_longest_besideEscapes :
    besideEscapesLiteral.truncation? besideEscapes 4 = some ⟨⟨9, 13⟩, "...".toList⟩ ∧
    MayEnd besideEscapesLiteral "é\\n\\tü".toList 4 9 ∧
    ∀ offset, MayEnd besideEscapesLiteral "é\\n\\tü".toList 4 offset → offset ≤ 9 := by
  have hslice : Text.slice? besideEscapes besideEscapesLiteral.content =
      some "é\\n\\tü".toList := by
    decide +kernel
  have hatomic : Atomic besideEscapes besideEscapesLiteral :=
    { apart := by simp [besideEscapesLiteral, Apart]
      nonempty := by decide
      inside := by decide
      boundary := by decide +kernel }
  have hcut : besideEscapesLiteral.truncation? besideEscapes 4 =
      some ⟨⟨9, 13⟩, "...".toList⟩ := by
    decide +kernel
  obtain ⟨c, hc, -, -, hmay, hgreatest⟩ :=
    (truncation_keeps_longest hslice hatomic).2.1 (by decide : 4 < _)
  obtain rfl := Option.some.inj (hcut.symm.trans hc)
  exact ⟨hcut, hmay, hgreatest⟩

end Synopsis.Literal
