import Mathlib.Data.List.Forall2
import Synopsis.Proofs.Bytewise
import Synopsis.Proofs.NestedCuts
import Synopsis.Proofs.Text.Refill

/-!
# What stands in a body does not show

Two texts with different fillings of some bodies between braces, and outlines that agree outside
these bodies, come out as the same text. A cut that is asked for inside a filling lies in the cut of
the body that is filled, and every other cut has a counterpart in the other text. So at each offset
outside the fillings the same is asked for in both texts, and the fillings are taken whole.
-/

namespace Synopsis.Outline

open Syntax Synopsis.Span Refill Splice

structure LiteralCopied (f g : Segment → List Char) (segments : List Segment) (l m : Literal) :
    Prop where
  span : Copied f g segments l.span m.span
  lead : l.lead = m.lead
  quote : l.quote = m.quote
  atoms : List.Forall₂ (Copied f g segments) l.atoms m.atoms

/-- Each filling is a body, and what the first outline has besides the contents of fillings is
outside them, with a copy in the second outline. So a body that is filled is in no larger body and
in no literal. -/
structure Follows (f g : Segment → List Char) (segments : List Segment) (o p : Outline) :
    Prop where
  filled : ∀ hole ∈ holes f segments, ∃ b ∈ o.bodies, b.span = hole
  bodies : ∀ b ∈ o.bodies, (∃ hole ∈ holes f segments, hole.Holds b.span) ∨
    ∃ c ∈ p.bodies, Copied f g segments b.span c.span
  literals : ∀ l ∈ o.literals, (∃ hole ∈ holes f segments, hole.Holds l.span) ∨
    ∃ m ∈ p.literals, LiteralCopied f g segments l m

structure Refilled (language : Language) (f g : Segment → List Char) (segments : List Segment)
    (tail : List Char) (tree other : Tree) : Prop where
  braces : language ≠ .python
  regular : Regular language (fill f tail segments) tree
  regular' : Regular language (fill g tail segments) other
  inside : tree.stop ≤ Text.byteLength (fill f tail segments)
  inside' : other.stop ≤ Text.byteLength (fill g tail segments)
  follows : Follows f g segments (ofTree language (fill f tail segments) tree)
    (ofTree language (fill g tail segments) other)
  follows' : Follows g f segments (ofTree language (fill g tail segments) other)
    (ofTree language (fill f tail segments) tree)

theorem Refilled.symm {language : Language} {f g : Segment → List Char} {segments : List Segment}
    {tail : List Char} {tree other : Tree} (h : Refilled language f g segments tail tree other) :
    Refilled language g f segments tail other tree :=
  ⟨h.braces, h.regular', h.regular, h.inside', h.inside, h.follows', h.follows⟩

theorem bytewise_fill {f g : Segment → List Char} {segments : List Segment} (tail : List Char)
    {φ ψ : Nat → UInt8 → List UInt8} {n m : Nat}
    (hmoved : ∀ i j, Moved f g segments i j → φ (n + i) = ψ (m + j))
    (hf : ∀ hole ∈ holes f segments, ∀ i, hole.Covers i → φ (n + i) = fun _ => [])
    (hg : ∀ hole ∈ holes g segments, ∀ i, hole.Covers i → ψ (m + i) = fun _ => []) :
    bytewise φ n (Text.encode (fill f tail segments)) =
      bytewise ψ m (Text.encode (fill g tail segments)) := by
  induction segments generalizing n m with
  | nil => exact bytewise_congr fun i _ => hmoved i i .tail
  | cons s segments ih =>
    have hgap : bytewise φ n (Text.encode s.gap) = bytewise ψ m (Text.encode s.gap) := by
      refine bytewise_congr fun i hi => hmoved i i (.gap ?_)
      rw [Text.length_encode] at hi
      exact Nat.le_of_lt hi
    have hhole : ∀ (e : Segment → List Char) (χ : Nat → UInt8 → List UInt8) (k : Nat),
        (∀ hole ∈ holes e (s :: segments), ∀ i, hole.Covers i → χ (k + i) = fun _ => []) →
        bytewise χ (k + Text.byteLength s.gap) (Text.encode (e s)) = [] := by
      intro e χ k hnil
      rw [bytewise_congr fun i hi => ?_, bytewise_nil (k + Text.byteLength s.gap)]
      rw [Text.length_encode] at hi
      rw [Nat.add_assoc]
      refine hnil ⟨Text.byteLength s.gap, s.width e⟩ (by simp [holes]) _ ⟨Nat.le_add_right _ _, ?_⟩
      simp only [Segment.width]
      omega
    have hrest := @ih (n + s.width f) (m + s.width g)
      (fun i j hij => by
        rw [Nat.add_assoc, Nat.add_assoc]
        exact hmoved _ _ (.past hij))
      (fun hole hmem i hcov => by
        rw [Nat.add_assoc]
        refine hf (hole.shift (s.width f)) (by simpa [holes] using .inr ⟨hole, hmem, rfl⟩) _ ?_
        exact ⟨Nat.add_le_add_left hcov.1 _, Nat.add_lt_add_left hcov.2 _⟩)
      (fun hole hmem i hcov => by
        rw [Nat.add_assoc]
        refine hg (hole.shift (s.width g)) (by simpa [holes] using .inr ⟨hole, hmem, rfl⟩) _ ?_
        exact ⟨Nat.add_le_add_left hcov.1 _, Nat.add_lt_add_left hcov.2 _⟩)
    simp only [Segment.width, ← Nat.add_assoc] at hrest
    simp only [fill, Text.encode_append, bytewise_append, Text.length_encode, List.length_append]
    rw [← Nat.add_assoc, ← Nat.add_assoc, hgap, hhole f φ n hf, hhole g ψ m hg, hrest]

theorem pullBack_moved {f g : Segment → List Char} {segments : List Segment}
    (hf : Firm f segments) (hg : Firm g segments) {atoms others : List Span} {n m : Nat}
    (hatoms : List.Forall₂ (Copied f g segments) atoms others) (hn : Moved f g segments n m) :
    Moved f g segments (pullBack atoms n) (pullBack others m) := by
  induction hatoms with
  | nil => exact hn
  | @cons a b atoms others hab _ ih =>
    have hin := hab.moved.strictlyInside_iff hf hg hn
    by_cases h : StrictlyInside n a
    · simpa [pullBack, h, hin.mp h] using hab.moved.1
    · have h' : ¬StrictlyInside m b := fun hb => h (hin.mpr hb)
      simpa [pullBack, h, h'] using ih

namespace Refilled

variable {language : Language} {f g : Segment → List Char} {segments : List Segment}
  {tail : List Char} {tree other : Tree} {limit n n' : Nat} {b : Body} {c : Cut}
  (h : Refilled language f g segments tail tree other)

include h

theorem exists_block (hb : b ∈ (ofTree language (fill f tail segments) tree).bodies) :
    ∃ block ∈ blocks language tree, b = bracedBody (fill f tail segments) block := by
  obtain ⟨t, ht, hb⟩ := mem_bodies.mp hb
  obtain ⟨helides, block, hchild, hkind, hpy | hbody⟩ := mem_bodiesOf.mp hb
  · exact absurd hpy.1 h.braces
  · exact ⟨block, mem_blocks.mpr ⟨t, ht, helides, hchild, hkind⟩, hbody.2⟩

theorem solid (hb : b ∈ (ofTree language (fill f tail segments) tree).bodies) :
    Solid (fill f tail segments) b.span := by
  obtain ⟨block, hblock, rfl⟩ := h.exists_block hb
  exact h.regular.solidBlocks h.braces block hblock

theorem cutStart_eq (hb : b ∈ (ofTree language (fill f tail segments) tree).bodies) :
    b.cutStart = cutAt (fill f tail segments) b.span.start := by
  obtain ⟨block, -, rfl⟩ := h.exists_block hb
  rfl

theorem firm : Firm f segments := by
  intro s hs
  obtain ⟨front, back, htext, hhole⟩ := exists_hole tail hs
  obtain ⟨b, hb, hspan⟩ := h.follows.filled _ hhole
  obtain ⟨hlt, -, hlast⟩ := h.solid hb
  rw [hspan] at hlt hlast
  rcases List.eq_nil_or_concat' (f s) with hnil | ⟨init, c, hs⟩
  · simp [hnil] at hlt
  · refine ⟨init, c, hs, ?_⟩
    cases hblank : Text.isSpaceOrTab c with
    | false => rfl
    | true =>
      have hone : Text.byteLength [c] = 1 := byteLength_padding (by simpa using hblank)
      have htext' : fill f tail segments = front ++ init ++ [c] ++ back := by simp [htext, hs]
      have hstop : Text.byteLength front + Text.byteLength (f s) - 1 =
          Text.byteLength (front ++ init) := by
        rw [hs, Text.byteLength_append, Text.byteLength_append, hone]
        omega
      refine absurd ?_ hlast
      rw [htext', hstop]
      exact blankAt_padding (by simpa using hblank) (Nat.le_refl _) (by omega)

theorem moved_cut {d : Body} (hb : b ∈ (ofTree language (fill f tail segments) tree).bodies)
    (hd : d ∈ (ofTree language (fill g tail segments) other).bodies)
    (hmoved : MovedSpan f g segments b.span d.span) :
    MovedSpan f g segments ⟨b.cutStart, b.span.stop⟩ ⟨d.cutStart, d.span.stop⟩ := by
  refine ⟨?_, hmoved.2⟩
  rw [h.cutStart_eq hb, h.symm.cutStart_eq hd]
  exact hmoved.1.cutAt h.firm h.symm.firm tail

theorem cut_mem (hb : b ∈ (ofTree language (fill f tail segments) tree).bodies) :
    ⟨⟨b.cutStart, b.span.stop⟩, []⟩ ∈
      candidates language (fill f tail segments) tree ⟨limit, none⟩ := by
  refine Plan.mem_candidates.mpr (.inr ⟨b, hb, Plan.elision?_eq_some_iff.mpr ⟨?_, rfl⟩⟩)
  rw [h.cutStart_eq hb]
  exact Nat.lt_of_le_of_lt (cutAt_le _ _) (h.solid hb).1

-- The brace of the body that is filled stops a body in it from reaching further back.
theorem hole_holds_cut {d : Body} (hb : b ∈ (ofTree language (fill f tail segments) tree).bodies)
    (hd : d ∈ (ofTree language (fill f tail segments) tree).bodies) (hin : b.span.Holds d.span) :
    Span.Holds ⟨b.cutStart, b.span.stop⟩ ⟨d.cutStart, d.span.stop⟩ := by
  refine ⟨?_, hin.2⟩
  obtain ⟨block, -, hblock⟩ := h.exists_block hd
  change b.cutStart ≤ d.cutStart
  rcases Nat.lt_or_eq_of_le hin.1 with hlt | he
  · have hcut := lt_cutStart block (by rw [hblock] at hlt; exact hlt) (h.solid hb).2.1
    have hle := cutAt_le (fill f tail segments) b.span.start
    rw [← h.cutStart_eq hb] at hle
    rw [hblock]
    omega
  · exact Nat.le_of_eq (by rw [h.cutStart_eq hb, h.cutStart_eq hd, he])

theorem literal_spared {l m : Literal} (hl : LiteralCopied f g segments l m)
    (hout : ∀ b ∈ (ofTree language (fill f tail segments) tree).bodies, ¬b.span.Holds l.span) :
    ∀ d ∈ (ofTree language (fill g tail segments) other).bodies, ¬d.span.Holds m.span := by
  intro d hd hholds
  rcases h.follows'.bodies d hd with ⟨hole, hmem, hin⟩ | ⟨b, hb, hcopied⟩
  · obtain ⟨hole', hmem', hmoved⟩ := exists_moved_hole (g := f) hmem
    obtain ⟨b, hb, rfl⟩ := h.follows.filled hole' hmem'
    refine hout b hb ?_
    exact (hmoved.symm.holds_iff h.firm h.symm.firm hl.span.moved).mpr (hin.trans hholds)
  · exact hout b hb ((hcopied.symm.moved.holds_iff h.firm h.symm.firm hl.span.moved).mpr hholds)

theorem truncation_moved {l m : Literal}
    (hl : l ∈ (ofTree language (fill f tail segments) tree).literals)
    (hcopied : LiteralCopied f g segments l m)
    (hcut : l.truncation? (fill f tail segments) limit = some c) :
    ∃ d, m.truncation? (fill g tail segments) limit = some d ∧
      MovedSpan f g segments c.span d.span := by
  obtain ⟨content, hslice, hlt, rfl⟩ := Literal.truncation?_eq_some_iff.mp hcut
  obtain ⟨t, ht, -, hlit⟩ := mem_literals.mp hl
  obtain ⟨h1, h2, h3⟩ := literalOf?_content hlit
  have hspan : l.span.stop = t.stop := by rw [literalOf?_span hlit]; rfl
  have hcontent : Copied f g segments l.content m.content := by
    have hwide : l.span.start + (l.lead + l.quote) + l.quote ≤ l.span.stop := by
      simp only [Literal.content] at h2 h3
      omega
    have htrim := hcopied.span.trim hwide
    simp only [Literal.content, ← hcopied.lead, ← hcopied.quote, Nat.add_assoc] at htrim ⊢
    exact htrim
  have hoffset : Moved f g segments (l.limitOffset limit content)
      (m.limitOffset limit content) := by
    have hle := Literal.limitOffset_lt hslice hlt
    exact (hcontent.trim (p := Text.byteLength (content.take limit)) (q := 0)
      (Nat.le_of_lt hle)).moved.1
  rw [hcontent.slice?_eq tail] at hslice
  exact ⟨_, Literal.truncation?_eq_some_iff.mpr ⟨content, hslice, hlt, rfl⟩,
    pullBack_moved h.firm h.symm.firm hcopied.atoms hoffset, hcontent.moved.2⟩

theorem literalCut_moved (hc : LiteralCut (fill f tail segments)
      (ofTree language (fill f tail segments) tree).bodies
      (ofTree language (fill f tail segments) tree).literals limit c) :
    ∃ d, LiteralCut (fill g tail segments) (ofTree language (fill g tail segments) other).bodies
        (ofTree language (fill g tail segments) other).literals limit d ∧
      MovedSpan f g segments c.span d.span := by
  obtain ⟨l, hl, hout, hcut⟩ := hc
  rcases h.follows.literals l hl with ⟨hole, hmem, hin⟩ | ⟨m, hm, hcopied⟩
  · obtain ⟨b, hb, rfl⟩ := h.follows.filled hole hmem
    exact absurd hin (hout b hb)
  · obtain ⟨d, hd, hmoved⟩ := h.truncation_moved hl hcopied hcut
    exact ⟨d, ⟨m, hm, h.literal_spared hcopied hout, hd⟩, hmoved⟩

theorem literalCut_apart (hc : LiteralCut (fill f tail segments)
      (ofTree language (fill f tail segments) tree).bodies
      (ofTree language (fill f tail segments) tree).literals limit c) {hole : Span}
    (hmem : hole ∈ holes f segments) : c.span.Apart hole := by
  obtain ⟨l, hl, hout, hcut⟩ := hc
  obtain ⟨t, ht, hlit⟩ := mem_literals.mp hl
  have hholds := h.regular.holds_truncation ht (literal?_eq_some_iff.mpr hlit) hcut
  rw [← literalOf?_span hlit.2] at hholds
  rcases h.follows.literals l hl with ⟨hole', hmem', hin⟩ | ⟨m, -, hcopied⟩
  · obtain ⟨b, hb, rfl⟩ := h.follows.filled hole' hmem'
    exact absurd hin (hout b hb)
  · exact Apart.mono (hcopied.span.apart hmem) hholds (Holds.refl _)

theorem candidate_moved
    (hc : c ∈ candidates language (fill f tail segments) tree ⟨limit, none⟩) :
    ∃ d ∈ candidates language (fill f tail segments) tree ⟨limit, none⟩,
      ∃ e ∈ candidates language (fill g tail segments) other ⟨limit, none⟩,
        d.span.Holds c.span ∧ MovedSpan f g segments d.span e.span := by
  rcases Plan.mem_candidates.mp hc with hl | ⟨b, hb, hcut⟩
  · obtain ⟨e, he, hmoved⟩ := h.literalCut_moved hl
    exact ⟨c, hc, e, Plan.mem_candidates.mpr (.inl he), Holds.refl _, hmoved⟩
  · obtain ⟨-, rfl⟩ := Plan.elision?_eq_some_iff.mp hcut
    rcases h.follows.bodies b hb with ⟨hole, hmem, hin⟩ | ⟨d, hd, hcopied⟩
    · obtain ⟨hole', hmem', hmoved⟩ := exists_moved_hole (g := g) hmem
      obtain ⟨outer, houter, rfl⟩ := h.follows.filled hole hmem
      obtain ⟨outer', houter', rfl⟩ := h.follows'.filled hole' hmem'
      exact ⟨_, h.cut_mem houter, _, h.symm.cut_mem houter', h.hole_holds_cut houter hb hin,
        h.moved_cut houter houter' hmoved⟩
    · exact ⟨_, hc, _, h.symm.cut_mem hd, Holds.refl _, h.moved_cut hb hd hcopied.moved⟩

theorem taken_of_moved (hn : Moved f g segments n n')
    (ht : Taken (candidates language (fill f tail segments) tree ⟨limit, none⟩) n) :
    Taken (candidates language (fill g tail segments) other ⟨limit, none⟩) n' := by
  obtain ⟨c, hc, h1, h2⟩ := ht
  obtain ⟨d, -, e, he, hholds, hmoved⟩ := h.candidate_moved hc
  have hcov : d.span.Covers n := ⟨Nat.le_trans hholds.1 h1, Nat.lt_of_lt_of_le h2 hholds.2⟩
  exact ⟨e, he, (hmoved.covers_iff h.firm h.symm.firm hn).mp hcov⟩

theorem dotted_of_moved (hn : Moved f g segments n n')
    (hd : Dotted (fill f tail segments) (ofTree language (fill f tail segments) tree).bodies
      (ofTree language (fill f tail segments) tree).literals limit n) :
    Dotted (fill g tail segments) (ofTree language (fill g tail segments) other).bodies
      (ofTree language (fill g tail segments) other).literals limit n' := by
  obtain ⟨c, hc, rfl, hout⟩ := hd
  obtain ⟨d, hd, hmoved⟩ := h.literalCut_moved hc
  have hstart : d.span.start = n' := by
    have h1 := hmoved.1.le_iff h.firm h.symm.firm hn
    have h2 := hn.le_iff h.firm h.symm.firm hmoved.1
    omega
  refine ⟨d, hd, hstart, List.mem_map_of_mem (Plan.mem_candidates.mpr (.inl hd)), ?_⟩
  -- a larger cut in the other text would have a counterpart around this one
  intro e he hholds
  obtain ⟨e', he', k, hk, hholds', hmoved'⟩ := h.symm.candidate_moved he
  have hkc : k.span.Holds c.span :=
    (hmoved'.symm.holds_iff h.firm h.symm.firm hmoved).mpr (hholds'.trans hholds)
  have he'd : e'.span = d.span :=
    (hmoved'.symm.eq_iff h.firm h.symm.firm hmoved).mp (hout.2 k hk hkc)
  rw [he'd] at hholds'
  exact hholds.antisymm hholds'

theorem taken_in_hole {hole : Span} (hmem : hole ∈ holes f segments) (hn : hole.Covers n) :
    Taken (candidates language (fill f tail segments) tree ⟨limit, none⟩) n := by
  obtain ⟨b, hb, rfl⟩ := h.follows.filled hole hmem
  refine ⟨_, h.cut_mem hb, ?_, hn.2⟩
  rw [h.cutStart_eq hb]
  exact Nat.le_trans (cutAt_le _ _) hn.1

theorem not_dotted_in_hole {hole : Span} (hmem : hole ∈ holes f segments) (hn : hole.Covers n) :
    ¬Dotted (fill f tail segments) (ofTree language (fill f tail segments) tree).bodies
      (ofTree language (fill f tail segments) tree).literals limit n := by
  intro hd
  obtain ⟨c, hc, rfl, -⟩ := hd
  have hapart := h.literalCut_apart hc hmem
  obtain ⟨l, -, -, hcut⟩ := hc
  have hne := Literal.truncation?_nonempty hcut
  obtain ⟨h1, h2⟩ := hn
  rcases hapart with hle | hle <;> omega

theorem plan_ok (limit : Nat) : ∃ cuts, plan (fill f tail segments)
    (ofTree language (fill f tail segments) tree).bodies
    (ofTree language (fill f tail segments) tree).literals ⟨limit, none⟩ = .ok cuts := by
  refine Plan.plan_isOk_iff.mpr fun a b ha hb => ?_
  obtain ⟨c, hc, rfl⟩ := List.mem_map.mp ha.1
  obtain ⟨d, hd, rfl⟩ := List.mem_map.mp hb.1
  exact (h.regular.candidates_laminar hc hd).not_crosses

theorem candidate_stop_le
    (hc : c ∈ candidates language (fill f tail segments) tree ⟨limit, none⟩) :
    c.span.stop ≤ Text.byteLength (fill f tail segments) := by
  have hle : ∀ t ∈ tree.preorder, t.stop ≤ Text.byteLength (fill f tail segments) := fun t ht =>
    Nat.le_trans (h.regular.nested.of_mem_preorder ht).1.2 h.inside
  rcases braced_origin h.braces hc with ⟨t, ht, l, hl, hcut, -⟩ | ⟨block, hblock, hspan⟩
  · exact Nat.le_trans (h.regular.holds_truncation ht hl hcut).2 (hle t ht)
  · rw [hspan]
    exact hle block (mem_preorder_of_mem_blocks hblock)

theorem bytesFrom_eq {cuts : List Cut} (hplan : plan (fill f tail segments)
      (ofTree language (fill f tail segments) tree).bodies
      (ofTree language (fill f tail segments) tree).literals ⟨limit, none⟩ = .ok cuts) :
    bytesFrom (Text.encode (fill f tail segments)) 0 cuts =
      bytewise (shownAt cuts) 0 (Text.encode (fill f tail segments)) := by
  have hkept := Plan.plan_kept hplan
  refine bytesFrom_eq_bytewise (plan_chained hplan fun k hk => ?_) hkept.nonempty
  rw [Text.length_encode]
  exact h.candidate_stop_le (List.mem_of_find?_eq_some (hkept.first k hk))

end Refilled

/-- Texts that differ only in the fillings of some bodies come out as the same text. -/
theorem refilled_same_result {language : Language} {segments : List Segment} {tail : List Char}
    {tree other : Tree}
    (h : Refilled language Segment.old Segment.new segments tail tree other) (limit : Nat) :
    ∃ cuts cuts',
      plan (fill Segment.old tail segments)
        (ofTree language (fill Segment.old tail segments) tree).bodies
        (ofTree language (fill Segment.old tail segments) tree).literals
        ⟨limit, language.placeholder?⟩ = .ok cuts ∧
      plan (fill Segment.new tail segments)
        (ofTree language (fill Segment.new tail segments) other).bodies
        (ofTree language (fill Segment.new tail segments) other).literals
        ⟨limit, language.placeholder?⟩ = .ok cuts' ∧
      apply (fill Segment.old tail segments) cuts =
        apply (fill Segment.new tail segments) cuts' := by
  rw [Language.placeholder?_eq_none h.braces]
  obtain ⟨cuts, hplan⟩ := h.plan_ok limit
  obtain ⟨cuts', hplan'⟩ := h.symm.plan_ok limit
  refine ⟨cuts, cuts', hplan, hplan', ?_⟩
  have hbytes : bytewise (shownAt cuts) 0 (Text.encode (fill Segment.old tail segments)) =
      bytewise (shownAt cuts') 0 (Text.encode (fill Segment.new tail segments)) := by
    refine bytewise_fill tail (fun i j hij => ?_) (fun hole hmem i hcov => ?_)
      (fun hole hmem i hcov => ?_)
    · rw [Nat.zero_add, Nat.zero_add]
      exact shownAt_congr hplan hplan' ⟨h.dotted_of_moved hij, h.symm.dotted_of_moved hij.symm⟩
        ⟨h.taken_of_moved hij, h.symm.taken_of_moved hij.symm⟩
    · rw [Nat.zero_add]
      exact shownAt_eq_nil hplan (h.not_dotted_in_hole hmem hcov) (h.taken_in_hole hmem hcov)
    · rw [Nat.zero_add]
      exact shownAt_eq_nil hplan' (h.symm.not_dotted_in_hole hmem hcov)
        (h.symm.taken_in_hole hmem hcov)
  rw [apply, apply, h.bytesFrom_eq hplan, h.symm.bytesFrom_eq hplan', hbytes]

def functionForString : Segment :=
  ⟨"fn f() ".toList, "\x7b fn g() \x7b\x7d \x7d".toList, "\x7b\"x\"\x7d".toList⟩

def withFunction : Tree :=
  .node .file ⟨0, 26⟩ false [.node .function ⟨0, 20⟩ false [.node .block ⟨7, 20⟩ false
    [.node .function ⟨9, 18⟩ false [.node .block ⟨16, 18⟩ false []]]],
    .node .string ⟨21, 26⟩ false []]

def withString : Tree :=
  .node .file ⟨0, 18⟩ false [.node .function ⟨0, 12⟩ false [.node .block ⟨7, 12⟩ false
    [.node .string ⟨8, 11⟩ false []]], .node .string ⟨13, 18⟩ false []]

theorem refilled_same_result_functionForString :
    ∃ cuts cuts',
      plan (fill Segment.old " \"abc\"".toList [functionForString])
        (ofTree .rust (fill Segment.old " \"abc\"".toList [functionForString]) withFunction).bodies
        (ofTree .rust (fill Segment.old " \"abc\"".toList [functionForString]) withFunction).literals
        ⟨1, none⟩ = .ok cuts ∧
      plan (fill Segment.new " \"abc\"".toList [functionForString])
        (ofTree .rust (fill Segment.new " \"abc\"".toList [functionForString]) withString).bodies
        (ofTree .rust (fill Segment.new " \"abc\"".toList [functionForString]) withString).literals
        ⟨1, none⟩ = .ok cuts' ∧
      apply (fill Segment.old " \"abc\"".toList [functionForString]) cuts =
        apply (fill Segment.new " \"abc\"".toList [functionForString]) cuts' := by
  have hold : ofTree .rust (fill Segment.old " \"abc\"".toList [functionForString]) withFunction =
      ⟨[⟨⟨7, 20⟩, 6, none⟩, ⟨⟨16, 18⟩, 15, none⟩], [⟨⟨21, 26⟩, 0, 1, []⟩]⟩ := by
    decide +kernel
  have hnew : ofTree .rust (fill Segment.new " \"abc\"".toList [functionForString]) withString =
      ⟨[⟨⟨7, 12⟩, 6, none⟩], [⟨⟨8, 11⟩, 0, 1, []⟩, ⟨⟨13, 18⟩, 0, 1, []⟩]⟩ := by
    decide +kernel
  have hcopied : Copied Segment.old Segment.new [functionForString] ⟨21, 26⟩ ⟨13, 18⟩ :=
    @Copied.past _ _ functionForString [] ⟨1, 6⟩ ⟨1, 6⟩ .tail
  have h : Refilled .rust Segment.old Segment.new [functionForString] " \"abc\"".toList withFunction
      withString :=
    { braces := by decide
      regular := by decide +kernel
      regular' := by decide +kernel
      inside := by decide +kernel
      inside' := by decide +kernel
      follows := by
        rw [hold, hnew]
        refine ⟨by decide, fun b hb => .inl ?_, fun l hl => .inr ?_⟩
        · revert b
          decide
        · obtain rfl := List.mem_singleton.mp hl
          exact ⟨⟨⟨13, 18⟩, 0, 1, []⟩, by simp, hcopied, rfl, rfl, .nil⟩
      follows' := by
        rw [hold, hnew]
        refine ⟨by decide, fun b hb => .inl ?_, fun l hl => ?_⟩
        · revert b
          decide
        · rcases List.mem_cons.mp hl with rfl | hl
          · exact .inl (by decide)
          · obtain rfl := List.mem_singleton.mp hl
            exact .inr ⟨⟨⟨21, 26⟩, 0, 1, []⟩, by simp, hcopied.symm, rfl, rfl, .nil⟩ }
  exact refilled_same_result h 1

end Synopsis.Outline
