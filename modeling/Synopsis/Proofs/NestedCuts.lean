import Synopsis.Abridge
import Synopsis.Proofs.Outlining
import Synopsis.Proofs.Planning

/-!
# Cuts from a regular tree do not cross

The cuts of an outline do not follow its nodes exactly: a body takes the blanks before its brace, or
leaves a string at its beginning, and a literal is cut at the start of an atom. In a tree that is
well nested, and whose bodies, literals and atoms begin and end with marks rather than blanks, this
never makes two cuts cross, so a plan can always be made.
-/

namespace Synopsis.Outline

open Syntax Synopsis.Span

def Solid (text : List Char) (s : Span) : Prop :=
  s.start < s.stop ∧ ¬BlankAt text s.start ∧ ¬BlankAt text (s.stop - 1)

instance (text : List Char) (s : Span) : Decidable (Solid text s) := instDecidableAnd

def blocks (language : Language) (tree : Tree) : List Tree :=
  (tree.preorder.filter (language.elides ·.kind)).flatMap fun f =>
    f.children.filter (·.kind == .block)

/-- What is asked of a tree: nodes are nested, braces and literals are solid, atoms lie in the
content of their literals, and callables and literals below a literal are inside its atoms. -/
structure Regular (language : Language) (text : List Char) (tree : Tree) : Prop where
  nested : tree.WellNested
  solidBlocks : language ≠ .python → ∀ block ∈ blocks language tree, Solid text block.span
  solidLiterals : ∀ t ∈ tree.preorder, (literal? language text t).isSome = true → Solid text t.span
  atoms : ∀ t ∈ tree.preorder, ∀ l ∈ literal? language text t, ∀ a ∈ l.atoms,
    ¬BlankAt text a.start ∧ l.content.Holds a
  blocksInside : ∀ t ∈ tree.preorder, ∀ l ∈ literal? language text t,
    ∀ block ∈ blocks language t,
      ∃ a ∈ l.atoms, a.start < block.start ∧ block.stop ≤ a.stop
  literalsInside : ∀ t ∈ tree.preorder, ∀ l ∈ literal? language text t,
    ∀ n ∈ t.descendants, (literal? language text n).isSome = true →
      ∃ a ∈ l.atoms, a.start < n.start ∧ n.stop ≤ a.stop
  strings : language = .python → ∀ t ∈ tree.preorder, t.kind = .string →
    ∀ n ∈ t.descendants, n.kind ≠ .function

instance (language : Language) (text : List Char) (tree : Tree) :
    Decidable (Regular language text tree) :=
  decidable_of_iff (_ ∧ _ ∧ _ ∧ _ ∧ _ ∧ _ ∧ _)
    ⟨fun ⟨h1, h2, h3, h4, h5, h6, h7⟩ => ⟨h1, h2, h3, h4, h5, h6, h7⟩,
      fun ⟨h1, h2, h3, h4, h5, h6, h7⟩ => ⟨h1, h2, h3, h4, h5, h6, h7⟩⟩

theorem mem_blocks {language : Language} {tree block : Tree} :
    block ∈ blocks language tree ↔ ∃ f ∈ tree.preorder, language.elides f.kind = true ∧
      block ∈ f.children ∧ block.kind = .block := by
  simp [blocks, and_assoc]

theorem mem_preorder_of_mem_blocks {language : Language} {tree block : Tree}
    (h : block ∈ blocks language tree) : block ∈ tree.preorder := by
  obtain ⟨f, hf, -, hchild, -⟩ := mem_blocks.mp h
  refine Tree.mem_preorder_trans ?_ hf
  exact Tree.mem_preorder.mpr (.inr (Tree.mem_descendants_of_mem_children hchild))

section Braces

variable {text : List Char} {block : Tree}

def bracedCut (text : List Char) (block : Tree) : Span :=
  ⟨(bracedBody text block).cutStart, block.stop⟩

theorem lt_cutStart (block : Tree) {offset : Nat} (hlt : offset < block.start)
    (hb : ¬BlankAt text offset) : offset < (bracedBody text block).cutStart :=
  Nat.lt_of_not_le fun hle => hb (bracedBody_blankAt hle hlt)

theorem stop_le_cutStart (block : Tree) {s : Span} (hs : Solid text s)
    (hle : s.stop ≤ block.start) : s.stop ≤ (bracedBody text block).cutStart := by
  obtain ⟨hne, -, hlast⟩ := hs
  have hlt := lt_cutStart block (show s.stop - 1 < block.start by omega) hlast
  omega

theorem bracedCut_holds {outer : Tree} (hn : outer.WellNested) (hs : Solid text outer.span)
    (h : block ∈ outer.descendants) : (bracedCut text outer).Holds (bracedCut text block) := by
  obtain ⟨h1, h2⟩ := hn.holds_of_mem_descendants h
  refine ⟨?_, h2⟩
  have houter : (bracedBody text outer).cutStart ≤ outer.start := bracedBody_cutStart_le
  rcases Nat.lt_or_eq_of_le h1 with hlt | he
  · -- the opening brace of the outer block stops the inner one from reaching further back
    exact Nat.le_of_lt (Nat.lt_of_le_of_lt houter (lt_cutStart block hlt hs.2.1))
  · exact Nat.le_of_eq (bracedBody_cutStart_congr he)

theorem bracedCut_laminar {tree b c : Tree} (hn : tree.WellNested) (hb : b ∈ tree.preorder)
    (hc : c ∈ tree.preorder) (hsb : Solid text b.span) (hsc : Solid text c.span) :
    (bracedCut text b).Laminar (bracedCut text c) := by
  have hnb := (hn.of_mem_preorder hb).2
  have hnc := (hn.of_mem_preorder hc).2
  rcases hn.trichotomy hb hc with rfl | hbc | hcb | hap
  · exact (Holds.refl _).laminar
  · exact (bracedCut_holds hnc hsc hbc).laminar.symm
  · exact (bracedCut_holds hnb hsb hcb).laminar
  · rcases hap with hle | hle
    · have hcut := stop_le_cutStart c hsb hle
      exact .inl (.inl hcut)
    · have hcut := stop_le_cutStart b hsc hle
      exact .inl (.inr hcut)

end Braces

section Literals

variable {language : Language} {text : List Char} {tree t : Tree} {l : Literal} {limit : Nat}
  {c : Cut} (h : Regular language text tree) (ht : t ∈ tree.preorder)
  (hl : literal? language text t = some l) (hc : l.truncation? text limit = some c)

include h ht hl hc

theorem Regular.holds_truncation : t.span.Holds c.span := by
  obtain ⟨content, hslice, hlt, rfl⟩ := Literal.truncation?_eq_some_iff.mp hc
  obtain ⟨h1, h2, h3⟩ := literalOf?_content (literal?_eq_some_iff.mp hl).2
  refine ⟨?_, Nat.le_of_lt h3⟩
  change t.start ≤ pullBack l.atoms (l.limitOffset limit content)
  rcases pullBack_cases l.atoms (l.limitOffset limit content) with ⟨he, -⟩ | ⟨a, ha, -, he⟩
  · rw [he]
    unfold Literal.limitOffset
    omega
  · have hin := (h.atoms t ht l hl a ha).2.1
    rw [he]
    omega

theorem Regular.truncation_atom {a : Span} (ha : a ∈ l.atoms) :
    c.span.Holds a ∨ a.Apart c.span := by
  obtain ⟨content, hslice, hlt, rfl⟩ := Literal.truncation?_eq_some_iff.mp hc
  have hord : InOrder l.atoms := by
    rw [literalOf?_atoms (literal?_eq_some_iff.mp hl).2]
    exact atomsBelow_inOrder (h.nested.of_mem_preorder ht).2
  have hnot := pullBack_not_inside hord.apart (l.limitOffset limit content) ha
  have hin := (h.atoms t ht l hl a ha).2.2
  rcases Nat.lt_or_ge a.start (pullBack l.atoms (l.limitOffset limit content)) with hlt | hge
  · exact .inr (.inl (Nat.le_of_not_lt fun hstop => hnot ⟨hlt, hstop⟩))
  · exact .inl ⟨hge, hin⟩

theorem Regular.truncation_laminar {a s : Span} (ha : a ∈ l.atoms) (hs : a.Holds s) :
    c.span.Laminar s := by
  rcases h.truncation_atom ht hl hc ha with hin | hout
  · exact (hin.trans hs).laminar
  · exact (hout.symm.mono (Holds.refl _) hs).laminar

end Literals

section Pairs

variable {language : Language} {text : List Char} {tree : Tree}
  (h : Regular language text tree)

include h

theorem Regular.literals_laminar {t u : Tree} {l m : Literal} {limit : Nat} {c d : Cut}
    (ht : t ∈ tree.preorder) (hl : literal? language text t = some l)
    (hc : l.truncation? text limit = some c) (hu : u ∈ tree.preorder)
    (hm : literal? language text u = some m) (hd : m.truncation? text limit = some d) :
    c.span.Laminar d.span := by
  have hct := h.holds_truncation ht hl hc
  have hdu := h.holds_truncation hu hm hd
  rcases h.nested.trichotomy ht hu with rfl | htu | hut | hap
  · obtain rfl : l = m := Option.some.inj (hl.symm.trans hm)
    obtain rfl : c = d := Option.some.inj (hc.symm.trans hd)
    exact (Holds.refl _).laminar
  · obtain ⟨a, ha, h1, h2⟩ := h.literalsInside u hu m hm t htu (by rw [hl]; rfl)
    have hat : a.Holds t.span := ⟨Nat.le_of_lt h1, h2⟩
    exact (h.truncation_laminar hu hm hd ha (hat.trans hct)).symm
  · obtain ⟨a, ha, h1, h2⟩ := h.literalsInside t ht l hl u hut (by rw [hm]; rfl)
    have hau : a.Holds u.span := ⟨Nat.le_of_lt h1, h2⟩
    exact h.truncation_laminar ht hl hc ha (hau.trans hdu)
  · exact (hap.mono hct hdu).laminar

-- A block below a literal lies inside an atom, a literal below a block is never cut, and where the
-- two are apart the literal's closing quote stops the block from reaching back.
theorem Regular.literal_bracedCut_laminar {t block : Tree} {l : Literal} {limit : Nat} {c : Cut}
    (ht : t ∈ tree.preorder) (hl : literal? language text t = some l)
    (hc : l.truncation? text limit = some c) (hb : block ∈ blocks language tree)
    (hout : ¬block.span.Holds t.span) : c.span.Laminar (bracedCut text block) := by
  obtain ⟨f, hf, helides, hblock, hkind⟩ := mem_blocks.mp hb
  have hct := h.holds_truncation ht hl hc
  have hfn := (h.nested.of_mem_preorder hf).2
  have hinside : f ∈ t.preorder → c.span.Laminar (bracedCut text block) := by
    intro hft
    obtain ⟨a, ha, h1, h2⟩ :=
      h.blocksInside t ht l hl block (mem_blocks.mpr ⟨f, hft, helides, hblock, hkind⟩)
    have hcut := lt_cutStart block h1 (h.atoms t ht l hl a ha).1
    exact h.truncation_laminar ht hl hc ha ⟨Nat.le_of_lt hcut, h2⟩
  have hapart : t.span.Apart block.span → c.span.Laminar (bracedCut text block) := by
    rintro (hle | hle)
    · have hcut := stop_le_cutStart block (h.solidLiterals t ht (by rw [hl]; rfl)) hle
      exact .inl (.inl (Nat.le_trans hct.2 hcut))
    · exact .inl (.inr (Nat.le_trans hle hct.1))
  rcases h.nested.trichotomy ht hf with rfl | htf | hft | hap
  · exact hinside (Tree.self_mem_preorder _)
  · obtain ⟨d, hd, htd⟩ := Tree.mem_descendants.mp htf
    have hdt := ((hfn.child hd).2.of_mem_preorder htd).1
    rcases hfn.siblings hd hblock with rfl | hap
    · exact absurd hdt hout
    · exact hapart (Apart.mono hap hdt (Holds.refl _))
  · exact hinside (Tree.mem_preorder.mpr (.inr hft))
  · exact hapart (hap.mono (Holds.refl _) (hfn.child hblock).1)

end Pairs

section Colons

variable {f block colon : Tree} {b : Body} (hi : Indented f block colon b) (hn : f.WellNested)
  (hblock : block ∈ f.children)

include hi hn hblock

theorem Indented.cutStart_eq_or_le : b.cutStart = colon.stop ∨ block.start ≤ b.cutStart := by
  rcases hi.cutStart with he | ⟨s, hs, he⟩
  · exact .inl he
  · have hbn := (hn.child hblock).2
    rw [he]
    exact .inr (Nat.le_trans (hbn.child hs).1.1 (hbn.child hs).2.start_le_stop)

theorem Indented.stop_le_cutStart : colon.stop ≤ b.cutStart := by
  have hle := hi.stop_le
  rcases hi.cutStart_eq_or_le hn hblock with he | hge <;> omega

theorem Indented.holds_cut : f.span.Holds ⟨b.cutStart, block.stop⟩ := by
  have hfc := (hn.child hi.mem).1.1
  have hcc := (hn.child hi.mem).2.start_le_stop
  have hcut := hi.stop_le_cutStart hn hblock
  exact ⟨Nat.le_trans hfc (Nat.le_trans hcc hcut), (hn.child hblock).1.2⟩

theorem Indented.apart_or_holds {x : Tree} (hx : x ∈ f.descendants) (hne : x ≠ block) :
    Span.Apart ⟨b.cutStart, block.stop⟩ x.span ∨ Span.Holds ⟨b.cutStart, block.stop⟩ x.span := by
  obtain ⟨c, hc, hxc⟩ := Tree.mem_descendants.mp hx
  have hbn := (hn.child hblock).2
  have hbs := hbn.start_le_stop
  have hcut := hi.stop_le_cutStart hn hblock
  have hstop := hi.stop_le
  have hcolon := (hn.child hi.mem).2.start_le_stop
  obtain ⟨hcx1, hcx2⟩ : c.start ≤ x.start ∧ x.stop ≤ c.stop :=
    ((hn.child hc).2.of_mem_preorder hxc).1
  change (block.stop ≤ x.start ∨ x.stop ≤ b.cutStart) ∨
    (b.cutStart ≤ x.start ∧ x.stop ≤ block.stop)
  rcases hn.siblings hc hblock with rfl | hbefore | hafter
  · -- the node lies in a statement of the block
    have hxd := (Tree.mem_preorder.mp hxc).resolve_left hne
    obtain ⟨e, he, hxe⟩ := Tree.mem_descendants.mp hxd
    obtain ⟨hex1, hex2⟩ : e.start ≤ x.start ∧ x.stop ≤ e.stop :=
      ((hbn.child he).2.of_mem_preorder hxe).1
    rcases hi.cutStart with heq | ⟨s, hs, heq⟩
    · omega
    · have hss := (hbn.child hs).2.start_le_stop
      rcases hbn.siblings he hs with rfl | hes | hse <;> omega
  · rcases hi.cutStart_eq_or_le hn hblock with heq | hge
    · rcases hn.siblings hc hi.mem with rfl | hcc | hcc <;> omega
    · omega
  · omega

theorem Indented.siblings_laminar {other colon' : Tree} {o : Body}
    (ho : Indented f other colon' o) (hother : other ∈ f.children)
    (hle : block.stop ≤ other.start) :
    Span.Laminar ⟨b.cutStart, block.stop⟩ ⟨o.cutStart, other.stop⟩ := by
  have hcut := hi.stop_le_cutStart hn hblock
  have hocut := ho.stop_le_cutStart hn hother
  have hos := (hn.child hother).2.start_le_stop
  have hcs := (hn.child ho.mem).2.start_le_stop
  rcases ho.cutStart_eq_or_le hn hother with heq | hge
  · rcases hn.siblings ho.mem hblock with rfl | hbefore | hafter
    · exact .inl (.inl hocut)
    · have hlast := hi.last colon' ho.mem ho.kind hbefore
      refine .inr (.inr ⟨?_, Nat.le_trans hle hos⟩)
      change o.cutStart ≤ b.cutStart
      omega
    · exact .inl (.inl (Nat.le_trans hafter (Nat.le_trans hcs hocut)))
  · exact .inl (.inl (Nat.le_trans hle hge))

end Colons

def candidates (language : Language) (text : List Char) (tree : Tree) (options : PlanOptions) :
    List Cut :=
  Plan.candidates text (ofTree language text tree).bodies (ofTree language text tree).literals
    options

section Candidates

variable {language : Language} {text : List Char} {tree : Tree} {options : PlanOptions} {c d : Cut}

theorem braced_origin (hpy : language ≠ .python) (hc : c ∈ candidates language text tree options) :
    (∃ t ∈ tree.preorder, ∃ l, literal? language text t = some l ∧
      l.truncation? text options.limit = some c ∧
      ∀ block ∈ blocks language tree, ¬block.span.Holds t.span) ∨
    ∃ block ∈ blocks language tree, c.span = bracedCut text block := by
  rcases Plan.mem_candidates.mp hc with ⟨l, hl, hout, hcut⟩ | ⟨b, hb, hcut⟩
  · obtain ⟨t, ht, hl⟩ := mem_literals.mp hl
    refine .inl ⟨t, ht, l, literal?_eq_some_iff.mpr hl, hcut, fun block hblock => ?_⟩
    obtain ⟨f, hf, helides, hchild, hkind⟩ := mem_blocks.mp hblock
    rw [← literalOf?_span hl.2]
    exact hout (bracedBody text block) (mem_bodies.mpr
      ⟨f, hf, mem_bodiesOf.mpr ⟨helides, block, hchild, hkind, .inr ⟨hpy, rfl⟩⟩⟩)
  · obtain ⟨f, hf, hb⟩ := mem_bodies.mp hb
    obtain ⟨helides, block, hchild, hkind, ⟨hp, -⟩ | ⟨-, rfl⟩⟩ := mem_bodiesOf.mp hb
    · exact absurd hp hpy
    · obtain ⟨-, rfl⟩ := Plan.elision?_eq_some_iff.mp hcut
      exact .inr ⟨block, mem_blocks.mpr ⟨f, hf, helides, hchild, hkind⟩, rfl⟩

theorem Regular.braced_laminar (h : Regular language text tree) (hpy : language ≠ .python)
    (hc : c ∈ candidates language text tree options)
    (hd : d ∈ candidates language text tree options) : c.span.Laminar d.span := by
  rcases braced_origin hpy hc with ⟨t, ht, l, hl, hcl, hct⟩ | ⟨b, hb, hcb⟩ <;>
    rcases braced_origin hpy hd with ⟨u, hu, m, hm, hdm, hdu⟩ | ⟨e, he, hde⟩
  · exact h.literals_laminar ht hl hcl hu hm hdm
  · rw [hde]
    exact h.literal_bracedCut_laminar ht hl hcl he (hct e he)
  · rw [hcb]
    exact (h.literal_bracedCut_laminar hu hm hdm hb (hdu b hb)).symm
  · rw [hcb, hde]
    exact bracedCut_laminar h.nested (mem_preorder_of_mem_blocks hb) (mem_preorder_of_mem_blocks he)
      (h.solidBlocks hpy b hb) (h.solidBlocks hpy e he)

def TakesBody (text : List Char) (tree f block : Tree) (s : Span) : Prop :=
  f ∈ tree.preorder ∧ f.kind = .function ∧ block ∈ f.children ∧ block.kind = .block ∧
    ∃ b, indentedBody? text f block = some b ∧ s = ⟨b.cutStart, block.stop⟩

theorem python_origin (h : Regular .python text tree)
    (hc : c ∈ candidates .python text tree options) :
    (∃ t ∈ tree.preorder, ∃ l, literal? .python text t = some l ∧
      l.truncation? text options.limit = some c) ∨
    ∃ f block, TakesBody text tree f block c.span := by
  rcases Plan.mem_candidates.mp hc with ⟨l, hl, -, hcut⟩ | ⟨b, hb, hcut⟩
  · obtain ⟨t, ht, hl⟩ := mem_literals.mp hl
    exact .inl ⟨t, ht, l, literal?_eq_some_iff.mpr hl, hcut⟩
  · obtain ⟨f, hf, hb⟩ := mem_bodies.mp hb
    obtain ⟨helides, block, hchild, hkind, ⟨-, hbody⟩ | ⟨hp, -⟩⟩ := mem_bodiesOf.mp hb
    · obtain ⟨-, rfl⟩ := Plan.elision?_eq_some_iff.mp hcut
      obtain ⟨colon, hi⟩ := indentedBody?_indented (h.nested.of_mem_preorder hf).2 hbody
      have hfunction : f.kind = .function := by simpa [Language.elides] using helides
      refine .inr ⟨f, block, hf, hfunction, hchild, hkind, b, hbody, ?_⟩
      rw [hi.span]
    · exact absurd rfl hp

section Functions

variable {f g block other : Tree} {s : Span} (h : Regular .python text tree)
  (hs : TakesBody text tree f block s)

include h hs

theorem TakesBody.holds : f.span.Holds s := by
  obtain ⟨hf, -, hchild, -, b, hb, rfl⟩ := hs
  have hn := (h.nested.of_mem_preorder hf).2
  obtain ⟨colon, hi⟩ := indentedBody?_indented hn hb
  exact hi.holds_cut hn hchild

theorem TakesBody.laminar_of_descendant {x : Tree} (hx : x ∈ f.descendants) (hk : x.kind ≠ .block)
    {r : Span} (hr : x.span.Holds r) : s.Laminar r := by
  obtain ⟨hf, -, hchild, hkind, b, hb, rfl⟩ := hs
  have hn := (h.nested.of_mem_preorder hf).2
  obtain ⟨colon, hi⟩ := indentedBody?_indented hn hb
  have hne : x ≠ block := fun he => hk (he ▸ hkind)
  rcases hi.apart_or_holds hn hchild hx hne with hap | hin
  · exact (hap.mono (Holds.refl _) hr).laminar
  · exact (hin.trans hr).laminar

theorem TakesBody.laminar {r : Span} (hr : TakesBody text tree g other r) : s.Laminar r := by
  have hfs := hs.holds h
  have hgr := hr.holds h
  rcases h.nested.trichotomy hs.1 hr.1 with rfl | hfg | hgf | hap
  · obtain ⟨hf, -, hchild, -, b, hb, rfl⟩ := hs
    obtain ⟨-, -, hother, -, o, ho, rfl⟩ := hr
    have hn := (h.nested.of_mem_preorder hf).2
    obtain ⟨colon, hi⟩ := indentedBody?_indented hn hb
    obtain ⟨colon', hi'⟩ := indentedBody?_indented hn ho
    rcases hn.siblings hchild hother with rfl | hle | hle
    · obtain rfl : b = o := Option.some.inj (hb.symm.trans ho)
      exact (Holds.refl _).laminar
    · exact hi.siblings_laminar hn hchild hi' hother hle
    · exact (hi'.siblings_laminar hn hother hi hchild hle).symm
  · exact (hr.laminar_of_descendant h hfg (by rw [hs.2.1]; decide) hfs).symm
  · exact hs.laminar_of_descendant h hgf (by rw [hr.2.1]; decide) hgr
  · exact (hap.mono hfs hgr).laminar

-- No function is below a string, so a string is below the function or apart from it.
theorem TakesBody.laminar_literal {t : Tree} {l : Literal} {limit : Nat} (ht : t ∈ tree.preorder)
    (hl : literal? .python text t = some l) (hc : l.truncation? text limit = some c) :
    s.Laminar c.span := by
  have hkind : t.kind = .string := by
    simpa [Language.shortens] using (literal?_eq_some_iff.mp hl).1
  have hct := h.holds_truncation ht hl hc
  rcases h.nested.trichotomy hs.1 ht with rfl | hft | htf | hap
  · rw [hs.2.1] at hkind
    cases hkind
  · exact absurd hs.2.1 (h.strings rfl t ht hkind f hft)
  · exact hs.laminar_of_descendant h htf (by rw [hkind]; decide) hct
  · exact (hap.mono (hs.holds h) hct).laminar

end Functions

theorem Regular.python_laminar (h : Regular .python text tree)
    (hc : c ∈ candidates .python text tree options)
    (hd : d ∈ candidates .python text tree options) : c.span.Laminar d.span := by
  rcases python_origin h hc with ⟨t, ht, l, hl, hcl⟩ | ⟨f, b, hb⟩ <;>
    rcases python_origin h hd with ⟨u, hu, m, hm, hdm⟩ | ⟨g, e, he⟩
  · exact h.literals_laminar ht hl hcl hu hm hdm
  · exact (he.laminar_literal h ht hl hcl).symm
  · exact hb.laminar_literal h hu hm hdm
  · exact hb.laminar h he

theorem Regular.candidates_laminar (h : Regular language text tree)
    (hc : c ∈ candidates language text tree options)
    (hd : d ∈ candidates language text tree options) : c.span.Laminar d.span := by
  by_cases hpy : language = .python
  · subst hpy
    exact h.python_laminar hc hd
  · exact h.braced_laminar hpy hc hd

end Candidates

/-- A plan can be made from the outline of a regular tree, so abridging its text never ends in a
conflict. -/
theorem regular_plans {language : Language} {text : List Char} {tree : Tree}
    (h : Regular language text tree) :
    (∀ options, ∃ cuts, plan text (ofTree language text tree).bodies
      (ofTree language text tree).literals options = .ok cuts) ∧
    ∀ path options path' first second,
      Abridge.withOutline language path text options (ofTree language text tree) ≠
        .error (.conflict path' first second) := by
  have hplan : ∀ options, ∃ cuts, plan text (ofTree language text tree).bodies
      (ofTree language text tree).literals options = .ok cuts := by
    intro options
    refine Plan.plan_isOk_iff.mpr fun a b ha hb => ?_
    obtain ⟨c, hc, rfl⟩ := List.mem_map.mp ha.1
    obtain ⟨d, hd, rfl⟩ := List.mem_map.mp hb.1
    exact (h.candidates_laminar hc hd).not_crosses
  refine ⟨hplan, fun path options path' first second => ?_⟩
  obtain ⟨cuts, hcuts⟩ := hplan ⟨options.limit, language.placeholder?⟩
  unfold Abridge.withOutline
  rw [hcuts]
  simp only [Abridge.layout, Abridge.layoutTree]
  split
  · split <;> intro he <;> cases he
  · intro he
    cases he

def functionInTemplate : Tree :=
  .node .file ⟨0, 19⟩ false [.node .template ⟨4, 19⟩ false [.node .interpolation ⟨5, 17⟩ false
    [.node .arrow ⟨7, 16⟩ false [.node .block ⟨13, 16⟩ false []]]]]

theorem regular_plans_functionInTemplate :
    Regular .javaScript "x = `$\x7b() => \x7bb\x7d\x7dc`".toList functionInTemplate ∧
    ∀ options, ∃ cuts, plan "x = `$\x7b() => \x7bb\x7d\x7dc`".toList
      (ofTree .javaScript "x = `$\x7b() => \x7bb\x7d\x7dc`".toList functionInTemplate).bodies
      (ofTree .javaScript "x = `$\x7b() => \x7bb\x7d\x7dc`".toList functionInTemplate).literals
        options = .ok cuts := by
  have hr : Regular .javaScript "x = `$\x7b() => \x7bb\x7d\x7dc`".toList functionInTemplate := by
    decide +kernel
  exact ⟨hr, (regular_plans hr).1⟩

end Synopsis.Outline
