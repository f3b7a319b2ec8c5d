import Synopsis.Proofs.NestedCuts
import Synopsis.Proofs.Placement

/-!
# Strings that document functions

Where the body of a function begins with a string, no cut takes anything from the colon of the
function's header to the end of that string: strings inside a body are never cut, the body's own cut
begins behind the string, and cuts of other bodies are apart from it, unless they are inside what is
left out anyway. So the text up to the end of the string comes out as it is, followed by one marker
if there is more in the body.
-/

namespace Synopsis

open Syntax Synopsis.Span

namespace Syntax.Tree

theorem exists_preorder_split {f t : Tree} (ht : t.WellNested) (hf : f ∈ t.preorder) :
    ∃ pre post, t.preorder = pre ++ f :: post ∧
      ∀ x ∈ pre, f ∈ x.descendants ∨ x.stop ≤ f.start := by
  induction t using children_induction with
  | step t ih =>
    rcases mem_preorder.mp hf with rfl | hf'
    · exact ⟨[], f.descendants, preorder_eq_cons f, by simp⟩
    · obtain ⟨c, hc, hfc⟩ := mem_descendants.mp hf'
      obtain ⟨pre, post, hsplit, hpre⟩ := ih c hc (ht.child hc).2 hfc
      obtain ⟨left, right, hchildren⟩ := List.append_of_mem hc
      refine ⟨t :: left.flatMap preorder ++ pre, post ++ right.flatMap preorder, ?_, ?_⟩
      · rw [preorder_eq_cons, descendants, preorderAll_eq_flatMap, hchildren, List.flatMap_append,
          List.flatMap_cons, hsplit]
        simp
      · intro x hx
        rcases List.mem_append.mp hx with hx | hx
        · rcases List.mem_cons.mp hx with rfl | hx
          · exact .inl hf'
          · obtain ⟨d, hd, hxd⟩ := List.mem_flatMap.mp hx
            have hdc : d.stop ≤ c.start := by
              have hord := ht.nestedWithin.inOrder
              rw [hchildren] at hord
              exact (List.pairwise_append.mp hord).2.2 d hd c (by simp)
            have hdt : d ∈ t.children := by simp [hchildren, hd]
            have hxd' := ((ht.child hdt).2.of_mem_preorder hxd).1.2
            have hcf := ((ht.child hc).2.of_mem_preorder hfc).1.1
            exact .inr (Nat.le_trans hxd' (Nat.le_trans hdc hcf))
        · exact hpre x hx

end Syntax.Tree

namespace Outline

/-- A function that stands in no other function's body, and whose block begins with a string,
comments apart. No function stands between its colon and the end of the string. -/
structure Documented (text : List Char) (tree f block colon doc : Tree) : Prop where
  mem : f ∈ tree.preorder
  kind : f.kind = .function
  onlyBlock : f.children.filter (·.kind == .block) = [block]
  lastColon : (f.children.filter fun c => c.kind == .token ":" && c.stop ≤ block.start).getLast? =
    some colon
  first : block.namedChildren.find? (·.kind != .comment) = some doc
  docstring : isDocstring doc = true
  spelled : Text.slice? text colon.span = some [':']
  ends : ∃ said c, Text.slice? text doc.span = some (said ++ [c]) ∧ Text.isBlank c = false
  outside : ∀ g ∈ tree.preorder, f ∈ g.descendants → ∀ b ∈ bodiesOf .python text g,
    ¬b.span.Holds f.span
  clear : ∀ g ∈ f.descendants, g.kind = .function → g.stop ≤ colon.start ∨ doc.stop ≤ g.start

def bodyIndent (text : List Char) (f colon doc : Tree) : List Char :=
  if (Text.position doc.start text).row = (Text.position colon.stop text).row then
    lineIndent text f.start ++ indentStep text (lineIndent text f.start)
  else lineIndent text doc.start

theorem indentedBody?_of_docstring {text : List Char} {f block colon doc : Tree}
    (hcolon : (f.children.filter fun c => c.kind == .token ":" && c.stop ≤ block.start).getLast? =
      some colon)
    (hfirst : block.namedChildren.find? (·.kind != .comment) = some doc)
    (hdoc : isDocstring doc = true) :
    indentedBody? text f block =
      some ⟨⟨colon.stop, block.stop⟩, doc.stop, some (bodyIndent text f colon doc)⟩ := by
  simp only [indentedBody?, hcolon, hfirst, hdoc, Option.map_some, if_true, bodyIndent, beq_iff_eq]

def restCut (text : List Char) (f block colon doc : Tree) : Cut :=
  ⟨⟨doc.stop, block.stop⟩, '\n' :: (bodyIndent text f colon doc ++ "pass".toList)⟩

theorem wellNested_holds_truncation {language : Language} {text : List Char} {t : Tree}
    {l : Literal} {limit : Nat} {c : Cut} (hn : t.WellNested)
    (hl : literalOf? language text t = some l) (hc : l.truncation? text limit = some c) :
    t.start ≤ c.span.start ∧ c.span.stop < t.stop := by
  obtain ⟨content, hslice, hlt, rfl⟩ := Literal.truncation?_eq_some_iff.mp hc
  obtain ⟨h1, h2, h3⟩ := literalOf?_content hl
  refine ⟨?_, h3⟩
  change t.start ≤ pullBack l.atoms (l.limitOffset limit content)
  rcases pullBack_cases l.atoms (l.limitOffset limit content) with ⟨he, -⟩ | ⟨a, ha, -, he⟩
  · rw [he]
    unfold Literal.limitOffset
    omega
  · rw [literalOf?_atoms hl] at ha
    obtain ⟨n, hmem, -, rfl⟩ := mem_atomsBelow ha
    rw [he]
    exact (hn.holds_of_mem_descendants hmem).1

theorem wellNested_holds_body {text : List Char} {g : Tree} (hn : g.WellNested) {b : Body}
    (hb : b ∈ bodiesOf .python text g) : g.span.Holds ⟨b.cutStart, b.span.stop⟩ := by
  obtain ⟨-, block, hblock, -, ⟨-, hbody⟩ | ⟨hp, -⟩⟩ := mem_bodiesOf.mp hb
  · obtain ⟨colon, hi⟩ := indentedBody?_indented hn hbody
    rw [hi.span]
    exact hi.holds_cut hn hblock
  · exact absurd rfl hp

namespace Documented

variable {text : List Char} {tree f block colon doc : Tree} {limit : Nat} {c : Cut}
  (h : Documented text tree f block colon doc) (hn : tree.WellNested)

include h

theorem mem_children : block ∈ f.children ∧ block.kind = .block ∧ colon ∈ f.children ∧
    colon.kind = .token ":" ∧ colon.stop ≤ block.start ∧ doc ∈ block.children := by
  have hblock : block ∈ f.children.filter (·.kind == .block) := by simp [h.onlyBlock]
  have hcolon := List.mem_of_getLast? h.lastColon
  have hdoc := List.mem_of_find?_eq_some h.first
  simp only [List.mem_filter, Bool.and_eq_true, beq_iff_eq, decide_eq_true_eq] at hblock hcolon
  exact ⟨hblock.1, hblock.2, hcolon.1, hcolon.2.1, hcolon.2.2, (List.mem_filter.mp hdoc).1⟩

theorem bodiesOf_eq : bodiesOf .python text f =
    [⟨⟨colon.stop, block.stop⟩, doc.stop, some (bodyIndent text f colon doc)⟩] := by
  have helides : Language.elides .python f.kind = true := by rw [h.kind]; rfl
  simp [bodiesOf, helides, h.onlyBlock,
    indentedBody?_of_docstring h.lastColon h.first h.docstring]

theorem colon_width : colon.stop = colon.start + 1 := by
  obtain ⟨before, after, -, hb, hstop⟩ := Text.slice?_eq_some_iff.mp h.spelled
  change Text.byteLength before = colon.start at hb
  change _ = colon.stop at hstop
  rw [← hstop, hb]
  rfl

include hn

theorem order : f.WellNested ∧ colon.stop ≤ block.start ∧ block.start ≤ doc.start ∧
    doc.start ≤ doc.stop ∧ doc.stop ≤ block.stop ∧ f.start ≤ colon.start ∧
    block.stop ≤ f.stop := by
  obtain ⟨hblock, -, hcolon, -, hle, hdoc⟩ := h.mem_children
  have hf := (hn.of_mem_preorder h.mem).2
  have hbn := (hf.child hblock).2
  exact ⟨hf, hle, (hbn.child hdoc).1.1, (hbn.child hdoc).2.start_le_stop, (hbn.child hdoc).1.2,
    (hf.child hcolon).1.1, (hf.child hblock).1.2⟩

theorem descendant_cases {x : Tree} (hx : x ∈ f.descendants) :
    colon.span.Holds x.span ∨ x.stop ≤ colon.start ∨ block.stop ≤ x.start ∨
      Span.Holds ⟨colon.stop, block.stop⟩ x.span := by
  obtain ⟨hblock, -, hcolon, -, hle, -⟩ := h.mem_children
  have hf := (hn.of_mem_preorder h.mem).2
  obtain ⟨e, he, hxe⟩ := Tree.mem_descendants.mp hx
  have hex : e.start ≤ x.start ∧ x.stop ≤ e.stop := ((hf.child he).2.of_mem_preorder hxe).1
  rcases hf.siblings he hblock with rfl | hbefore | hafter
  · exact .inr (.inr (.inr ⟨Nat.le_trans hle hex.1, hex.2⟩))
  · rcases hf.siblings he hcolon with rfl | hleft | hright
    · exact .inl hex
    · exact .inr (.inl (Nat.le_trans hex.2 hleft))
    · have hbs := (hf.child hblock).2.start_le_stop
      refine .inr (.inr (.inr ⟨Nat.le_trans hright hex.1, ?_⟩))
      exact Nat.le_trans hex.2 (Nat.le_trans hbefore hbs)
  · exact .inr (.inr (.inl (Nat.le_trans hafter hex.1)))

-- A string in the body is never cut, and no other string reaches the colon or the body.
theorem literal_apart
    (hs : ∀ t ∈ tree.preorder, t.kind = .string → ∀ n ∈ t.descendants, n.kind ≠ .function)
    {l : Literal} (hl : l ∈ (ofTree .python text tree).literals)
    (hout : ∀ b ∈ (ofTree .python text tree).bodies, ¬b.span.Holds l.span)
    (hc : l.truncation? text limit = some c) :
    c.span.Apart ⟨colon.start, block.stop⟩ := by
  obtain ⟨t, ht, hshort, hl⟩ := mem_literals.mp hl
  have hkind : t.kind = .string := by simpa [Language.shortens] using hshort
  obtain ⟨hct1, hct2⟩ := wellNested_holds_truncation (hn.of_mem_preorder ht).2 hl hc
  obtain ⟨-, -, -, -, -, hfc, hbf⟩ := h.order hn
  rcases hn.trichotomy ht h.mem with rfl | htf | hft | hap
  · have hfun := h.kind
    rw [hkind] at hfun
    cases hfun
  · rcases h.descendant_cases hn htf with hin | hleft | hright | hin
    · -- inside the colon there is no room for a string
      have hne := Literal.truncation?_nonempty hc
      have hwidth := h.colon_width
      obtain ⟨h1, h2⟩ : colon.start ≤ t.start ∧ t.stop ≤ colon.stop := hin
      omega
    · exact .inl (Nat.le_trans (Nat.le_of_lt hct2) hleft)
    · exact .inr (Nat.le_trans hright hct1)
    · have hbody := h.bodiesOf_eq ▸ List.mem_singleton_self _
      refine absurd ?_ (hout _ (mem_bodies.mpr ⟨f, h.mem, hbody⟩))
      rw [literalOf?_span hl]
      exact hin
  · exact absurd h.kind (hs t ht hkind f hft)
  · exact hap.mono ⟨hct1, Nat.le_of_lt hct2⟩ ⟨hfc, hbf⟩

theorem body_above_apart {g : Tree} (hg : g ∈ tree.preorder) (hfg : f ∈ g.descendants) {b : Body}
    (hb : b ∈ bodiesOf .python text g) :
    Span.Apart ⟨b.cutStart, b.span.stop⟩ ⟨colon.start, block.stop⟩ := by
  obtain ⟨-, -, -, -, -, hfc, hbf⟩ := h.order hn
  have hgn := (hn.of_mem_preorder hg).2
  obtain ⟨-, other, hother, hkind, ⟨-, hbody⟩ | ⟨hp, -⟩⟩ := mem_bodiesOf.mp hb
  · obtain ⟨colon', hi⟩ := indentedBody?_indented hgn hbody
    have hne : f ≠ other := by
      rintro rfl
      have hfun := h.kind
      rw [hkind] at hfun
      cases hfun
    have hcut := hi.stop_le_cutStart hgn hother
    have houtside := h.outside g hg hfg b hb
    rw [hi.span] at houtside ⊢
    rcases hi.apart_or_holds hgn hother hfg hne with hap | hin
    · exact hap.mono (Holds.refl _) ⟨hfc, hbf⟩
    · exact absurd ⟨Nat.le_trans hcut hin.1, hin.2⟩ houtside
  · exact absurd rfl hp

theorem body_cases {g : Tree} (hg : g ∈ tree.preorder) (hne : g ≠ f) {b : Body}
    (hb : b ∈ bodiesOf .python text g) (hlt : b.cutStart < b.span.stop) :
    Span.Apart ⟨b.cutStart, b.span.stop⟩ ⟨colon.start, block.stop⟩ ∨
      Span.Holds ⟨doc.stop, block.stop⟩ ⟨b.cutStart, b.span.stop⟩ := by
  obtain ⟨-, hcb, hbd, hds, hdb, hfc, hbf⟩ := h.order hn
  have hgn := (hn.of_mem_preorder hg).2
  have hholds := wellNested_holds_body hgn hb
  rcases hn.trichotomy hg h.mem with he | hgf | hfg | hap
  · exact absurd he hne
  · obtain ⟨h1, h2⟩ : g.start ≤ b.cutStart ∧ b.span.stop ≤ g.stop := hholds
    have hfun : g.kind = .function := by
      simpa [Language.elides] using (mem_bodiesOf.mp hb).1
    rcases h.clear g hgf hfun with hleft | hright
    · exact .inl (.inl (Nat.le_trans h2 hleft))
    · rcases h.descendant_cases hn hgf with hin | hleft' | hright' | hin
      · obtain ⟨-, h4⟩ : colon.start ≤ g.start ∧ g.stop ≤ colon.stop := hin
        omega
      · exact .inl (.inl (Nat.le_trans h2 hleft'))
      · exact .inl (.inr (Nat.le_trans hright' h1))
      · exact .inr ⟨Nat.le_trans hright h1, Nat.le_trans h2 hin.2⟩
  · exact .inl (h.body_above_apart hn hg hfg hb)
  · exact .inl (hap.mono hholds ⟨hfc, hbf⟩)

variable (hs : ∀ t ∈ tree.preorder, t.kind = .string → ∀ n ∈ t.descendants, n.kind ≠ .function)

include hs

/-- Every cut asked for stays away from the colon and the body, or lies in the rest of the body. -/
theorem candidate_cases
    (hc : c ∈ candidates .python text tree ⟨limit, Language.placeholder? .python⟩) :
    c.span.Apart ⟨colon.start, block.stop⟩ ∨ Span.Holds ⟨doc.stop, block.stop⟩ c.span := by
  rcases Plan.mem_candidates.mp hc with ⟨l, hl, hout, hcut⟩ | ⟨b, hb, hcut⟩
  · exact .inl (h.literal_apart hn hs hl hout hcut)
  · obtain ⟨g, hg, hb⟩ := mem_bodies.mp hb
    obtain ⟨hlt, rfl⟩ := Plan.elision?_eq_some_iff.mp hcut
    by_cases hgf : g = f
    · subst hgf
      rw [h.bodiesOf_eq, List.mem_singleton] at hb
      subst hb
      exact .inr (Holds.refl _)
    · exact h.body_cases hn hg hgf hb hlt

-- The function comes before the functions in its body, so its own cut is asked for first.
theorem find_restCut (hlt : doc.stop < block.stop) :
    (candidates .python text tree ⟨limit, Language.placeholder? .python⟩).find?
      (fun d => d.span = ⟨doc.stop, block.stop⟩) = some (restCut text f block colon doc) := by
  obtain ⟨-, hcb, hbd, hds, -, hfc, hbf⟩ := h.order hn
  have hwidth := h.colon_width
  have hnot : ∀ s : Span, s.Apart ⟨colon.start, block.stop⟩ → s ≠ ⟨doc.stop, block.stop⟩ := by
    rintro s (hle | hle) rfl
    · change block.stop ≤ colon.start at hle
      omega
    · change block.stop ≤ doc.stop at hle
      omega
  obtain ⟨pre, post, hsplit, hpre⟩ := Tree.exists_preorder_split hn h.mem
  have hself : (bodiesOf .python text f).filterMap
      (·.elision? (Language.placeholder? .python)) = [restCut text f block colon doc] := by
    rw [h.bodiesOf_eq]
    simp [Body.elision?, hlt, restCut, Body.marker, Language.placeholder?]
  have hearlier : ∀ d ∈ (pre.flatMap (bodiesOf .python text)).filterMap
      (·.elision? (Language.placeholder? .python)), d.span ≠ ⟨doc.stop, block.stop⟩ := by
    intro d hd
    obtain ⟨b, hb, hcut⟩ := List.mem_filterMap.mp hd
    obtain ⟨g, hg, hb⟩ := List.mem_flatMap.mp hb
    obtain ⟨-, rfl⟩ := Plan.elision?_eq_some_iff.mp hcut
    have hgt : g ∈ tree.preorder := by simp [hsplit, hg]
    rcases hpre g hg with hfg | hle
    · exact hnot _ (h.body_above_apart hn hgt hfg hb)
    · have hap : g.span.Apart f.span := .inl hle
      exact hnot _ (hap.mono (wellNested_holds_body (hn.of_mem_preorder hgt).2 hb) ⟨hfc, hbf⟩)
  have hliterals : ∀ d ∈ ((ofTree .python text tree).literals.filter fun l =>
      !(ofTree .python text tree).bodies.any fun b => b.span.Holds l.span).filterMap
        (·.truncation? text limit), d.span ≠ ⟨doc.stop, block.stop⟩ := by
    intro d hd
    obtain ⟨l, hl, hcut⟩ := List.mem_filterMap.mp hd
    obtain ⟨hl, hout⟩ := List.mem_filter.mp hl
    simp only [Bool.not_eq_true', List.any_eq_false, decide_eq_true_eq] at hout
    exact hnot _ (h.literal_apart hn hs hl hout hcut)
  have hbodies : (ofTree .python text tree).bodies.filterMap
      (·.elision? (Language.placeholder? .python)) =
        (pre.flatMap (bodiesOf .python text)).filterMap
          (·.elision? (Language.placeholder? .python)) ++ restCut text f block colon doc ::
        (post.flatMap (bodiesOf .python text)).filterMap
          (·.elision? (Language.placeholder? .python)) := by
    simp only [ofTree, hsplit, List.flatMap_append, List.flatMap_cons, List.filterMap_append, hself,
      List.singleton_append]
  have hnone : ∀ cs : List Cut, (∀ d ∈ cs, d.span ≠ ⟨doc.stop, block.stop⟩) →
      cs.find? (fun d => d.span = ⟨doc.stop, block.stop⟩) = none := by
    intro cs hcs
    simpa [List.find?_eq_none] using hcs
  rw [candidates, Plan.candidates, List.find?_append, hnone _ hliterals, Option.none_or, hbodies,
    List.find?_append, hnone _ hearlier, Option.none_or]
  simp [restCut]

theorem restCut_mem {cuts : List Cut}
    (hplan : plan text (ofTree .python text tree).bodies (ofTree .python text tree).literals
      ⟨limit, Language.placeholder? .python⟩ = .ok cuts) (hlt : doc.stop < block.stop) :
    restCut text f block colon doc ∈ cuts := by
  have hkept := Plan.plan_kept hplan
  have hfind := @find_restCut _ _ _ _ _ _ limit h hn hs hlt
  obtain ⟨k, hk, hholds, -⟩ := hkept.inside _ (List.mem_of_find?_eq_some hfind)
  have hfirst := hkept.first k hk
  have hspan : k.span = ⟨doc.stop, block.stop⟩ := by
    rcases h.candidate_cases hn hs (List.mem_of_find?_eq_some hfirst) with hap | hin
    · obtain ⟨-, hcb, hbd, hds, -, -, -⟩ := h.order hn
      have hwidth := h.colon_width
      obtain ⟨h1, h2⟩ : k.span.start ≤ doc.stop ∧ block.stop ≤ k.span.stop := hholds
      rcases hap with hle | hle
      · change k.span.stop ≤ colon.start at hle
        omega
      · change block.stop ≤ k.span.start at hle
        omega
    · exact hholds.antisymm hin
  rw [hspan] at hfirst
  rw [Option.some.inj (hfind.symm.trans hfirst)]
  exact hk

theorem cut_cases {cuts : List Cut}
    (hplan : plan text (ofTree .python text tree).bodies (ofTree .python text tree).literals
      ⟨limit, Language.placeholder? .python⟩ = .ok cuts) {k : Cut} (hk : k ∈ cuts) :
    k.span.Apart ⟨colon.start, block.stop⟩ ∨
      doc.stop < block.stop ∧ k = restCut text f block colon doc := by
  have hkept := Plan.plan_kept hplan
  have hmem := List.mem_of_find?_eq_some (hkept.first k hk)
  rcases h.candidate_cases hn hs hmem with hap | hin
  · exact .inl hap
  · obtain ⟨h1, h2⟩ : doc.stop ≤ k.span.start ∧ k.span.stop ≤ block.stop := hin
    have hne := hkept.nonempty k hk
    have hlt : doc.stop < block.stop := by omega
    obtain ⟨j, -, -, hunique⟩ := hkept.inside k hmem
    have hj := hunique k hk (Holds.refl _)
    have hrest := hunique _ (h.restCut_mem hn hs hplan hlt) ⟨h1, h2⟩
    exact .inr ⟨hlt, hj.trans hrest.symm⟩

omit hs in
theorem text_split (hdoc : Text.IsBoundary text doc.stop) : ∃ before shown tail,
    text = before ++ (':' :: shown ++ tail) ∧ Text.byteLength before = colon.start ∧
    colon.start + Text.byteLength (':' :: shown) = doc.stop ∧
    Text.slice? text ⟨colon.stop, doc.stop⟩ = some shown ∧
    ∀ c ∈ (':' :: shown).getLast?, Text.isBlank c = false := by
  obtain ⟨before, after, htext, hbefore, hstop⟩ := Text.slice?_eq_some_iff.mp h.spelled
  obtain ⟨upto, tail, htext', hupto⟩ := hdoc
  obtain ⟨-, hcb, hbd, hds, -⟩ := h.order hn
  change Text.byteLength before = colon.start at hbefore
  change _ = colon.stop at hstop
  obtain ⟨shown, rfl, rfl⟩ := Text.append_split_of_le (htext.symm.trans htext') (by
    rw [Text.byteLength_append]
    omega)
  rw [Text.byteLength_append, Text.byteLength_append] at hupto
  refine ⟨before, shown, tail, by simp [htext], hbefore, ?_, ?_, ?_⟩
  · rw [← hupto, hbefore, Text.byteLength_cons]
    simp
    omega
  · refine Text.slice?_eq_some_iff.mpr ⟨before ++ [':'], tail, by simp [htext], ?_, ?_⟩
    · rw [Text.byteLength_append, hstop]
    · rw [Text.byteLength_append, hupto]
  · -- the text up to the end of the string ends as the string does
    obtain ⟨said, c, hslice, hblank⟩ := h.ends
    obtain ⟨front, back, hfront, hlen, hlen'⟩ := Text.slice?_eq_some_iff.mp hslice
    change Text.byteLength front + Text.byteLength (said ++ [c]) = doc.stop at hlen'
    have hsame : before ++ [':'] ++ shown = front ++ (said ++ [c]) := by
      refine (Text.append_inj_of_byteLength_eq (htext'.symm.trans hfront) ?_).1
      rw [Text.byteLength_append, Text.byteLength_append, Text.byteLength_append, hupto, ← hlen']
    have hlast := congrArg List.getLast? hsame
    rw [List.append_assoc, List.singleton_append, ← List.append_assoc front said [c],
      List.getLast?_append, List.getLast?_append, List.getLast?_singleton, Option.some_or,
      List.getLast?_cons, Option.some_or] at hlast
    rw [List.getLast?_cons, hlast]
    rintro d hd
    obtain rfl := Option.some.inj hd
    exact hblank

theorem stop_le_of_start_le {cuts : List Cut}
    (hplan : plan text (ofTree .python text tree).bodies (ofTree .python text tree).literals
      ⟨limit, Language.placeholder? .python⟩ = .ok cuts) {k : Cut} (hk : k ∈ cuts)
    (hge : colon.start ≤ k.span.start) : doc.stop ≤ k.span.start := by
  obtain ⟨-, -, -, -, hdb, -, -⟩ := h.order hn
  have hne := (Plan.plan_kept hplan).nonempty k hk
  rcases h.cut_cases hn hs hplan hk with (hle | hle) | ⟨-, rfl⟩
  · change k.span.stop ≤ colon.start at hle
    omega
  · exact Nat.le_trans hdb hle
  · exact Nat.le_refl _

section Traced

variable {cuts : List Cut} (hp : tree.PlacedIn text)
  (hplan : plan text (ofTree .python text tree).bodies (ofTree .python text tree).literals
    ⟨limit, Language.placeholder? .python⟩ = .ok cuts)
  {before shown tail : List Char} (htext : text = before ++ (':' :: shown ++ tail))
  (hbefore : Text.byteLength before = colon.start)
  (hshown : colon.start + Text.byteLength (':' :: shown) = doc.stop)

include hp hplan htext hbefore hshown

theorem exists_cuts_split : ∃ pre post, cuts = pre ++ post ∧ Splice.Fits 0 before pre ∧
    Splice.Fits doc.stop tail post ∧
    Splice.traced 0 text cuts = Splice.traced 0 before pre ++
      (Splice.placed colon.start (':' :: shown) ++ Splice.traced doc.stop tail post) := by
  have hfits := hp.fits hplan
  obtain ⟨-, hcb, hbd, hds, hdb, -, -⟩ := h.order hn
  have hwidth := h.colon_width
  rw [htext] at hfits
  obtain ⟨pre, post, hcuts, hpre, hpost⟩ := hfits.split fun k hk => by
    rw [hbefore, Nat.zero_add]
    rcases h.cut_cases hn hs hplan hk with (hle | hle) | ⟨-, rfl⟩
    · exact .inl hle
    · exact .inr (by change block.stop ≤ k.span.start at hle; omega)
    · exact .inr (by change colon.start ≤ doc.stop; omega)
  have htail := hpost.behind fun k hk => by
    have hmem := List.mem_of_head? hk
    have hge := (hpost.bounds k hmem).1
    rw [hbefore, Nat.zero_add] at hge ⊢
    rw [hshown]
    exact h.stop_le_of_start_le hn hs hplan (by simp [hcuts, hmem]) hge
  have htraced : Splice.traced 0 text cuts = Splice.traced 0 before pre ++
      (Splice.placed colon.start (':' :: shown) ++ Splice.traced doc.stop tail post) := by
    rw [htext, hcuts, hpre.traced_append hpost, Splice.traced_placed_append _ htail, hbefore,
      Nat.zero_add, hshown]
  rw [hbefore, Nat.zero_add, hshown] at htail
  exact ⟨pre, post, hcuts, hpre, htail, htraced⟩

theorem traced_eq :
    ∃ front back, Splice.traced 0 text cuts = front ++ (Splice.placed colon.start (':' :: shown) ++
      (if doc.stop < block.stop then (restCut text f block colon doc).marker else []).map (·, none))
        ++ back := by
  obtain ⟨pre, post, hcuts, hpre, htail, htraced⟩ :=
    h.exists_cuts_split hn hs hp hplan htext hbefore hshown
  obtain ⟨-, hcb, hbd, hds, hdb, -, -⟩ := h.order hn
  have hwidth := h.colon_width
  refine ⟨Splice.traced 0 before pre, ?_⟩
  by_cases hlt : doc.stop < block.stop
  · have hmem : restCut text f block colon doc ∈ post := by
      have hrest := h.restCut_mem hn hs hplan hlt
      rw [hcuts, List.mem_append] at hrest
      refine hrest.resolve_left fun hpremem => ?_
      have hle := (hpre.bounds _ hpremem).2
      change block.stop ≤ _ at hle
      omega
    have hne : ∀ c ∈ post, c.span.start < c.span.stop := fun c hc =>
      (Plan.plan_kept hplan).nonempty c (by simp [hcuts, hc])
    obtain ⟨back, hback⟩ := htail.traced_marker hne hmem rfl
    refine ⟨back, ?_⟩
    rw [htraced, hback, if_pos hlt]
    simp
  · refine ⟨Splice.traced doc.stop tail post, ?_⟩
    rw [htraced, if_neg hlt]
    simp

end Traced

end Documented

/-- What a plan leaves of a function whose body begins with a string: the text from the colon to the
end of the string as it is, then one marker for the rest of the body, or, where there is no rest,
nothing is cut in the body at all. -/
theorem docstring_survives {text : List Char} {tree f block colon doc : Tree} {limit : Nat}
    {cuts : List Cut} (hp : tree.PlacedIn text)
    (hs : ∀ t ∈ tree.preorder, t.kind = .string → ∀ n ∈ t.descendants, n.kind ≠ .function)
    (h : Documented text tree f block colon doc)
    (hplan : plan text (ofTree .python text tree).bodies (ofTree .python text tree).literals
      ⟨limit, Language.placeholder? .python⟩ = .ok cuts) :
    (∀ k ∈ cuts, k.span.Apart ⟨colon.stop, doc.stop⟩) ∧
    (doc.stop < block.stop → restCut text f block colon doc ∈ cuts ∧
      ∀ k ∈ cuts, k = restCut text f block colon doc ∨ k.span.Apart ⟨colon.stop, block.stop⟩) ∧
    (doc.stop = block.stop → ∀ k ∈ cuts, k.span.Apart ⟨colon.stop, block.stop⟩) ∧
    ∃ front shown back, Text.slice? text ⟨colon.stop, doc.stop⟩ = some shown ∧
      Splice.apply text cuts = front ++ ':' :: (shown ++
        if doc.stop < block.stop then (restCut text f block colon doc).marker else []) ++ back := by
  obtain ⟨-, hcb, hbd, hds, hdb, -, -⟩ := h.order hp.nested
  have hwidth := h.colon_width
  have hbody : Span.Holds ⟨colon.start, block.stop⟩ ⟨colon.stop, block.stop⟩ :=
    ⟨by change colon.start ≤ colon.stop; omega, Nat.le_refl _⟩
  have hcases := fun k hk => h.cut_cases hp.nested hs hplan (k := k) hk
  refine ⟨fun k hk => ?_, fun hlt => ⟨h.restCut_mem hp.nested hs hplan hlt, fun k hk => ?_⟩,
    fun he k hk => ?_, ?_⟩
  · rcases hcases k hk with hap | ⟨-, rfl⟩
    · exact hap.mono (Holds.refl _) (hbody.trans ⟨Nat.le_refl _, hdb⟩)
    · exact .inr (Nat.le_refl _)
  · rcases hcases k hk with hap | ⟨-, rfl⟩
    · exact .inr (hap.mono (Holds.refl _) hbody)
    · exact .inl rfl
  · rcases hcases k hk with hap | ⟨hlt, -⟩
    · exact hap.mono (Holds.refl _) hbody
    · omega
  · obtain ⟨hblock, -, -, -, -, hdoc⟩ := h.mem_children
    have hdocstop := (hp.of_mem_children (Tree.mem_preorder_trans (Tree.mem_preorder.mpr
      (.inr (Tree.mem_descendants_of_mem_children hblock))) h.mem) hdoc).2
    obtain ⟨before, shown, tail, htext, hbefore, hshown, hslice, hlast⟩ :=
      h.text_split hp.nested hdocstop
    obtain ⟨front, back, htraced⟩ := h.traced_eq hp.nested hs hp hplan htext hbefore hshown
    have hne : Splice.placed colon.start (':' :: shown) ≠ [] := by simp [Splice.placed]
    rw [← (hp.fits hplan).map_remaining, Splice.remaining, htraced, Splice.trimBy_append]
    · refine ⟨(front.dropWhile fun p => Text.isBlank p.1).map Prod.fst, shown,
        (back.reverse.dropWhile fun p => Text.isBlank p.1).reverse.map Prod.fst, hslice, ?_⟩
      rw [List.map_append, List.map_append, List.map_append, Splice.map_fst_placed, List.map_map]
      simp only [Function.comp_def, List.map_id']
      rfl
    · simp [hne]
    · simp [Splice.placed]
      decide
    · split
      case isTrue =>
        simp [restCut, List.getLast?_cons]
        decide
      case isFalse =>
        intro x hx
        rw [List.map_nil, List.append_nil] at hx
        refine hlast x.1 ?_
        rw [← Splice.map_fst_placed colon.start (':' :: shown), List.getLast?_map]
        exact Option.mem_map_of_mem _ hx

def functionAfterDoc : List Char := "def f(a=\"xyz\"):\n  \"doc\"\n  def g(): pass\n".toList

def afterDocStatement : Tree := .node .expressionStatement ⟨18, 23⟩ false [.node .string ⟨18, 23⟩
  false [.node .stringStart ⟨18, 19⟩ false [], .node .stringEnd ⟨22, 23⟩ false []]]

def afterDocBlock : Tree := .node .block ⟨18, 39⟩ false [afterDocStatement,
  .node .function ⟨26, 39⟩ false [.node (.token ":") ⟨33, 34⟩ false [],
    .node .block ⟨35, 39⟩ false [.node .statement ⟨35, 39⟩ false []]]]

def afterDocFunction : Tree := .node .function ⟨0, 39⟩ false [.node .string ⟨8, 13⟩ false
    [.node .stringStart ⟨8, 9⟩ false [], .node .stringEnd ⟨12, 13⟩ false []],
  .node (.token ":") ⟨14, 15⟩ false [], afterDocBlock]

theorem docstring_survives_functionAfterDoc :
    plan functionAfterDoc
        (ofTree .python functionAfterDoc (.node .file ⟨0, 40⟩ false [afterDocFunction])).bodies
        (ofTree .python functionAfterDoc (.node .file ⟨0, 40⟩ false [afterDocFunction])).literals
        ⟨1, Language.placeholder? .python⟩ =
      .ok [⟨⟨10, 12⟩, ellipsis⟩, ⟨⟨23, 39⟩, "\n  pass".toList⟩] ∧
    ∃ front shown back, Text.slice? functionAfterDoc ⟨15, 23⟩ = some shown ∧
      Splice.apply functionAfterDoc [⟨⟨10, 12⟩, ellipsis⟩, ⟨⟨23, 39⟩, "\n  pass".toList⟩] =
        front ++ ':' :: (shown ++ "\n  pass".toList) ++ back := by
  have hp : (Syntax.Tree.node .file ⟨0, 40⟩ false [afterDocFunction]).PlacedIn functionAfterDoc :=
    ⟨by decide, by decide +kernel⟩
  have houtside : ∀ g ∈ (Syntax.Tree.node .file ⟨0, 40⟩ false [afterDocFunction]).preorder,
      ∀ b ∈ bodiesOf .python functionAfterDoc g, ¬b.span.Holds afterDocFunction.span := by
    decide +kernel
  have hd : Documented functionAfterDoc (.node .file ⟨0, 40⟩ false [afterDocFunction])
      afterDocFunction afterDocBlock (.node (.token ":") ⟨14, 15⟩ false []) afterDocStatement :=
    { mem := .tail _ (.head _)
      kind := rfl
      onlyBlock := rfl
      lastColon := rfl
      first := rfl
      docstring := rfl
      spelled := by decide +kernel
      ends := ⟨"\"doc".toList, '"', by decide +kernel, by decide⟩
      outside := fun g hg _ => houtside g hg
      clear := by decide +kernel }
  have hplan : plan functionAfterDoc
      (ofTree .python functionAfterDoc (.node .file ⟨0, 40⟩ false [afterDocFunction])).bodies
      (ofTree .python functionAfterDoc (.node .file ⟨0, 40⟩ false [afterDocFunction])).literals
      ⟨1, Language.placeholder? .python⟩ =
        .ok [⟨⟨10, 12⟩, ellipsis⟩, ⟨⟨23, 39⟩, "\n  pass".toList⟩] := by
    rw [plan, List.mergeSort_of_pairwise (by decide +kernel)]
    rfl
  exact ⟨hplan, (docstring_survives hp (by decide +kernel) hd hplan).2.2.2⟩

end Outline
end Synopsis
