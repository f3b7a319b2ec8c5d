import Mathlib.Data.List.Basic
import Synopsis.Proofs.LayingOut
import Synopsis.Proofs.Merging
import Synopsis.Reduction

/-!
# Abridged text has no more lines

A text that is made from another by leaving characters out, and that does not end with a newline,
has no more lines than the other: where the other ends with a newline, that one is gone. This
settles trimming and normal layout. What stands in for a cut has no newline in the languages with
braces, and every cut takes something away, so making cuts adds no line either.
-/

namespace Synopsis

open Syntax

namespace Text

variable {a b text : List Char}

theorem countLines_eq (h : a ≠ []) : countLines a = a.dropLast.count '\n' + 1 := by
  obtain ⟨front, c, rfl⟩ := (List.eq_nil_or_concat a).resolve_left h
  by_cases hc : c = '\n'
  · simp [countLines, hc]
  · simp [countLines, hc]

theorem countLines_pos (h : a ≠ []) : 1 ≤ countLines a := by
  rw [countLines_eq h]
  exact Nat.le_add_left _ _

theorem ne_nil_of_countLines_pos (h : 1 ≤ countLines a) : a ≠ [] := by
  rintro rfl
  exact absurd h (by decide)

theorem countLines_append (hb : b ≠ []) : countLines (a ++ b) = a.count '\n' + countLines b := by
  rw [countLines_eq (by simp [hb]), countLines_eq hb, List.dropLast_append_of_ne_nil hb,
    List.count_append, Nat.add_assoc]

theorem countLines_of_not_mem (h : '\n' ∉ a) : countLines a ≤ 1 := by
  by_cases ha : a = []
  · rw [ha]
    decide
  · have hnone : '\n' ∉ a.dropLast := fun hmem => h ((List.dropLast_sublist a).mem hmem)
    have hcount : countLines a = 1 := by
      rw [countLines_eq ha, List.count_eq_zero_of_not_mem hnone]
    exact Nat.le_of_eq hcount

theorem countLines_le_of_sublist (h : a.Sublist b) : countLines a ≤ countLines b := by
  by_cases ha : a = []
  · rw [ha]
    exact Nat.zero_le _
  · have hb : b ≠ [] := by
      rintro rfl
      exact ha (List.sublist_nil.mp h)
    have hfront : a.dropLast.Sublist b.dropLast := by
      have htail := h.reverse.tail
      rwa [List.tail_reverse, List.tail_reverse, List.reverse_sublist] at htail
    have hcount := hfront.count_le '\n'
    rw [countLines_eq ha, countLines_eq hb]
    omega

theorem sublist_of_append_newline (h : a.Sublist (b ++ ['\n']))
    (hlast : ∀ c ∈ a.getLast?, c ≠ '\n') : a.Sublist b := by
  obtain ⟨front, back, rfl, hfront, hback⟩ := List.sublist_append_iff.mp h
  rcases List.sublist_singleton.mp hback with rfl | rfl
  · simpa using hfront
  · exact absurd rfl (hlast '\n' (by simp))

theorem ne_newline_of_last_trim (text : List Char) : ∀ c ∈ (trim text).getLast?, c ≠ '\n' := by
  rintro c hc rfl
  exact absurd ((Splice.trimmed_trim text).last '\n' hc) (by decide)

theorem trim_sublist (text : List Char) : (trim text).Sublist text := by
  obtain ⟨lead, trail, htext, -⟩ := (Splice.trimmed_trim text).exists_ends
  have hinfix : trim text <:+: text := ⟨lead, trail, htext.symm⟩
  exact hinfix.sublist

theorem countLines_trim_le (text : List Char) : countLines (trim text) ≤ countLines text :=
  countLines_le_of_sublist (trim_sublist text)

end Text

namespace Splice

-- What is left behind a character or a cut has no more lines than what was there; where nothing is
-- left, the character or what stands in for the cut is one line, and something was there.
theorem Fits.countLines_traced_le {offset : Nat} {rest : List Char} {cuts : List Cut}
    (h : Fits offset rest cuts) (hne : ∀ k ∈ cuts, k.span.start < k.span.stop)
    (hmark : ∀ k ∈ cuts, '\n' ∉ k.marker) :
    Text.countLines ((traced offset rest cuts).map Prod.fst) ≤ Text.countLines rest := by
  induction h using Fits.steps with
  | done offset => exact Nat.le_refl _
  | keep offset c rest cuts hfits ih _ =>
    have hih := ih hne hmark
    rw [traced_keep hfits]
    change Text.countLines (c :: (traced (offset + c.utf8Size) rest cuts).map Prod.fst) ≤ _
    by_cases hleft : (traced (offset + c.utf8Size) rest cuts).map Prod.fst = []
    · have hone : Text.countLines [c] = 1 := Text.countLines_eq (List.cons_ne_nil c [])
      rw [hleft, hone]
      exact Text.countLines_pos (List.cons_ne_nil c rest)
    · have hrest := Text.ne_nil_of_countLines_pos (Nat.le_trans (Text.countLines_pos hleft) hih)
      have hkept := @Text.countLines_append [c] _ hleft
      have hsource := @Text.countLines_append [c] _ hrest
      rw [List.singleton_append] at hkept hsource
      omega
  | cut k cs skipped rest hstop hrest ih _ =>
    have hih := ih (fun m hm => hne m (by simp [hm])) (fun m hm => hmark m (by simp [hm]))
    have hk := hmark k (by simp)
    have hskipped : skipped ≠ [] := by
      rintro rfl
      have hlt := hne k (by simp)
      rw [Text.byteLength_nil] at hstop
      omega
    rw [traced_cut hstop, List.map_append, List.map_map]
    have hmarker : k.marker.map (Prod.fst ∘ fun c => (c, (none : Option Nat))) = k.marker :=
      List.map_id _
    rw [hmarker]
    by_cases hleft : (traced k.span.stop rest cs).map Prod.fst = []
    · rw [hleft, List.append_nil]
      exact Nat.le_trans (Text.countLines_of_not_mem hk) (Text.countLines_pos (by simp [hskipped]))
    · have hrest := Text.ne_nil_of_countLines_pos (Nat.le_trans (Text.countLines_pos hleft) hih)
      rw [Text.countLines_append hleft, Text.countLines_append hrest,
        List.count_eq_zero_of_not_mem hk]
      omega

theorem Fits.countLines_apply_le {text : List Char} {cuts : List Cut} (h : Fits 0 text cuts)
    (hne : ∀ k ∈ cuts, k.span.start < k.span.stop) (hmark : ∀ k ∈ cuts, '\n' ∉ k.marker) :
    Text.countLines (apply text cuts) ≤ Text.countLines text := by
  rw [h.apply_eq]
  exact Nat.le_trans (Text.countLines_trim_le _) (h.countLines_traced_le hne hmark)

end Splice

namespace Layout

variable {text : List Char} {spans : List Span}

theorem normalize_sublist (text : List Char) (spans : List Span) :
    (normalize text spans).Sublist text := by
  obtain ⟨kept, hkept, htidies⟩ := exists_tidies spans text
  have htidied := htidies.sublist.map Prod.fst
  rw [hkept, Splice.map_fst_placed] at htidied
  exact (Text.trim_sublist _).trans htidied

theorem countLines_normalize_le (text : List Char) (spans : List Span) :
    Text.countLines (normalize (text ++ ['\n']) spans) ≤ Text.countLines text := by
  apply Text.countLines_le_of_sublist
  exact Text.sublist_of_append_newline (normalize_sublist _ _) (Text.ne_newline_of_last_trim _)

end Layout

/-- Bodies begin and end between characters of the text, and atoms begin so. -/
structure Outline.Bounded (text : List Char) (o : Outline) : Prop where
  bodies : ∀ b ∈ o.bodies, Text.IsBoundary text b.cutStart ∧ Text.IsBoundary text b.span.stop
  atoms : ∀ l ∈ o.literals, ∀ a ∈ l.atoms, Text.IsBoundary text a.start

theorem Syntax.Tree.PlacedIn.bounded {language : Language} {text : List Char} {tree : Tree}
    (h : tree.PlacedIn text) : (Outline.ofTree language text tree).Bounded text :=
  ⟨fun _ hb => h.body_boundary hb, fun _ hl _ ha => h.atom_boundary hl ha⟩

namespace Abridge

variable {language : Language} {path text result : List Char} {options : MapOptions}
  {outline : Outline}

theorem countLines_layout_le (h : layout language path text = .ok result) :
    Text.countLines result ≤ Text.countLines text := by
  rw [(layoutTree_eq_ok_iff.mp h).2]
  exact Layout.countLines_normalize_le text _

theorem countLines_withOutline_le (hpy : language ≠ .python) (ho : outline.Bounded text)
    (h : withOutline language path text options outline = .ok result) :
    Text.countLines result ≤ Text.countLines text := by
  unfold withOutline at h
  split at h
  case h_1 => cases h
  case h_2 cuts hplan =>
    have hfits := Splice.plan_fits ho.bodies ho.atoms hplan
    have hne := (Plan.plan_kept hplan).nonempty
    rw [Language.placeholder?_eq_none hpy] at hplan
    have hmark : ∀ k ∈ cuts, '\n' ∉ k.marker := by
      intro k hk
      rcases Outline.marker_cases hplan hk with hdots | ⟨hnil, -⟩
      · rw [hdots]
        decide
      · rw [hnil]
        exact List.not_mem_nil
    have happly := hfits.countLines_apply_le hne hmark
    simp only at h
    split at h
    case isTrue => exact Nat.le_trans (countLines_layout_le h) happly
    case isFalse => exact Except.ok.inj h ▸ happly

/-- The second text is what abridging the first gives in a language with braces, for some outline
of it. -/
def FromBraces (text result : List Char) : Prop :=
  ∃ language path options outline, language ≠ .python ∧ outline.Bounded text ∧
    withOutline language path text options outline = .ok result

end Abridge

namespace Reduction

def NoLonger (r : Reduction) : Prop := r.mapLines ≤ r.sourceLines

theorem NoLonger.add {a b : Reduction} (ha : a.NoLonger) (hb : b.NoLonger) : (add a b).NoLonger :=
  Nat.add_le_add ha hb

theorem NoLonger.foldl {rs : List Reduction} (h : ∀ r ∈ rs, r.NoLonger) {total : Reduction}
    (ht : total.NoLonger) : (rs.foldl Reduction.add total).NoLonger := by
  induction rs generalizing total with
  | nil => exact ht
  | cons r rs ih =>
    obtain ⟨hr, hrs⟩ := List.forall_mem_cons.mp h
    exact ih hrs (ht.add hr)

theorem NoLonger.running {rs : List Reduction} (h : ∀ r ∈ rs, r.NoLonger) {total : Reduction}
    (ht : total.NoLonger) : ∀ r ∈ runningTotals.go total rs, r.NoLonger := by
  induction rs generalizing total with
  | nil => simp [runningTotals.go]
  | cons r rs ih =>
    obtain ⟨hr, hrs⟩ := List.forall_mem_cons.mp h
    rw [runningTotals.go]
    exact List.forall_mem_cons.mpr ⟨ht.add hr, ih hrs (ht.add hr)⟩

theorem zero_noLonger : zero.NoLonger := Nat.le_refl 0

end Reduction

namespace Abridge

open Reduction

/-- In the languages with braces, abridging a text never adds lines to it, whatever tree its outline
is taken from, as long as the nodes of the tree begin and end between characters of the text; the
tree that is read is such a tree. So the sizes of such texts show no more lines behind than before,
one by one and in every total. -/
theorem abridged_no_longer :
    (∀ language path text options outline result, language ≠ .python → outline.Bounded text →
      withOutline language path text options outline = .ok result →
      Text.countLines result ≤ Text.countLines text) ∧
    (∀ language path text options tree result, language ≠ .python → tree.PlacedIn text →
      withOutline language path text options (.ofTree language text tree) = .ok result →
      FromBraces text result) ∧
    (∀ language path text options result, language ≠ .python →
      (language.tree text).hasError = false → source language path text options = .ok result →
      FromBraces text result) ∧
    ∀ (count : List Char → Nat) (files : List (List Char × List Char)),
      (∀ f ∈ files, FromBraces f.1 f.2) →
      (∀ f ∈ files, (measure count f.1 f.2).NoLonger) ∧
      (∀ r ∈ runningTotals (files.map fun f => measure count f.1 f.2), r.NoLonger) ∧
      (sum (files.map fun f => measure count f.1 f.2)).NoLonger := by
  refine ⟨?_, ?_, ?_, ?_⟩
  · intro language path text options outline result hpy ho h
    exact countLines_withOutline_le hpy ho h
  · intro language path text options tree result hpy hplaced h
    exact ⟨language, path, options, _, hpy, hplaced.bounded, h⟩
  · intro language path text options result hpy herror h
    exact ⟨language, path, options, _, hpy, (Language.tree_placedIn herror).bounded, h⟩
  · intro count files hfiles
    have heach : ∀ f ∈ files, (measure count f.1 f.2).NoLonger := by
      intro f hf
      obtain ⟨language, path, options, outline, hpy, ho, h⟩ := hfiles f hf
      exact countLines_withOutline_le hpy ho h
    have hall : ∀ r ∈ files.map fun f => measure count f.1 f.2, r.NoLonger :=
      List.forall_mem_map.mpr heach
    exact ⟨heach, NoLonger.running hall zero_noLonger, NoLonger.foldl hall zero_noLonger⟩

def bodyAtEnd : List Char := "package p\n\n\nfunc f() \x7b\n\tg()\n\x7d\n".toList

theorem abridged_no_longer_newlineCut :
    (source .go "a.go".toList bodyAtEnd ⟨100, true⟩).toOption =
      some "package p\n\nfunc f()".toList ∧
    FromBraces bodyAtEnd "package p\n\nfunc f()".toList ∧
    FromBraces "a\n".toList "a...".toList ∧
    Text.countLines "a...".toList ≤ Text.countLines "a\n".toList ∧
    (sum [measure Encoding.cl100kBase.countTokens bodyAtEnd "package p\n\nfunc f()".toList,
      measure Encoding.cl100kBase.countTokens "a\n".toList "a...".toList]).NoLonger := by
  have hlaid : (source .go "a.go".toList bodyAtEnd ⟨100, true⟩).toOption =
      some "package p\n\nfunc f()".toList := by
    decide +kernel
  have hcut : (withOutline .rust "a.rs".toList "a\n".toList ⟨1, true⟩
      ⟨[], [⟨⟨0, 2⟩, 0, 0, []⟩]⟩).toOption = some "a...".toList := by
    decide +kernel
  have hbounded : Outline.Bounded "a\n".toList ⟨[], [⟨⟨0, 2⟩, 0, 0, []⟩]⟩ :=
    ⟨by simp, by simp⟩
  have hbody : FromBraces bodyAtEnd "package p\n\nfunc f()".toList :=
    abridged_no_longer.2.2.1 _ _ _ _ _ (by decide) (by decide +kernel) (eq_ok_of_toOption hlaid)
  have hdots : FromBraces "a\n".toList "a...".toList :=
    ⟨.rust, _, _, _, by decide, hbounded, eq_ok_of_toOption hcut⟩
  refine ⟨hlaid, hbody, hdots, ?_, ?_⟩
  · exact abridged_no_longer.1 _ _ _ _ _ _ (by decide) hbounded (eq_ok_of_toOption hcut)
  · have hfiles : ∀ f ∈ [(bodyAtEnd, "package p\n\nfunc f()".toList),
        ("a\n".toList, "a...".toList)], FromBraces f.1 f.2 := by
      simp only [List.forall_mem_cons]
      exact ⟨hbody, hdots, by simp⟩
    exact (abridged_no_longer.2.2.2 Encoding.cl100kBase.countTokens _ hfiles).2.2

end Abridge
end Synopsis
