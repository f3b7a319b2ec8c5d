import Mathlib.Data.List.Pairwise
import Synopsis.Proofs.Planning

/-!
# Raising the limit

Moving an offset back to the start of an atom keeps the order of offsets, as long as no two atoms
share a byte: of two offsets in one atom both move to its start, and an offset before the atom is
passed by none. So a literal that may keep more characters is cut no earlier, and what a plan leaves
out under a higher limit it leaves out under a lower one too.
-/

namespace Synopsis

namespace Span

def Separate (a b : Span) : Prop := ∀ offset, a.Covers offset → ¬b.Covers offset

instance : Std.Symm Separate where
  symm _ _ h offset hb ha := h offset ha hb

theorem StrictlyInside.covers {offset : Nat} {s : Span} (h : StrictlyInside offset s) :
    s.Covers offset :=
  ⟨Nat.le_of_lt h.1, h.2⟩

theorem eq_of_covers {spans : List Span} (h : spans.Pairwise Separate) {a b : Span} {offset : Nat}
    (ha : a ∈ spans) (hb : b ∈ spans) (hca : a.Covers offset) (hcb : b.Covers offset) : a = b := by
  apply Decidable.byContradiction
  intro hne
  exact h.forall ha hb hne offset hca hcb

theorem Apart.separate {a b : Span} (h : a.Apart b) : a.Separate b := by
  intro offset ⟨ha1, ha2⟩ ⟨hb1, hb2⟩
  rcases h with hle | hle <;> omega

theorem Holds.covers {outer inner : Span} (h : outer.Holds inner) {offset : Nat}
    (hc : inner.Covers offset) : outer.Covers offset :=
  ⟨Nat.le_trans h.1 hc.1, Nat.lt_of_lt_of_le hc.2 h.2⟩

end Span

open Synopsis.Span

theorem pullBack_mono {atoms : List Span} (h : atoms.Pairwise Separate) {low high : Nat}
    (hle : low ≤ high) : pullBack atoms low ≤ pullBack atoms high := by
  have hlow := pullBack_le atoms low
  rcases pullBack_cases atoms high with ⟨he, -⟩ | ⟨a, ha, hhigh, he⟩
  · omega
  · rw [he]
    by_cases hstart : low ≤ a.start
    · exact Nat.le_trans hlow hstart
    · -- the lower offset is inside the same atom, and moves to the same place
      have hin : StrictlyInside low a := ⟨by omega, Nat.lt_of_le_of_lt hle hhigh.2⟩
      rcases pullBack_cases atoms low with ⟨-, hnone⟩ | ⟨b, hb, hinb, heb⟩
      · exact absurd hin (hnone a ha)
      · obtain rfl := eq_of_covers h hb ha hinb.covers hin.covers
        exact Nat.le_of_eq heb

namespace Literal

variable {text : List Char} {l : Literal} {low high : Nat}

theorem limitOffset_mono (content : List Char) (hle : low ≤ high) :
    l.limitOffset low content ≤ l.limitOffset high content := by
  have hsplit : content.take high = content.take low ++ (content.drop low).take (high - low) := by
    rw [← List.take_add, Nat.add_sub_cancel' hle]
  rw [limitOffset, limitOffset, hsplit, Text.byteLength_append]
  omega

theorem exists_truncation_of_le (h : l.atoms.Pairwise Separate) (hle : low ≤ high) {c : Cut}
    (hc : l.truncation? text high = some c) :
    ∃ d, l.truncation? text low = some d ∧ d.span.stop = c.span.stop ∧
      d.span.start ≤ c.span.start := by
  obtain ⟨content, hslice, hlt, rfl⟩ := truncation?_eq_some_iff.mp hc
  refine ⟨_, truncation?_eq_some_iff.mpr ⟨content, hslice, by omega, rfl⟩, rfl, ?_⟩
  exact pullBack_mono h (limitOffset_mono content hle)

end Literal

namespace Plan

def Removes (cuts : List Cut) (offset : Nat) : Prop := ∃ c ∈ cuts, c.span.Covers offset

def truncations (text : List Char) (bodies : List Body) (literals : List Literal) (limit : Nat) :
    List Cut :=
  (literals.filter fun l => !bodies.any fun b => b.span.Holds l.span).filterMap
    (·.truncation? text limit)

variable {text : List Char} {bodies : List Body} {literals : List Literal} {low high : Nat}

theorem candidates_eq_append (options : PlanOptions) :
    candidates text bodies literals options = truncations text bodies literals options.limit ++
      bodies.filterMap (·.elision? options.placeholder) := rfl

theorem Removes.append_iff {cuts others : List Cut} {offset : Nat} :
    Removes (cuts ++ others) offset ↔ Removes cuts offset ∨ Removes others offset := by
  simp only [Removes, List.mem_append, or_and_right, exists_or]

-- A cut that is kept is one that was asked for, and each one asked for lies in one that is kept.
theorem Kept.removes_iff {cs cuts : List Cut} (h : Kept cs cuts) {offset : Nat} :
    Removes cuts offset ↔ Removes cs offset := by
  constructor
  · rintro ⟨k, hk, hcov⟩
    exact ⟨k, List.mem_of_find?_eq_some (h.first k hk), hcov⟩
  · rintro ⟨c, hc, hcov⟩
    obtain ⟨k, hk, hholds, -⟩ := h.inside c hc
    exact ⟨k, hk, hholds.covers hcov⟩

theorem truncations_removes_of_le (h : ∀ l ∈ literals, l.atoms.Pairwise Separate)
    (hle : low ≤ high) {offset : Nat}
    (hr : Removes (truncations text bodies literals high) offset) :
    Removes (truncations text bodies literals low) offset := by
  obtain ⟨c, hc, hcov⟩ := hr
  obtain ⟨l, hl, hcut⟩ := List.mem_filterMap.mp hc
  obtain ⟨d, hd, hstop, hstart⟩ :=
    Literal.exists_truncation_of_le (h l (List.mem_filter.mp hl).1) hle hcut
  have hholds : d.span.Holds c.span := ⟨hstart, Nat.le_of_eq hstop.symm⟩
  exact ⟨d, List.mem_filterMap.mpr ⟨l, hl, hd⟩, hholds.covers hcov⟩

/-- A literal that is cut under a limit is cut under every lower one, at the same end and no further
on, and one that is left alone is left alone under every higher limit. So a higher limit removes
fewer bytes, from the literals and in a plan as a whole. -/
theorem higher_limit_removes_less (h : ∀ l ∈ literals, l.atoms.Pairwise Separate)
    (hle : low ≤ high) :
    (∀ l ∈ literals, (∀ c, l.truncation? text high = some c →
        ∃ d, l.truncation? text low = some d ∧ d.span.stop = c.span.stop ∧
          d.span.start ≤ c.span.start) ∧
      (l.truncation? text low = none → l.truncation? text high = none)) ∧
    (∀ offset, Removes (truncations text bodies literals high) offset →
      Removes (truncations text bodies literals low) offset) ∧
    ∀ placeholder fewer more, plan text bodies literals ⟨high, placeholder⟩ = .ok fewer →
      plan text bodies literals ⟨low, placeholder⟩ = .ok more →
      ∀ offset, Removes fewer offset → Removes more offset := by
  refine ⟨fun l hl => ⟨fun c hc => Literal.exists_truncation_of_le (h l hl) hle hc, ?_⟩,
    fun offset hr => truncations_removes_of_le h hle hr, ?_⟩
  · intro hnone
    rw [Option.eq_none_iff_forall_ne_some]
    intro c hc
    obtain ⟨d, hd, -⟩ := Literal.exists_truncation_of_le (h l hl) hle hc
    rw [hnone] at hd
    cases hd
  · intro placeholder fewer more hfewer hmore offset hr
    rw [(plan_kept hfewer).removes_iff, candidates_eq_append, Removes.append_iff] at hr
    rw [(plan_kept hmore).removes_iff, candidates_eq_append, Removes.append_iff]
    exact hr.imp_left (truncations_removes_of_le h hle)

def escapesAndBody : List Char := "s(\"é\\n\\tü\") \x7bx\x7d".toList

def escapesLiteral : Literal := ⟨⟨2, 12⟩, 0, 1, [⟨7, 9⟩, ⟨5, 7⟩]⟩

theorem higher_limit_removes_less_besideEscapes :
    escapesLiteral.truncation? escapesAndBody 4 = some ⟨⟨7, 11⟩, ellipsis⟩ ∧
    escapesLiteral.truncation? escapesAndBody 2 = some ⟨⟨5, 11⟩, ellipsis⟩ ∧
    plan escapesAndBody [⟨⟨14, 17⟩, 13, none⟩] [escapesLiteral] ⟨4, none⟩ =
      .ok [⟨⟨7, 11⟩, ellipsis⟩, ⟨⟨13, 17⟩, []⟩] ∧
    ∀ offset, Removes [⟨⟨7, 11⟩, ellipsis⟩, ⟨⟨13, 17⟩, []⟩] offset →
      Removes [⟨⟨5, 11⟩, ellipsis⟩, ⟨⟨13, 17⟩, []⟩] offset := by
  have hatoms : ∀ l ∈ [escapesLiteral], l.atoms.Pairwise Separate := by
    intro l hl
    obtain rfl := List.mem_singleton.mp hl
    have hapart : escapesLiteral.atoms.Pairwise Apart := by simp [escapesLiteral, Apart]
    exact hapart.imp Apart.separate
  have hhigh : plan escapesAndBody [⟨⟨14, 17⟩, 13, none⟩] [escapesLiteral] ⟨4, none⟩ =
      .ok [⟨⟨7, 11⟩, ellipsis⟩, ⟨⟨13, 17⟩, []⟩] := by
    rw [plan, List.mergeSort_of_pairwise (by decide +kernel)]
    rfl
  have hlow : plan escapesAndBody [⟨⟨14, 17⟩, 13, none⟩] [escapesLiteral] ⟨2, none⟩ =
      .ok [⟨⟨5, 11⟩, ellipsis⟩, ⟨⟨13, 17⟩, []⟩] := by
    rw [plan, List.mergeSort_of_pairwise (by decide +kernel)]
    rfl
  refine ⟨by decide +kernel, by decide +kernel, hhigh, ?_⟩
  exact (higher_limit_removes_less hatoms (by decide : 2 ≤ 4)).2.2 none _ _ hhigh hlow

end Plan
end Synopsis
