import Synopsis.Plan
import Synopsis.Proofs.Span
import Synopsis.Proofs.Text.Boundary

/-!
# Where a literal is cut

A literal is cut after as many characters as may stay, and the cut moves back to the start of an
atom that it would split. What later modules use of a cut is here: it is not empty, it lies between
characters, and where the atoms are apart it splits none of them.
-/

namespace Synopsis

open Synopsis.Span

theorem pullBack_cases (atoms : List Span) (offset : Nat) :
    (pullBack atoms offset = offset ∧ ∀ a ∈ atoms, ¬StrictlyInside offset a) ∨
      ∃ a ∈ atoms, StrictlyInside offset a ∧ pullBack atoms offset = a.start := by
  unfold pullBack
  split
  case h_1 a ha =>
    have hin : StrictlyInside offset a := by simpa using List.find?_some ha
    exact .inr ⟨a, List.mem_of_find?_eq_some ha, hin, rfl⟩
  case h_2 hnone =>
    refine .inl ⟨rfl, fun a ha => ?_⟩
    simpa using List.find?_eq_none.mp hnone a ha

theorem pullBack_le (atoms : List Span) (offset : Nat) : pullBack atoms offset ≤ offset := by
  rcases pullBack_cases atoms offset with ⟨h, -⟩ | ⟨a, -, hin, h⟩
  · exact Nat.le_of_eq h
  · rw [h]
    exact Nat.le_of_lt hin.1

theorem pullBack_not_inside {atoms : List Span} (h : atoms.Pairwise Apart) (offset : Nat) {a : Span}
    (ha : a ∈ atoms) : ¬StrictlyInside (pullBack atoms offset) a := by
  rcases pullBack_cases atoms offset with ⟨he, hnone⟩ | ⟨b, hb, ⟨hb1, hb2⟩, he⟩
  · rw [he]
    exact hnone a ha
  · rw [he]
    rintro ⟨h1, h2⟩
    rcases eq_or_apart_of_pairwise h ha hb with rfl | hapart | hapart <;> omega

namespace Literal

def limitOffset (limit : Nat) (l : Literal) (content : List Char) : Nat :=
  l.content.start + Text.byteLength (content.take limit)

theorem truncation?_eq_some_iff {text : List Char} {limit : Nat} {l : Literal} {c : Cut} :
    l.truncation? text limit = some c ↔
      ∃ content, Text.slice? text l.content = some content ∧ limit < content.length ∧
        c = ⟨⟨pullBack l.atoms (l.limitOffset limit content), l.content.stop⟩, ellipsis⟩ := by
  unfold truncation? limitOffset
  rw [Option.bind_eq_some_iff]
  constructor
  · rintro ⟨content, hslice, h⟩
    split at h
    case isTrue hlt => exact ⟨content, hslice, hlt, (Option.some.inj h).symm⟩
    case isFalse => cases h
  · rintro ⟨content, hslice, hlt, rfl⟩
    exact ⟨content, hslice, if_pos hlt⟩

theorem limitOffset_lt {text : List Char} {limit : Nat} {l : Literal} {content : List Char}
    (hslice : Text.slice? text l.content = some content) (hlt : limit < content.length) :
    l.limitOffset limit content < l.content.stop := by
  obtain ⟨before, after, -, hb, hm⟩ := Text.slice?_eq_some_iff.mp hslice
  have hrest : 0 < Text.byteLength (content.drop limit) :=
    Text.byteLength_pos (by simpa using hlt)
  have hsum : Text.byteLength (content.take limit) + Text.byteLength (content.drop limit) =
      Text.byteLength content := by
    rw [← Text.byteLength_append, List.take_append_drop]
  unfold limitOffset
  omega

theorem truncation?_nonempty {text : List Char} {limit : Nat} {l : Literal} {c : Cut}
    (h : l.truncation? text limit = some c) : c.span.start < c.span.stop := by
  obtain ⟨content, hslice, hlt, rfl⟩ := truncation?_eq_some_iff.mp h
  exact Nat.lt_of_le_of_lt (pullBack_le _ _) (limitOffset_lt hslice hlt)

end Literal
end Synopsis
