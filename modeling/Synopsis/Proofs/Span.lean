import Synopsis.Span

/-!
# How spans lie to each other

Two spans that are neither nested nor apart cross. A list of spans is in order if each one ends
where the next begins, or before.
-/

namespace Synopsis.Span

def Crosses (a b : Span) : Prop := a.start < b.start ∧ b.start < a.stop ∧ a.stop < b.stop

def Apart (a b : Span) : Prop := a.stop ≤ b.start ∨ b.stop ≤ a.start

def Laminar (a b : Span) : Prop := a.Apart b ∨ a.Holds b ∨ b.Holds a

def Covers (s : Span) (offset : Nat) : Prop := s.start ≤ offset ∧ offset < s.stop

instance (s : Span) (offset : Nat) : Decidable (s.Covers offset) := instDecidableAnd

theorem Apart.symm {a b : Span} (h : a.Apart b) : b.Apart a := Or.symm h

theorem Apart.mono {a b c d : Span} (h : a.Apart b) (hc : a.Holds c) (hd : b.Holds d) :
    c.Apart d := by
  rcases h with h | h
  · exact .inl (Nat.le_trans hc.2 (Nat.le_trans h hd.1))
  · exact .inr (Nat.le_trans hd.2 (Nat.le_trans h hc.1))

theorem Apart.laminar {a b : Span} (h : a.Apart b) : a.Laminar b := .inl h

theorem Holds.laminar {a b : Span} (h : a.Holds b) : a.Laminar b := .inr (.inl h)

theorem Laminar.symm {a b : Span} (h : a.Laminar b) : b.Laminar a := by
  rcases h with h | h | h
  · exact .inl h.symm
  · exact .inr (.inr h)
  · exact .inr (.inl h)

theorem Laminar.not_crosses {a b : Span} (h : a.Laminar b) : ¬a.Crosses b := by
  rintro ⟨h1, h2, h3⟩
  rcases h with (h | h) | ⟨-, h⟩ | ⟨h, -⟩ <;> omega

theorem Holds.antisymm {a b : Span} (hab : a.Holds b) (hba : b.Holds a) : a = b := by
  cases a
  cases b
  simp only [Holds] at hab hba
  congr 1 <;> omega

def InOrder (spans : List Span) : Prop := spans.Pairwise fun a b => a.stop ≤ b.start

theorem InOrder.apart {spans : List Span} (h : InOrder spans) : spans.Pairwise Apart :=
  h.imp fun hle => .inl hle

theorem eq_or_apart_of_pairwise {spans : List Span} (h : spans.Pairwise Apart) {a b : Span}
    (ha : a ∈ spans) (hb : b ∈ spans) : a = b ∨ a.Apart b := by
  induction h with
  | nil => cases ha
  | cons hrel _ ih =>
    rcases List.mem_cons.mp ha with rfl | ha' <;> rcases List.mem_cons.mp hb with rfl | hb'
    · exact .inl rfl
    · exact .inr (hrel b hb')
    · exact .inr (hrel a ha').symm
    · exact ih ha' hb'

theorem InOrder.eq_or_apart {spans : List Span} (h : InOrder spans) {a b : Span}
    (ha : a ∈ spans) (hb : b ∈ spans) : a = b ∨ a.Apart b :=
  eq_or_apart_of_pairwise h.apart ha hb

end Synopsis.Span
