/-!
# Byte spans

A span is a pair of byte offsets into a text. Nothing forces `start ≤ stop`: spans also describe
requests that come from outside, and an inverted one is simply a span that holds no byte.
-/

namespace Synopsis

structure Span where
  start : Nat
  stop : Nat
deriving DecidableEq, Repr, Inhabited

namespace Span

def Holds (outer inner : Span) : Prop := outer.start ≤ inner.start ∧ inner.stop ≤ outer.stop

instance (outer inner : Span) : Decidable (outer.Holds inner) := instDecidableAnd

def StrictlyInside (offset : Nat) (s : Span) : Prop := s.start < offset ∧ offset < s.stop

instance (offset : Nat) (s : Span) : Decidable (StrictlyInside offset s) := instDecidableAnd

theorem Holds.refl (s : Span) : s.Holds s := ⟨Nat.le_refl _, Nat.le_refl _⟩

theorem Holds.trans {a b c : Span} (hab : a.Holds b) (hbc : b.Holds c) : a.Holds c :=
  ⟨Nat.le_trans hab.1 hbc.1, Nat.le_trans hbc.2 hab.2⟩

end Span
end Synopsis
