import Synopsis.Syntax.Pattern

/-!
# What a step of reading does

For each way to build a pattern, one lemma says where reading it may lead. Repeating a pattern and
passing over blanks take any number of steps: they keep every transitive relation between places
that single steps keep.
-/

namespace Synopsis.Syntax

namespace Pattern

-- The equations of `read` are made here, once for all the lemmas that follow.
attribute [grind =] read

section Read

variable {ρ : Type} {repair : Repair} {call : ρ → Place → Outcome} {p q : Place}

theorem read_take_eq_ok {scan : List Char → Option Nat} :
    (take scan).read repair call p = .ok q ↔ ∃ n, scan p.rest = some n ∧ p.advance n = q := by
  rw [read]
  split
  case h_1 n hn => simp [hn]
  case h_2 hn => simp [hn, Place.refused]

theorem read_supply_eq_ok {text : String} (h : (supply text).read repair call p = .ok q) :
    q = p.add (.node (.token text) ⟨p.offset, p.offset⟩ true []) := by
  rw [read] at h
  split at h
  case isTrue => exact (Except.ok.inj h).symm
  case isFalse => cases h

theorem read_seq_eq_ok {first second : Pattern ρ} :
    (seq first second).read repair call p = .ok q ↔
      ∃ r, first.read repair call p = .ok r ∧ second.read repair call r = .ok q := by
  rw [read]
  split
  case h_1 r hr => simp [hr]
  case h_2 hr => simp [hr]

theorem read_either_eq_ok {first second : Pattern ρ}
    (h : (either first second).read repair call p = .ok q) :
    first.read repair call p = .ok q ∨
      ∃ reach, second.read repair call { p with reach } = .ok q := by
  rw [read] at h
  split at h
  case h_1 r hr => exact .inl (hr.trans h)
  case h_2 reach hr => exact .inr ⟨_, h⟩

theorem read_node_eq_ok {kind : Kind} {inner : Pattern ρ} :
    (node kind inner).read repair call p = .ok q ↔
      ∃ r, inner.read repair call { p with found := [] } = .ok r ∧
        { r with found := .node kind ⟨p.offset, r.offset⟩ false r.found.reverse :: p.found } =
          q := by
  rw [read]
  split
  case h_1 r hr => simp [hr]
  case h_2 hr => simp [hr]

theorem read_silent_eq_ok {inner : Pattern ρ} :
    (silent inner).read repair call p = .ok q ↔
      ∃ r, inner.read repair call p = .ok r ∧ { r with found := p.found } = q := by
  rw [read]
  split
  case h_1 r hr => simp [hr]
  case h_2 hr => simp [hr]

theorem read_given_eq_ok {choose : List Char → Option ρ} :
    (given choose).read repair call p = .ok q ↔
      ∃ name, choose p.rest = some name ∧ call name p = .ok q := by
  rw [read]
  split
  case h_1 name hn => simp [hn]
  case h_2 hn => simp [hn, Place.refused]

theorem eq_of_read_ahead {item : Pattern ρ} (h : (ahead item).read repair call p = .ok q) :
    q = p := by
  rw [read] at h
  split at h
  case h_1 => exact (Except.ok.inj h).symm
  case h_2 => cases h

theorem eq_of_read_refuse {item : Pattern ρ} (h : (refuse item).read repair call p = .ok q) :
    q = p := by
  rw [read] at h
  split at h
  case h_1 => cases h
  case h_2 => exact (Except.ok.inj h).symm

end Read

end Pattern

theorem Grammar.read_eq_ok {ρ : Type} {g : Grammar ρ} {repair : Repair} {depth : Nat} {name : ρ}
    {p q : Place} (h : g.read repair depth name p = .ok q) :
    ∃ fewer, (g name).read repair (g.read repair fewer) p = .ok q := by
  cases depth with
  | zero => cases h
  | succ depth => exact ⟨depth, h⟩

section Related

variable {R : Place → Place → Prop} (htrans : ∀ {p q r}, R p q → R q r → R p r)

include htrans

theorem repeatStep_related (hreach : ∀ p reach, R p { p with reach }) {step : Place → Outcome}
    (hstep : ∀ p q, step p = .ok q → R p q) {n : Nat} {p q : Place}
    (h : Pattern.repeatStep step n p = .ok q) : R p q := by
  induction n generalizing p with
  | zero =>
    obtain rfl := Except.ok.inj h
    exact hreach p p.reach
  | succ n ih =>
    rw [Pattern.repeatStep] at h
    split at h
    case h_1 r hr =>
      split at h
      case isTrue =>
        obtain rfl := Except.ok.inj h
        exact hreach p p.reach
      case isFalse => exact htrans (hstep p r hr) (ih h)
    case h_2 =>
      obtain rfl := Except.ok.inj h
      exact hreach p _

theorem skip_related (hadvance : ∀ n p, R p (p.advance n))
    (hhole : ∀ hole p, R p ((p.moveTo hole.stop).add (.node .error hole false [])))
    (blank : List Char → Nat) (holes : List Span) (p : Place) : R p (p.skip blank holes) := by
  induction holes generalizing p with
  | nil => exact hadvance _ p
  | cons hole holes ih =>
    rw [Place.skip]
    split
    case isTrue => exact htrans (hadvance _ p) (htrans (hhole hole _) (ih _))
    case isFalse => exact htrans (hadvance _ p) (ih _)

end Related

end Synopsis.Syntax
