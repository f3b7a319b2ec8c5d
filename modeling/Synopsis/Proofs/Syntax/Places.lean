import Synopsis.Proofs.Syntax.Reading
import Synopsis.Proofs.Text.Boundary

/-!
# Nodes begin and end between characters

A reader passes over whole characters, so the offset of every place that it reaches, and with it
each end of every node that it makes, is a boundary of the text. Only the nodes that stand for
faults are taken from elsewhere.
-/

namespace Synopsis.Syntax

open Synopsis.Text

/-- The nodes of the tree lie inside each other, and begin and end between characters of the
text. -/
structure Tree.PlacedIn (text : List Char) (t : Tree) : Prop where
  nested : t.WellNested
  boundary : ∀ x ∈ t.preorder, IsBoundary text x.start ∧ IsBoundary text x.stop

structure Place.In (text : List Char) (p : Place) : Prop where
  rest : ∃ before, text = before ++ p.rest ∧ byteLength before = p.offset
  found : ∀ t ∈ p.found, ∀ x ∈ t.preorder, x.faulty = false →
    IsBoundary text x.start ∧ IsBoundary text x.stop

namespace Place

variable {text : List Char} {p q : Place}

theorem In.boundary (h : p.In text) : IsBoundary text p.offset := by
  obtain ⟨before, htext, hlen⟩ := h.rest
  exact ⟨before, p.rest, htext, hlen⟩

theorem In.step {c : Char} {rest : List Char} (h : p.In text) (hp : p.rest = c :: rest) :
    Place.In text { p with rest, offset := p.offset + c.utf8Size } := by
  obtain ⟨before, htext, hlen⟩ := h.rest
  refine ⟨⟨before ++ [c], ?_, ?_⟩, h.found⟩
  · rw [htext, hp]
    simp
  · simp [hlen]

theorem start_in (text : List Char) : (start text).In text := by
  have hhere : Place.In text ⟨text, 0, [], 0⟩ := ⟨⟨[], rfl, rfl⟩, by simp⟩
  unfold start
  split
  case h_1 c rest =>
    split
    case isTrue => simpa using hhere.step rfl
    case isFalse => exact hhere
  case h_2 => exact hhere

theorem In.advance (h : p.In text) (n : Nat) : (p.advance n).In text := by
  fun_induction Place.advance n p with
  | case1 => exact h
  | case2 => exact h
  | case3 n p c rest hrest ih => exact ih (h.step hrest)

theorem In.moveTo (h : p.In text) (offset : Nat) : (p.moveTo offset).In text := by
  have hgo : ∀ rest (p : Place), p.rest = rest → p.In text →
      (Place.moveTo.go offset rest p).In text := by
    intro rest
    induction rest with
    | nil => exact fun p _ hp => hp
    | cons c rest ih =>
      intro p hrest hp
      rw [Place.moveTo.go]
      split
      case isTrue => exact ih _ rfl (hp.step hrest)
      case isFalse => exact hp
  exact hgo p.rest p rfl h

theorem In.add_faulty (h : p.In text) {kind : Kind} {span : Span} {missing : Bool}
    (hfault : (kind == .error || missing) = true) :
    (p.add (.node kind span missing [])).In text := by
  refine ⟨h.rest, fun t ht x hx hx' => ?_⟩
  rcases List.mem_cons.mp ht with rfl | ht
  · obtain rfl : x = .node kind span missing [] := by
      simpa [Tree.preorder, Tree.preorderAll] using hx
    exact absurd (hfault.symm.trans hx') (by decide)
  · exact h.found t ht x hx hx'

theorem In.skip (h : p.In text) (blank : List Char → Nat) (holes : List Span) :
    (p.skip blank holes).In text := by
  exact @skip_related (fun p q => p.In text → q.In text) (fun hpq hqr hp => hqr (hpq hp))
    (fun n p hp => hp.advance n) (fun hole p hp => (hp.moveTo hole.stop).add_faulty rfl) blank
    holes p h

end Place

section Read

variable {text : List Char}

theorem Pattern.read_in {ρ : Type} {repair : Repair} {call : ρ → Place → Outcome}
    (hcall : ∀ name p q, call name p = .ok q → p.In text → q.In text) {pattern : Pattern ρ}
    {p q : Place} (h : pattern.read repair call p = .ok q) (hp : p.In text) : q.In text := by
  induction pattern generalizing p q with
  | nothing =>
    obtain rfl := Except.ok.inj h
    exact hp
  | take scan =>
    obtain ⟨n, -, rfl⟩ := read_take_eq_ok.mp h
    exact hp.advance n
  | skip blank =>
    obtain rfl := Except.ok.inj h
    exact hp.skip blank repair.skipped
  | supply token =>
    obtain rfl := read_supply_eq_ok h
    exact hp.add_faulty (Bool.or_true _)
  | seq first second ih1 ih2 =>
    obtain ⟨r, hr, h⟩ := read_seq_eq_ok.mp h
    exact ih2 h (ih1 hr hp)
  | either first second ih1 ih2 =>
    rcases read_either_eq_ok h with h | ⟨reach, h⟩
    · exact ih1 h hp
    · exact ih2 h ⟨hp.rest, hp.found⟩
  | many item ih =>
    exact @repeatStep_related (fun p q => p.In text → q.In text) (fun hpq hqr hp => hqr (hpq hp))
      (fun p reach hp => ⟨hp.rest, hp.found⟩) _ (fun p q hpq hp => ih hpq hp) _ p q h hp
  | ahead item =>
    obtain rfl := eq_of_read_ahead h
    exact hp
  | refuse item =>
    obtain rfl := eq_of_read_refuse h
    exact hp
  | node kind inner ih =>
    obtain ⟨r, hr, rfl⟩ := read_node_eq_ok.mp h
    have hr' : r.In text := ih hr ⟨hp.rest, by simp⟩
    refine ⟨hr'.rest, fun t ht x hx hx' => ?_⟩
    rcases List.mem_cons.mp ht with rfl | ht
    · rcases Tree.mem_preorder.mp hx with rfl | hx
      · exact ⟨hp.boundary, hr'.boundary⟩
      · obtain ⟨c, hc, hxc⟩ := Tree.mem_descendants.mp hx
        exact hr'.found c (List.mem_reverse.mp hc) x hxc hx'
    · exact hp.found t ht x hx hx'
  | silent inner ih =>
    obtain ⟨r, hr, rfl⟩ := read_silent_eq_ok.mp h
    exact ⟨(ih hr hp).rest, hp.found⟩
  | rule name => exact hcall name p q h hp
  | given choose =>
    obtain ⟨name, -, h⟩ := read_given_eq_ok.mp h
    exact hcall name p q h hp

theorem Grammar.read_in {ρ : Type} {g : Grammar ρ} {repair : Repair} {depth : Nat} {name : ρ}
    {p q : Place} (h : g.read repair depth name p = .ok q) (hp : p.In text) : q.In text := by
  induction depth generalizing name p q with
  | zero => cases h
  | succ depth ih => exact Pattern.read_in (fun name p q hpq hp => ih hpq hp) h hp

theorem Grammar.tree?_boundary {ρ : Type} {g : Grammar ρ} {repair : Repair} {name : ρ} {t : Tree}
    (h : g.tree? repair name text = .ok t) {x : Tree} (hx : x ∈ t.preorder)
    (hfault : x.faulty = false) : IsBoundary text x.start ∧ IsBoundary text x.stop := by
  simp only [Grammar.tree?] at h
  split at h
  case h_1 p hp =>
    obtain rfl := Except.ok.inj h
    have hin := Grammar.read_in hp (Place.start_in text)
    rcases Tree.mem_preorder.mp hx with rfl | hx
    · exact ⟨(Place.start_in text).boundary, hin.boundary⟩
    · obtain ⟨c, hc, hxc⟩ := Tree.mem_descendants.mp hx
      exact hin.found c (List.mem_reverse.mp hc) x hxc hfault
  case h_2 => cases h

end Read

theorem Grammar.exists_repair {ρ : Type} {g : Grammar ρ} {name : ρ} {blank : List Char → Nat}
    {token : List Char → Option Nat} {closers : List String} {text : List Char}
    (h : (g.tree name blank token closers text).hasError = false) :
    ∃ repair, g.tree? repair name text = .ok (g.tree name blank token closers text) := by
  unfold Grammar.tree at h ⊢
  split
  case h_1 t ht => exact ⟨_, ht⟩
  case h_2 reach hreach =>
    simp only [hreach] at h ⊢
    split
    case h_1 t ht => exact Grammar.exists_repair_of_search ht
    case h_2 hnone =>
      rw [hnone] at h
      cases h

theorem Grammar.tree?_or_empty_boundary {ρ : Type} {g : Grammar ρ} {repair : Repair} {name : ρ}
    {text : List Char} {x : Tree}
    (hx : x ∈ (match g.tree? repair name text with
      | .ok t => t
      | .error _ => .node .file ⟨0, 0⟩ false []).preorder) (hfault : x.faulty = false) :
    IsBoundary text x.start ∧ IsBoundary text x.stop := by
  split at hx
  case h_1 t ht => exact Grammar.tree?_boundary ht hx hfault
  case h_2 =>
    obtain rfl : x = .node .file ⟨0, 0⟩ false [] := by
      simpa [Tree.preorder, Tree.preorderAll] using hx
    exact ⟨isBoundary_zero text, isBoundary_zero text⟩

namespace Tree

theorem anyHasError_eq_any (ts : List Tree) : anyHasError ts = ts.any hasError := by
  induction ts with
  | nil => rfl
  | cons t ts ih => rw [anyHasError, ih, List.any_cons]

theorem hasError_eq (t : Tree) : t.hasError = (t.faulty || t.children.any hasError) := by
  cases t with
  | node kind span missing cs => rw [hasError, anyHasError_eq_any]; rfl

theorem hasError_iff {t : Tree} : t.hasError = true ↔ ∃ x ∈ t.preorder, x.faulty = true := by
  induction t using children_induction with
  | step t ih =>
    rw [hasError_eq, Bool.or_eq_true, List.any_eq_true]
    constructor
    · rintro (h | ⟨c, hc, h⟩)
      · exact ⟨t, self_mem_preorder t, h⟩
      · obtain ⟨x, hx, hfault⟩ := (ih c hc).mp h
        exact ⟨x, mem_preorder.mpr (.inr (mem_descendants.mpr ⟨c, hc, hx⟩)), hfault⟩
    · rintro ⟨x, hx, hfault⟩
      rcases mem_preorder.mp hx with rfl | hx
      · exact .inl hfault
      · obtain ⟨c, hc, hxc⟩ := mem_descendants.mp hx
        exact .inr ⟨c, hc, (ih c hc).mpr ⟨x, hxc, hfault⟩⟩

theorem faulty_of_mem_preorder {t x : Tree} (h : t.hasError = false) (hx : x ∈ t.preorder) :
    x.faulty = false := by
  rw [← Bool.not_eq_true] at h ⊢
  exact fun hfault => h (hasError_iff.mpr ⟨x, hx, hfault⟩)

end Tree

end Synopsis.Syntax
