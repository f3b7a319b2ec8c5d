import Synopsis.Syntax.Tree
import Synopsis.Proofs.Span

/-!
# How the nodes of a tree lie to each other

In a well nested tree, of two nodes one is below the other or their spans are apart. All facts about
nodes below a node are proved by one induction, from the children of a node to the node.
-/

namespace Synopsis.Syntax.Tree

open Synopsis.Span

@[elab_as_elim]
theorem children_induction {motive : Tree → Prop}
    (step : ∀ t : Tree, (∀ c ∈ t.children, motive c) → motive t) (t : Tree) : motive t :=
  step t fun c hc =>
    have : sizeOf c < sizeOf t := by
      cases t with
      | node kind span missing cs =>
        have hlt : sizeOf c < sizeOf cs := List.sizeOf_lt_of_mem hc
        simp only [node.sizeOf_spec]
        omega
    children_induction step c
termination_by sizeOf t

def descendants (t : Tree) : List Tree := preorderAll t.children

theorem preorderAll_eq_flatMap (ts : List Tree) : preorderAll ts = ts.flatMap preorder := by
  induction ts with
  | nil => rfl
  | cons t ts ih => rw [preorderAll, ih, List.flatMap_cons]

theorem preorder_eq_cons (t : Tree) : t.preorder = t :: t.descendants := by
  cases t with
  | node => rfl

theorem mem_preorder {x t : Tree} : x ∈ t.preorder ↔ x = t ∨ x ∈ t.descendants := by
  rw [preorder_eq_cons, List.mem_cons]

theorem mem_descendants {x t : Tree} : x ∈ t.descendants ↔ ∃ c ∈ t.children, x ∈ c.preorder := by
  rw [descendants, preorderAll_eq_flatMap, List.mem_flatMap]

theorem self_mem_preorder (t : Tree) : t ∈ t.preorder := mem_preorder.mpr (.inl rfl)

theorem mem_descendants_of_mem_children {c t : Tree} (h : c ∈ t.children) : c ∈ t.descendants :=
  mem_descendants.mpr ⟨c, h, self_mem_preorder c⟩

theorem mem_preorder_trans {x y t : Tree} (hx : x ∈ y.preorder) (hy : y ∈ t.preorder) :
    x ∈ t.preorder := by
  induction t using children_induction with
  | step t ih =>
    rcases mem_preorder.mp hy with rfl | hy
    · exact hx
    · obtain ⟨c, hc, hyc⟩ := mem_descendants.mp hy
      exact mem_preorder.mpr (.inr (mem_descendants.mpr ⟨c, hc, ih c hc hyc⟩))

mutual
def decideWellNested : (t : Tree) → Decidable t.WellNested
  | node _ s _ cs =>
    have := decideNestedWithin s.start s.stop cs
    inferInstanceAs (Decidable (s.start ≤ s.stop ∧ NestedWithin s.start s.stop cs))
def decideNestedWithin (lo hi : Nat) : (ts : List Tree) → Decidable (NestedWithin lo hi ts)
  | [] => inferInstanceAs (Decidable (lo ≤ hi))
  | t :: ts =>
    have := decideWellNested t
    have := decideNestedWithin t.stop hi ts
    inferInstanceAs (Decidable (lo ≤ t.start ∧ WellNested t ∧ NestedWithin t.stop hi ts))
end

instance (t : Tree) : Decidable t.WellNested := decideWellNested t

theorem WellNested.start_le_stop {t : Tree} (h : t.WellNested) : t.start ≤ t.stop := by
  cases t with
  | node => exact h.1

theorem NestedWithin.le {lo hi : Nat} {ts : List Tree} (h : NestedWithin lo hi ts) : lo ≤ hi := by
  induction ts generalizing lo with
  | nil => exact h
  | cons t ts ih => exact Nat.le_trans h.1 (Nat.le_trans h.2.1.start_le_stop (ih h.2.2))

theorem NestedWithin.mem {lo hi : Nat} {ts : List Tree} (h : NestedWithin lo hi ts) {t : Tree}
    (ht : t ∈ ts) : lo ≤ t.start ∧ t.stop ≤ hi ∧ t.WellNested := by
  induction ts generalizing lo with
  | nil => cases ht
  | cons u ts ih =>
    obtain ⟨h1, h2, h3⟩ := h
    rcases List.mem_cons.mp ht with rfl | ht
    · exact ⟨h1, h3.le, h2⟩
    · obtain ⟨hlo, hhi, hwn⟩ := ih h3 ht
      exact ⟨Nat.le_trans h1 (Nat.le_trans h2.start_le_stop hlo), hhi, hwn⟩

theorem NestedWithin.inOrder {lo hi : Nat} {ts : List Tree} (h : NestedWithin lo hi ts) :
    ts.Pairwise fun a b => a.stop ≤ b.start := by
  induction ts generalizing lo with
  | nil => exact .nil
  | cons t ts ih =>
    refine .cons ?_ (ih h.2.2)
    intro u hu
    exact (h.2.2.mem hu).1

theorem WellNested.nestedWithin {t : Tree} (h : t.WellNested) :
    NestedWithin t.start t.stop t.children := by
  cases t with
  | node => exact h.2

theorem WellNested.child {c t : Tree} (h : t.WellNested) (hc : c ∈ t.children) :
    t.span.Holds c.span ∧ c.WellNested := by
  obtain ⟨h1, h2, h3⟩ := h.nestedWithin.mem hc
  exact ⟨⟨h1, h2⟩, h3⟩

theorem WellNested.siblings {c d t : Tree} (h : t.WellNested) (hc : c ∈ t.children)
    (hd : d ∈ t.children) : c = d ∨ c.stop ≤ d.start ∨ d.stop ≤ c.start := by
  have hord := h.nestedWithin.inOrder
  generalize t.children = ts at hc hd hord
  induction hord with
  | nil => cases hc
  | cons hrel _ ih =>
    rcases List.mem_cons.mp hc with rfl | hc' <;> rcases List.mem_cons.mp hd with rfl | hd'
    · exact .inl rfl
    · exact .inr (.inl (hrel d hd'))
    · exact .inr (.inr (hrel c hc'))
    · exact ih hc' hd'

theorem WellNested.of_mem_preorder {x t : Tree} (h : t.WellNested) (hx : x ∈ t.preorder) :
    t.span.Holds x.span ∧ x.WellNested := by
  induction t using children_induction with
  | step t ih =>
    rcases mem_preorder.mp hx with rfl | hx
    · exact ⟨Holds.refl _, h⟩
    · obtain ⟨c, hc, hxc⟩ := mem_descendants.mp hx
      obtain ⟨hspan, hwn⟩ := h.child hc
      obtain ⟨hx1, hx2⟩ := ih c hc hwn hxc
      exact ⟨hspan.trans hx1, hx2⟩

theorem WellNested.holds_of_mem_descendants {x t : Tree} (h : t.WellNested)
    (hx : x ∈ t.descendants) : t.span.Holds x.span :=
  (h.of_mem_preorder (mem_preorder.mpr (.inr hx))).1

theorem WellNested.trichotomy {x y t : Tree} (h : t.WellNested) (hx : x ∈ t.preorder)
    (hy : y ∈ t.preorder) :
    x = y ∨ x ∈ y.descendants ∨ y ∈ x.descendants ∨ x.span.Apart y.span := by
  induction t using children_induction with
  | step t ih =>
    rcases mem_preorder.mp hx with rfl | hx' <;> rcases mem_preorder.mp hy with rfl | hy'
    · exact .inl rfl
    · exact .inr (.inr (.inl hy'))
    · exact .inr (.inl hx')
    · obtain ⟨c, hc, hxc⟩ := mem_descendants.mp hx'
      obtain ⟨d, hd, hyd⟩ := mem_descendants.mp hy'
      rcases h.siblings hc hd with rfl | hap
      · exact ih c hc (h.child hc).2 hxc hyd
      · refine .inr (.inr (.inr ?_))
        have hcx := ((h.child hc).2.of_mem_preorder hxc).1
        have hdy := ((h.child hd).2.of_mem_preorder hyd).1
        exact Apart.mono hap hcx hdy

end Synopsis.Syntax.Tree
