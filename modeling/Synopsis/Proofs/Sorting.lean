import Synopsis.Proofs.Text.Encoding
import Synopsis.Text.Path

/-!
# Sorting

A sort leaves equivalent elements in the order in which they were. Together with the order of the
result this says what the result is, so sorting and leaving elements out may change places. Paths
are sorted by their bytes, and different paths have different bytes.
-/

namespace Synopsis

section Stable

variable {α : Type} {le : α → α → Bool}
  (trans : ∀ a b c, le a b = true → le b c = true → le a c = true)
  (total : ∀ a b, (le a b || le b a) = true)

include total

theorem mem_of_filter_equivalent {l₁ l₂ : List α}
    (h : ∀ a, l₁.filter (fun b => le a b && le b a) = l₂.filter fun b => le a b && le b a) {a : α}
    (ha : a ∈ l₁) : a ∈ l₂ := by
  have hrefl : (le a a && le a a) = true := by simpa using total a a
  have hmem : a ∈ l₁.filter fun b => le a b && le b a := List.mem_filter.mpr ⟨ha, hrefl⟩
  rw [h a] at hmem
  exact (List.mem_filter.mp hmem).1

theorem eq_of_filter_equivalent {l₁ l₂ : List α} (h₁ : l₁.Pairwise fun a b => le a b = true)
    (h₂ : l₂.Pairwise fun a b => le a b = true)
    (h : ∀ a, l₁.filter (fun b => le a b && le b a) = l₂.filter fun b => le a b && le b a) :
    l₁ = l₂ := by
  have hrefl : ∀ a, le a a = true := fun a => by simpa using total a a
  induction l₁ generalizing l₂ with
  | nil =>
    cases l₂ with
    | nil => rfl
    | cons b l₂ => cases mem_of_filter_equivalent total (fun a => (h a).symm) (.head l₂)
  | cons a l₁ ih =>
    cases l₂ with
    | nil => cases mem_of_filter_equivalent total h (.head l₁)
    | cons b l₂ =>
      -- each head comes before the other, so both are the first of the same class
      have hab : le a b = true := by
        rcases List.mem_cons.mp (mem_of_filter_equivalent total (fun a => (h a).symm) (.head l₂))
          with rfl | hb
        · exact hrefl b
        · exact List.rel_of_pairwise_cons h₁ hb
      have hba : le b a = true := by
        rcases List.mem_cons.mp (mem_of_filter_equivalent total h (.head l₁)) with rfl | ha
        · exact hrefl a
        · exact List.rel_of_pairwise_cons h₂ ha
      have hclass := h a
      simp only [List.filter_cons, hrefl, hab, hba, Bool.and_self, if_true] at hclass
      obtain rfl : a = b := (List.cons.inj hclass).1
      congr 1
      refine ih h₁.of_cons h₂.of_cons fun c => ?_
      have hc := h c
      rw [List.filter_cons, List.filter_cons] at hc
      split at hc
      · exact (List.cons.inj hc).2
      · exact hc

include trans

theorem filter_mergeSort {p : α → Bool} (hp : ∀ a b, p a = true → p b = true → le a b = true)
    (l : List α) : (l.mergeSort le).filter p = l.filter p := by
  have hsub : (l.filter p).Sublist (l.mergeSort le) := by
    refine List.sublist_mergeSort trans total ?_ List.filter_sublist
    refine List.pairwise_of_forall_mem_list fun a ha b hb => ?_
    exact hp a b (List.mem_filter.mp ha).2 (List.mem_filter.mp hb).2
  have hsub' : (l.filter p).Sublist ((l.mergeSort le).filter p) := by
    simpa [List.filter_filter] using hsub.filter p
  have hperm := (List.mergeSort_perm l le).filter p
  exact (hsub'.eq_of_length hperm.length_eq.symm).symm

theorem mergeSort_filter (p : α → Bool) (l : List α) :
    (l.filter p).mergeSort le = (l.mergeSort le).filter p := by
  refine eq_of_filter_equivalent total (List.pairwise_mergeSort trans total _)
    ((List.pairwise_mergeSort trans total l).filter p) fun a => ?_
  have hclass : ∀ b c, (le a b && le b a) = true → (le a c && le c a) = true → le b c = true := by
    intro b c hb hc
    exact trans b a c (Bool.and_eq_true_iff.mp hb).2 (Bool.and_eq_true_iff.mp hc).1
  rw [filter_mergeSort trans total hclass, List.filter_filter, List.filter_filter,
    filter_mergeSort trans total]
  intro b c hb hc
  exact hclass b c (Bool.and_eq_true_iff.mp hb).1 (Bool.and_eq_true_iff.mp hc).1

end Stable

namespace Text

theorem encode_injective {a b : List Char} (h : encode a = encode b) : a = b := by
  have hd := congrArg decode h
  rwa [decode_encode, decode_encode] at hd

end Text

namespace Path

theorem le_iff {a b : List Char} : le a b = true ↔ Text.encode a ≤ Text.encode b :=
  decide_eq_true_iff

theorem le_trans (a b c : List Char) (hab : le a b = true) (hbc : le b c = true) :
    le a c = true :=
  le_iff.mpr (List.le_trans (le_iff.mp hab) (le_iff.mp hbc))

theorem le_total (a b : List Char) : (le a b || le b a) = true := by
  rw [Bool.or_eq_true, le_iff, le_iff]
  exact List.le_total _ _

def Ascending (paths : List (List Char)) : Prop :=
  paths.Pairwise fun a b => Text.encode a < Text.encode b

instance : DecidablePred Ascending := fun paths =>
  inferInstanceAs (Decidable (paths.Pairwise fun a b => Text.encode a < Text.encode b))

theorem Ascending.nodup {paths : List (List Char)} (h : Ascending paths) : paths.Nodup := by
  refine h.imp fun {a b} hab he => ?_
  rw [he] at hab
  exact List.lt_irrefl _ hab

theorem ascending_of_sorted {paths : List (List Char)}
    (h : paths.Pairwise fun a b => le a b = true) (hn : paths.Nodup) : Ascending paths := by
  refine (List.Pairwise.and h hn).imp fun {a b} hab => ?_
  exact Std.lt_of_le_of_ne (le_iff.mp hab.1) fun he => hab.2 (Text.encode_injective he)

-- A strict order leaves one way to put the same elements.
theorem eq_of_perm_of_ascending {α : Type} {key : α → List Char} {l₁ l₂ : List α}
    (hp : l₁.Perm l₂) (h₁ : Ascending (l₁.map key)) (h₂ : Ascending (l₂.map key)) : l₁ = l₂ := by
  rw [Ascending, List.pairwise_map] at h₁ h₂
  refine hp.eq_of_pairwise (fun a b _ _ hab hba => ?_) h₁ h₂
  exact absurd (List.lt_trans hab hba) (List.lt_irrefl _)

end Path
end Synopsis
