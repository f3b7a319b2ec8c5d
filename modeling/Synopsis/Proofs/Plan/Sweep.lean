import Synopsis.Plan
import Synopsis.Proofs.Span

/-!
# Sweeping through cuts

The sweep compares a cut only with the last one kept. This is enough because cuts come by start, the
longer first, so that every cut already seen lies inside a kept one. From this follow what the sweep
keeps, the outermost cuts, and where it stops, at the first two outermost ones that cross.
-/

namespace Synopsis.Plan

open Synopsis.Span

theorem precedes_iff {a b : Cut} : precedes a b = true ↔
    a.span.start < b.span.start ∨ a.span.start = b.span.start ∧ b.span.stop ≤ a.span.stop := by
  simp [precedes]

theorem precedes_trans (a b c : Cut) (hab : precedes a b = true) (hbc : precedes b c = true) :
    precedes a c = true := by
  rw [precedes_iff] at *
  omega

theorem precedes_total (a b : Cut) : (precedes a b || precedes b a) = true := by
  rw [Bool.or_eq_true, precedes_iff, precedes_iff]
  omega

theorem span_eq_of_precedes_of_holds {a b : Cut} (h : precedes a b = true)
    (hb : b.span.Holds a.span) : b.span = a.span := by
  rw [precedes_iff] at h
  refine hb.antisymm ⟨?_, ?_⟩ <;> have := hb.1 <;> have := hb.2 <;> omega

theorem sweep_cons_ok {last : Option Cut} {c : Cut} {cs kept : List Cut}
    (h : sweep last (c :: cs) = .ok kept) :
    (∃ l, last = some l ∧ c.span.stop ≤ l.span.stop ∧ sweep last cs = .ok kept) ∨
      ∃ rest, kept = c :: rest ∧ (∀ l ∈ last, l.span.stop ≤ c.span.start) ∧
        sweep (some c) cs = .ok rest := by
  have hmap : ∀ {r : Except Conflict (List Cut)}, r.map (c :: ·) = .ok kept →
      ∃ rest, kept = c :: rest ∧ r = .ok rest := by
    intro r hr
    cases r with
    | error e => cases hr
    | ok rest => exact ⟨rest, (Except.ok.inj hr).symm, rfl⟩
  cases last with
  | none =>
    obtain ⟨rest, hk, hr⟩ := hmap h
    exact .inr ⟨rest, hk, by simp, hr⟩
  | some l =>
    rw [sweep] at h
    split at h
    case isTrue hin => exact .inl ⟨l, rfl, hin, h⟩
    case isFalse hout =>
      split at h
      case isTrue => cases h
      case isFalse hstart =>
        obtain ⟨rest, hk, hr⟩ := hmap h
        exact .inr ⟨rest, hk, by simpa using hstart, hr⟩

theorem sweep_sublist {last : Option Cut} {cs kept : List Cut} (h : sweep last cs = .ok kept) :
    kept.Sublist cs := by
  induction cs generalizing last kept with
  | nil =>
    simp only [sweep, Except.ok.injEq] at h
    exact h ▸ List.Sublist.refl _
  | cons c cs ih =>
    rcases sweep_cons_ok h with ⟨l, -, -, hr⟩ | ⟨rest, rfl, -, hr⟩
    · exact (ih hr).cons c
    · exact (ih hr).cons_cons c

theorem sweep_inOrder {last : Option Cut} {cs kept : List Cut} (h : sweep last cs = .ok kept)
    (hne : ∀ c ∈ cs, c.span.start < c.span.stop) :
    InOrder ((last.toList ++ kept).map Cut.span) := by
  induction cs generalizing last kept with
  | nil =>
    simp only [sweep, Except.ok.injEq] at h
    subst h
    cases last <;> simp [InOrder]
  | cons c cs ih =>
    have hcs : ∀ d ∈ cs, d.span.start < d.span.stop := fun d hd => hne d (by simp [hd])
    rcases sweep_cons_ok h with ⟨l, rfl, -, hr⟩ | ⟨rest, rfl, hl, hr⟩
    · exact ih hr hcs
    · have hrest : InOrder ((c :: rest).map Cut.span) := ih hr hcs
      cases last with
      | none => exact hrest
      | some l =>
        have hlc := hl l rfl
        have hc := hne c (by simp)
        refine List.pairwise_cons.mpr ⟨?_, hrest⟩
        intro s hs
        rcases List.mem_cons.mp hs with rfl | hs
        · exact hlc
        · have hcs := (List.pairwise_cons.mp hrest).1 s hs
          omega

theorem sweep_covers {last : Option Cut} {cs kept : List Cut} (h : sweep last cs = .ok kept)
    (hs : (last.toList ++ cs).Pairwise fun a b => precedes a b = true) {c : Cut} (hc : c ∈ cs) :
    ∃ k ∈ last.toList ++ kept, k.span.Holds c.span := by
  induction cs generalizing last kept with
  | nil => cases hc
  | cons d cs ih =>
    rcases sweep_cons_ok h with ⟨l, rfl, hin, hr⟩ | ⟨rest, rfl, -, hr⟩
    · have hs' : (l :: d :: cs).Pairwise fun a b => precedes a b = true := hs
      rcases List.mem_cons.mp hc with rfl | hc
      · have hlc := precedes_iff.mp ((List.pairwise_cons.mp hs').1 c (by simp))
        exact ⟨l, by simp, by omega, hin⟩
      · exact ih hr (hs'.sublist (by simp)) hc
    · rcases List.mem_cons.mp hc with rfl | hc
      · exact ⟨c, by simp, Holds.refl _⟩
      · obtain ⟨k, hk, hkc⟩ := ih hr (hs.sublist (by simp)) hc
        exact ⟨k, List.mem_append_right _ hk, hkc⟩

-- A kept cut reaches beyond all cuts before it, so none of these has its span.
theorem sweep_find? {last : Option Cut} {cs kept : List Cut} (h : sweep last cs = .ok kept)
    (hne : ∀ c ∈ cs, c.span.start < c.span.stop) {k : Cut} (hk : k ∈ kept) :
    cs.find? (fun d => d.span = k.span) = some k := by
  induction cs generalizing last kept with
  | nil =>
    simp only [sweep, Except.ok.injEq] at h
    subst h
    cases hk
  | cons c cs ih =>
    have hcs : ∀ d ∈ cs, d.span.start < d.span.stop := fun d hd => hne d (by simp [hd])
    have hkne := hne k ((sweep_sublist h).subset hk)
    rcases sweep_cons_ok h with ⟨l, rfl, hin, hr⟩ | ⟨rest, rfl, -, hr⟩
    · have hlk := (List.pairwise_cons.mp (sweep_inOrder hr hcs)).1 k.span
        (List.mem_map_of_mem hk)
      have hck : c.span ≠ k.span := by
        intro he
        rw [he] at hin
        omega
      rw [List.find?_cons_of_neg (by simpa using hck)]
      exact ih hr hcs hk
    · rcases List.mem_cons.mp hk with rfl | hk
      · simp
      · have hck := (List.pairwise_cons.mp (sweep_inOrder hr hcs)).1 k.span
          (List.mem_map_of_mem hk)
        have hc := hne c (by simp)
        have hne' : c.span ≠ k.span := by
          intro he
          rw [he] at hck
          omega
        rw [List.find?_cons_of_neg (by simpa using hne')]
        exact ih hr hcs hk

theorem sweep_error {last : Option Cut} {cs : List Cut} {e : Conflict}
    (h : sweep last cs = .error e) :
    ∃ before c after kept l, cs = before ++ c :: after ∧ sweep last before = .ok kept ∧
      (last.toList ++ kept).getLast? = some l ∧ l.span.stop < c.span.stop ∧
      c.span.start < l.span.stop ∧ e = ⟨l.span, c.span⟩ := by
  have hmap : ∀ {c : Cut} {r : Except Conflict (List Cut)}, r.map (c :: ·) = .error e →
      r = .error e := by
    intro c r hr
    cases r with
    | error _ => exact hr
    | ok _ => cases hr
  induction cs generalizing last with
  | nil => cases h
  | cons c cs ih =>
    cases last with
    | none =>
      obtain ⟨before, d, after, kept, l, rfl, hb, hl, h1, h2, he⟩ := ih (hmap h)
      refine ⟨c :: before, d, after, c :: kept, l, rfl, ?_, by simpa using hl, h1, h2, he⟩
      rw [sweep, hb]
      rfl
    | some m =>
      rw [sweep] at h
      split at h
      case isTrue hin =>
        obtain ⟨before, d, after, kept, l, rfl, hb, hl, h1, h2, he⟩ := ih h
        refine ⟨c :: before, d, after, kept, l, rfl, ?_, hl, h1, h2, he⟩
        rw [sweep, if_pos hin, hb]
      case isFalse hout =>
        split at h
        case isTrue hstart =>
          exact ⟨[], c, cs, [], m, rfl, rfl, rfl, by omega, hstart, (Except.error.inj h).symm⟩
        case isFalse hstart =>
          obtain ⟨before, d, after, kept, l, rfl, hb, hl, h1, h2, he⟩ := ih (hmap h)
          refine ⟨c :: before, d, after, c :: kept, l, rfl, ?_, ?_, h1, h2, he⟩
          · rw [sweep, if_neg hout, if_neg hstart, hb]
            rfl
          · simpa using hl

def Outermost (cs : List Cut) (s : Span) : Prop :=
  s ∈ cs.map Cut.span ∧ ∀ c ∈ cs, c.span.Holds s → c.span = s

theorem Outermost.congr {cs ds : List Cut} (h : ∀ c, c ∈ cs ↔ c ∈ ds) {s : Span} :
    Outermost cs s ↔ Outermost ds s := by
  simp [Outermost, h]

section Swept

variable {before after kept : List Cut} (h : sweep none before = .ok kept)
  (hs : (before ++ after).Pairwise fun a b => precedes a b = true)
  (hne : ∀ c ∈ before ++ after, c.span.start < c.span.stop)

include h hs in
theorem exists_kept_holds {c : Cut} (hc : c ∈ before) : ∃ k ∈ kept, k.span.Holds c.span :=
  sweep_covers h (List.pairwise_append.mp hs).1 hc

include h hne in
theorem kept_inOrder : InOrder (kept.map Cut.span) :=
  sweep_inOrder h fun c hc => hne c (List.mem_append_left _ hc)

include h hne in
theorem kept_nonempty {k : Cut} (hk : k ∈ kept) : k.span.start < k.span.stop :=
  hne k (List.mem_append_left _ ((sweep_sublist h).subset hk))

include h hne in
theorem kept_eq_of_holds {j k : Cut} (hj : j ∈ kept) (hk : k ∈ kept) {s : Span}
    (hjs : j.span.Holds s) (hks : k.span.Holds s) (hsne : s.start < s.stop) :
    j.span = k.span := by
  rcases (kept_inOrder h hne).eq_or_apart (List.mem_map_of_mem hj) (List.mem_map_of_mem hk) with
    he | hapart
  · exact he
  · have hss := hapart.mono hjs hks
    rcases hss with hss | hss <;> omega

include h hs hne in
theorem kept_outermost {k : Cut} (hk : k ∈ kept) : Outermost (before ++ after) k.span := by
  have hkb := (sweep_sublist h).subset hk
  refine ⟨List.mem_map_of_mem (List.mem_append_left _ hkb), fun c hc hck => ?_⟩
  rcases List.mem_append.mp hc with hc | hc
  · obtain ⟨j, hj, hjc⟩ := exists_kept_holds h hs hc
    have hjk : j.span = k.span :=
      kept_eq_of_holds h hne hj hk (hjc.trans hck) (Holds.refl _) (kept_nonempty h hne hk)
    exact (hjk ▸ hjc).antisymm hck |>.symm
  · exact span_eq_of_precedes_of_holds ((List.pairwise_append.mp hs).2.2 k hkb c hc) hck

include h hs in
theorem mem_kept_of_outermost {s : Span} (hs' : Outermost (before ++ after) s)
    (hb : s ∈ before.map Cut.span) : s ∈ kept.map Cut.span := by
  obtain ⟨c, hc, rfl⟩ := List.mem_map.mp hb
  obtain ⟨k, hk, hkc⟩ := exists_kept_holds h hs hc
  have hkb := (sweep_sublist h).subset hk
  rw [← hs'.2 k (List.mem_append_left _ hkb) hkc]
  exact List.mem_map_of_mem hk

end Swept

/-- The cuts are the outermost of those asked for, each once, in order, and each with the marker of
the first that asked for its span. -/
structure Kept (cs cuts : List Cut) : Prop where
  mem_iff : ∀ s, s ∈ cuts.map Cut.span ↔ Outermost cs s
  nodup : (cuts.map Cut.span).Nodup
  nonempty : ∀ k ∈ cuts, k.span.start < k.span.stop
  inOrder : InOrder (cuts.map Cut.span)
  first : ∀ k ∈ cuts, cs.find? (fun d => d.span = k.span) = some k
  inside : ∀ c ∈ cs, ∃ k ∈ cuts, k.span.Holds c.span ∧ ∀ j ∈ cuts, j.span.Holds c.span → j = k

structure Clash (cs : List Cut) (e : Conflict) : Prop where
  first : Outermost cs e.first
  second : Outermost cs e.second
  crosses : e.first.Crosses e.second
  neighbours : ∀ s, Outermost cs s → e.first.start < s.start → e.second.start ≤ s.start
  leftmost : ∀ a b, Outermost cs a → Outermost cs b → a.Crosses b → e.first.start ≤ a.start

theorem sweep_kept {cs kept : List Cut} (h : sweep none cs = .ok kept)
    (hs : cs.Pairwise fun a b => precedes a b = true)
    (hne : ∀ c ∈ cs, c.span.start < c.span.stop) : Kept cs kept := by
  have hs' : (cs ++ []).Pairwise fun a b => precedes a b = true := by simpa using hs
  have hne' : ∀ c ∈ cs ++ [], c.span.start < c.span.stop := by simpa using hne
  have hfind : ∀ k ∈ kept, cs.find? (fun d => d.span = k.span) = some k :=
    fun k hk => sweep_find? h hne hk
  refine ⟨fun s => ⟨?_, ?_⟩, ?_, fun k hk => kept_nonempty h hne' hk, kept_inOrder h hne', hfind,
    ?_⟩
  · intro hmem
    obtain ⟨k, hk, rfl⟩ := List.mem_map.mp hmem
    simpa using kept_outermost h hs' hne' hk
  · intro hout
    exact mem_kept_of_outermost h hs' (by simpa using hout) hout.1
  · refine (kept_inOrder h hne').imp_of_mem ?_
    intro a b ha _ hab he
    obtain ⟨k, hk, rfl⟩ := List.mem_map.mp ha
    have hkne := kept_nonempty h hne' hk
    rw [← he] at hab
    omega
  · intro c hc
    obtain ⟨k, hk, hkc⟩ := exists_kept_holds h hs' hc
    refine ⟨k, hk, hkc, fun j hj hjc => ?_⟩
    have hspan := kept_eq_of_holds h hne' hj hk hjc hkc (hne c hc)
    exact Option.some.inj ((hfind j hj).symm.trans (hspan ▸ hfind k hk))

section Stopped

variable {before after kept : List Cut} {c l : Cut} (h : sweep none before = .ok kept)
  (hl : kept.getLast? = some l)
  (hs : (before ++ c :: after).Pairwise fun a b => precedes a b = true)
  (hne : ∀ d ∈ before ++ c :: after, d.span.start < d.span.stop)

include h hl hne in
theorem kept_upto_last {s : Span} (hk : s ∈ kept.map Cut.span) :
    s = l.span ∨ s.stop ≤ l.span.start := by
  have hord := kept_inOrder h hne
  obtain ⟨init, rfl⟩ := List.getLast?_eq_some_iff.mp hl
  rw [List.map_append] at hk hord
  rcases List.mem_append.mp hk with hk | hk
  · exact .inr ((List.pairwise_append.mp hord).2.2 s hk l.span (by simp))
  · exact .inl (by simpa using hk)

include h hs in
theorem kept_or_after {s : Span} (hout : Outermost (before ++ c :: after) s) :
    s ∈ kept.map Cut.span ∨ c.span.start ≤ s.start := by
  obtain ⟨d, hd, rfl⟩ := List.mem_map.mp hout.1
  rcases List.mem_append.mp hd with hd | hd
  · exact .inl (mem_kept_of_outermost h hs hout (List.mem_map_of_mem hd))
  · rcases List.mem_cons.mp hd with rfl | hd
    · exact .inr (Nat.le_refl _)
    · have hcd := precedes_iff.mp
        ((List.pairwise_cons.mp (List.pairwise_append.mp hs).2.1).1 d hd)
      exact .inr (by omega)

include h hl hs hne in
theorem stopping_outermost (hstop : l.span.stop < c.span.stop) :
    Outermost (before ++ c :: after) c.span := by
  refine ⟨by simp, fun d hd hdc => ?_⟩
  rcases List.mem_append.mp hd with hd | hd
  · -- a cut that was seen lies inside a kept one, and none of these reaches so far
    obtain ⟨k, hk, hkd⟩ := exists_kept_holds h hs hd
    have hkc := (hkd.trans hdc).2
    have hlne := kept_nonempty h hne (List.mem_of_getLast? hl)
    rcases kept_upto_last h hl hne (List.mem_map_of_mem hk) with he | hle
    · rw [he] at hkc
      omega
    · omega
  · rcases List.mem_cons.mp hd with rfl | hd
    · rfl
    · exact span_eq_of_precedes_of_holds
        ((List.pairwise_cons.mp (List.pairwise_append.mp hs).2.1).1 d hd) hdc

include h hl hs hne in
theorem stopping_neighbour {s : Span} (hout : Outermost (before ++ c :: after) s)
    (hls : l.span.start < s.start) : c.span.start ≤ s.start := by
  rcases kept_or_after h hs hout with hk | hcs
  · have hsne : s.start < s.stop := by
      obtain ⟨k, hmem, rfl⟩ := List.mem_map.mp hk
      exact kept_nonempty h hne hmem
    rcases kept_upto_last h hl hne hk with rfl | hle <;> omega
  · exact hcs

include h hl hs hne in
theorem stopping_leftmost (hlc : l.span.start < c.span.start) {a b : Span}
    (ha : Outermost (before ++ c :: after) a) (hb : Outermost (before ++ c :: after) b)
    (hab : a.Crosses b) : l.span.start ≤ a.start := by
  obtain ⟨h1, h2, h3⟩ := hab
  rcases kept_or_after h hs ha with hka | hca
  · rcases kept_upto_last h hl hne hka with rfl | hal
    · exact Nat.le_refl _
    · rcases kept_or_after h hs hb with hkb | hcb
      · rcases (kept_inOrder h hne).eq_or_apart hka hkb with rfl | hap | hap <;> omega
      · omega
  · omega

end Stopped

theorem sweep_clash {cs : List Cut} {e : Conflict} (h : sweep none cs = .error e)
    (hs : cs.Pairwise fun a b => precedes a b = true)
    (hne : ∀ c ∈ cs, c.span.start < c.span.stop) : Clash cs e := by
  obtain ⟨before, c, after, kept, l, rfl, hb, hl, hstop, hstart, rfl⟩ := sweep_error h
  have hl' : kept.getLast? = some l := hl
  have hlk : l ∈ kept := List.mem_of_getLast? hl'
  have hlc : l.span.start < c.span.start := by
    have hlb := (sweep_sublist hb).subset hlk
    have hpre := precedes_iff.mp ((List.pairwise_append.mp hs).2.2 l hlb c (by simp))
    omega
  exact
    { first := kept_outermost hb hs hne hlk
      second := stopping_outermost hb hl' hs hne hstop
      crosses := ⟨hlc, hstart, hstop⟩
      neighbours := fun _ hout hls => stopping_neighbour hb hl' hs hne hout hls
      leftmost := fun _ _ ha hb' hab => stopping_leftmost hb hl' hs hne hlc ha hb' hab }

theorem map_cons_spans {c d : Cut} {r r' : Except Conflict (List Cut)} (hcd : c.span = d.span)
    (h : r.map (·.map Cut.span) = r'.map (·.map Cut.span)) :
    (r.map (c :: ·)).map (·.map Cut.span) = (r'.map (d :: ·)).map (·.map Cut.span) := by
  cases r <;> cases r' <;> simp_all [Except.map]

-- The sweep looks at spans only, so lists with the same spans have the same outcome.
theorem sweep_spans {last last' : Option Cut} (hlast : last.map Cut.span = last'.map Cut.span)
    {cs ds : List Cut} (h : cs.map Cut.span = ds.map Cut.span) :
    (sweep last cs).map (·.map Cut.span) = (sweep last' ds).map (·.map Cut.span) := by
  induction cs generalizing last last' ds with
  | nil =>
    obtain rfl : ds = [] := by simpa using h.symm
    cases last <;> cases last' <;> rfl
  | cons c cs ih =>
    cases ds with
    | nil => cases h
    | cons d ds =>
      simp only [List.map_cons, List.cons.injEq] at h
      obtain ⟨hcd, h⟩ := h
      have hlast' : (some c).map Cut.span = (some d).map Cut.span := by simp [hcd]
      have hkeep := map_cons_spans hcd (ih hlast' h)
      cases last with
      | none =>
        obtain rfl : last' = none := by simpa using hlast.symm
        exact hkeep
      | some l =>
        cases last' with
        | none => cases hlast
        | some l' =>
          have hll : l.span = l'.span := by simpa using hlast
          simp only [sweep, hcd, hll]
          split
          · exact ih (by simp [hll]) h
          · split
            · rfl
            · exact hkeep

end Synopsis.Plan
