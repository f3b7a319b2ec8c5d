import Synopsis.Proofs.Plan.Sweep
import Synopsis.Proofs.Sorting
import Synopsis.Proofs.Truncation

/-!
# Which cuts a plan keeps

A plan sweeps through the cuts that bodies and literals ask for. None of these is empty, and sorting
leaves cuts with the same span in the order in which they were asked for, so what the sweep does
with the sorted cuts says what the plan does with the bodies and literals.
-/

namespace Synopsis.Plan

open Synopsis.Span

theorem mem_candidates {text : List Char} {bodies : List Body} {literals : List Literal}
    {options : PlanOptions} {c : Cut} :
    c ∈ candidates text bodies literals options ↔
      (∃ l ∈ literals, (∀ b ∈ bodies, ¬b.span.Holds l.span) ∧
        l.truncation? text options.limit = some c) ∨
      ∃ b ∈ bodies, b.elision? options.placeholder = some c := by
  simp [candidates, and_assoc]

theorem elision?_eq_some_iff {placeholder : Option String} {b : Body} {c : Cut} :
    b.elision? placeholder = some c ↔
      b.cutStart < b.span.stop ∧ c = ⟨⟨b.cutStart, b.span.stop⟩, b.marker placeholder⟩ := by
  unfold Body.elision?
  split
  case isTrue h => simp [h, eq_comm]
  case isFalse h => simp [h]

theorem candidates_nonempty {text : List Char} {bodies : List Body} {literals : List Literal}
    {options : PlanOptions} {c : Cut} (h : c ∈ candidates text bodies literals options) :
    c.span.start < c.span.stop := by
  rcases mem_candidates.mp h with ⟨l, -, -, hl⟩ | ⟨b, -, hb⟩
  · exact Literal.truncation?_nonempty hl
  · obtain ⟨hlt, rfl⟩ := elision?_eq_some_iff.mp hb
    exact hlt

theorem find?_mergeSort (cs : List Cut) (s : Span) :
    (cs.mergeSort precedes).find? (fun d => d.span = s) = cs.find? fun d => d.span = s := by
  rw [← List.head?_filter, ← List.head?_filter,
    filter_mergeSort precedes_trans precedes_total ?_ cs]
  intro a b ha hb
  rw [precedes_iff, of_decide_eq_true ha, of_decide_eq_true hb]
  exact .inr ⟨rfl, Nat.le_refl _⟩

theorem Kept.of_mergeSort {cs cuts : List Cut} (h : Kept (cs.mergeSort precedes) cuts) :
    Kept cs cuts := by
  have hmem : ∀ c, c ∈ cs.mergeSort precedes ↔ c ∈ cs := fun c => List.mem_mergeSort
  exact
    { mem_iff := fun s => (h.mem_iff s).trans (Outermost.congr hmem)
      nodup := h.nodup
      nonempty := h.nonempty
      inOrder := h.inOrder
      first := fun k hk => (find?_mergeSort cs k.span).symm.trans (h.first k hk)
      inside := fun c hc => h.inside c ((hmem c).mpr hc) }

theorem Clash.of_mergeSort {cs : List Cut} {e : Conflict} (h : Clash (cs.mergeSort precedes) e) :
    Clash cs e := by
  have hout : ∀ s, Outermost cs s ↔ Outermost (cs.mergeSort precedes) s :=
    fun s => Outermost.congr fun c => List.mem_mergeSort.symm
  exact
    { first := (hout _).mpr h.first
      second := (hout _).mpr h.second
      crosses := h.crosses
      neighbours := fun s hs => h.neighbours s ((hout s).mp hs)
      leftmost := fun a b ha hb => h.leftmost a b ((hout a).mp ha) ((hout b).mp hb) }

section Planned

variable {text : List Char} {bodies : List Body} {literals : List Literal} {options : PlanOptions}

theorem sorted_candidates :
    ((candidates text bodies literals options).mergeSort precedes).Pairwise
      fun a b => precedes a b = true :=
  List.pairwise_mergeSort precedes_trans precedes_total _

theorem sorted_nonempty {c : Cut}
    (hc : c ∈ (candidates text bodies literals options).mergeSort precedes) :
    c.span.start < c.span.stop :=
  candidates_nonempty (List.mem_mergeSort.mp hc)

theorem plan_kept {cuts : List Cut} (h : plan text bodies literals options = .ok cuts) :
    Kept (candidates text bodies literals options) cuts :=
  (sweep_kept h sorted_candidates fun _ hc => sorted_nonempty hc).of_mergeSort

theorem plan_clash {e : Conflict} (h : plan text bodies literals options = .error e) :
    Clash (candidates text bodies literals options) e :=
  (sweep_clash h sorted_candidates fun _ hc => sorted_nonempty hc).of_mergeSort

theorem plan_isOk_iff : (∃ cuts, plan text bodies literals options = .ok cuts) ↔
    ∀ a b, Outermost (candidates text bodies literals options) a →
      Outermost (candidates text bodies literals options) b → ¬a.Crosses b := by
  constructor
  · rintro ⟨cuts, h⟩ a b ha hb
    have hk := plan_kept h
    rcases hk.inOrder.eq_or_apart ((hk.mem_iff a).mpr ha) ((hk.mem_iff b).mpr hb) with rfl | hap
    · exact (Holds.refl a).laminar.not_crosses
    · exact hap.laminar.not_crosses
  · intro hno
    cases h : plan text bodies literals options with
    | ok cuts => exact ⟨cuts, rfl⟩
    | error e =>
      have hc := plan_clash h
      exact absurd hc.crosses (hno e.first e.second hc.first hc.second)

end Planned

theorem candidates_perm {text : List Char} {bodies bodies' : List Body}
    {literals literals' : List Literal} (options : PlanOptions) (hb : bodies.Perm bodies')
    (hl : literals.Perm literals') :
    (candidates text bodies literals options).Perm (candidates text bodies' literals' options) := by
  unfold candidates
  refine List.Perm.append ?_ (hb.filterMap _)
  have hany : (fun l : Literal => !bodies.any fun b => decide (b.span.Holds l.span)) =
      fun l => !bodies'.any fun b => decide (b.span.Holds l.span) :=
    funext fun l => congrArg (!·) hb.any_eq
  rw [hany]
  exact (hl.filter _).filterMap _

theorem plan_spans_perm {text : List Char} {bodies bodies' : List Body}
    {literals literals' : List Literal} (options : PlanOptions) (hb : bodies.Perm bodies')
    (hl : literals.Perm literals') :
    (plan text bodies literals options).map (·.map Cut.span) =
      (plan text bodies' literals' options).map (·.map Cut.span) := by
  refine sweep_spans rfl ?_
  have hperm : ((candidates text bodies literals options).mergeSort precedes).Perm
      ((candidates text bodies' literals' options).mergeSort precedes) :=
    (List.mergeSort_perm _ _).trans ((candidates_perm options hb hl).trans
      (List.mergeSort_perm _ _).symm)
  refine @List.Perm.eq_of_pairwise _ (fun a b : Span =>
    a.start < b.start ∨ a.start = b.start ∧ b.stop ≤ a.stop) _ _ ?_ ?_ ?_ (hperm.map Cut.span)
  · intro a b _ _ hab hba
    cases a
    cases b
    simp only at hab hba
    congr 1 <;> omega
  · exact List.pairwise_map.mpr (sorted_candidates.imp precedes_iff.mp)
  · exact List.pairwise_map.mpr (sorted_candidates.imp precedes_iff.mp)

/-- A plan keeps exactly the outermost of the cuts asked for. It fails exactly where two outermost
ones cross, and then names the first neighbours that do. The order in which bodies and literals are
given changes neither its spans nor its conflict. -/
theorem plan_keeps_outermost (text : List Char) (bodies : List Body) (literals : List Literal)
    (options : PlanOptions) :
    ((∃ cuts, plan text bodies literals options = .ok cuts) ↔
      ∀ a b, Outermost (candidates text bodies literals options) a →
        Outermost (candidates text bodies literals options) b → ¬a.Crosses b) ∧
    (∀ cuts, plan text bodies literals options = .ok cuts →
      Kept (candidates text bodies literals options) cuts) ∧
    (∀ e, plan text bodies literals options = .error e →
      Clash (candidates text bodies literals options) e) ∧
    ∀ bodies' literals', bodies.Perm bodies' → literals.Perm literals' →
      (plan text bodies literals options).map (·.map Cut.span) =
        (plan text bodies' literals' options).map (·.map Cut.span) :=
  ⟨plan_isOk_iff, fun _ h => plan_kept h, fun _ h => plan_clash h,
    fun _ _ hb hl => plan_spans_perm options hb hl⟩

-- Two cuts that cross inside a third are no conflict.
example : plan [] [⟨⟨0, 9⟩, 0, none⟩, ⟨⟨1, 5⟩, 1, none⟩, ⟨⟨3, 8⟩, 3, none⟩] [] ⟨0, none⟩ =
    .ok [⟨⟨0, 9⟩, []⟩] := by
  rw [plan, List.mergeSort_of_pairwise (by decide)]
  rfl

end Synopsis.Plan
