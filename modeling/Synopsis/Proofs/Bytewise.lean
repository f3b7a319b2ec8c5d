import Synopsis.Proofs.Splicing

/-!
# Making cuts byte by byte

A byte of the text turns into the marker of the cut that begins there, if one does, and then into
itself, unless a cut covers it. Which of the two happens at an offset can be read off the cuts that
were asked for, so what two plans make of two texts can be compared offset by offset.
-/

namespace Synopsis.Splice

open Synopsis.Span

def shownAt (cuts : List Cut) (n : Nat) (b : UInt8) : List UInt8 :=
  Text.encode ((cuts.find? fun k => k.span.start = n).elim [] Cut.marker) ++
    if cuts.any fun k => k.span.Covers n then [] else [b]

def bytewise (φ : Nat → UInt8 → List UInt8) : Nat → List UInt8 → List UInt8
  | _, [] => []
  | n, b :: bytes => φ n b ++ bytewise φ (n + 1) bytes

section Bytewise

variable {φ ψ : Nat → UInt8 → List UInt8} {n m : Nat} {bytes : List UInt8}

theorem bytewise_append (n : Nat) (a b : List UInt8) :
    bytewise φ n (a ++ b) = bytewise φ n a ++ bytewise φ (n + a.length) b := by
  induction a generalizing n with
  | nil => simp [bytewise]
  | cons x a ih =>
    have hn : n + 1 + a.length = n + (a.length + 1) := by omega
    simp [bytewise, ih, hn]

theorem bytewise_congr (h : ∀ i, i < bytes.length → φ (n + i) = ψ (m + i)) :
    bytewise φ n bytes = bytewise ψ m bytes := by
  induction bytes generalizing n m with
  | nil => rfl
  | cons b bytes ih =>
    have hhead := h 0 (by simp)
    have htail := @ih (n + 1) (m + 1) fun i hi => by
      have hi' := h (i + 1) (by simpa using hi)
      rw [Nat.add_assoc, Nat.add_comm 1 i, Nat.add_assoc, Nat.add_comm 1 i]
      exact hi'
    rw [Nat.add_zero, Nat.add_zero] at hhead
    rw [bytewise, bytewise, hhead, htail]

theorem bytewise_nil (n : Nat) (bytes : List UInt8) : bytewise (fun _ _ => []) n bytes = [] := by
  induction bytes generalizing n with
  | nil => rfl
  | cons b bytes ih => rw [bytewise, ih, List.append_nil]

theorem bytewise_self (n : Nat) (bytes : List UInt8) :
    bytewise (fun _ b => [b]) n bytes = bytes := by
  induction bytes generalizing n with
  | nil => rfl
  | cons b bytes ih => rw [bytewise, ih, List.singleton_append]

end Bytewise

section Shown

variable {bytes : List UInt8} {start n : Nat} {c : Cut} {cuts cs : List Cut}

theorem shownAt_before (h : ∀ k ∈ cuts, n < k.span.start) : shownAt cuts n = fun b => [b] := by
  funext b
  have hfind : cuts.find? (fun k => k.span.start = n) = none := by
    refine List.find?_eq_none.mpr fun k hk => ?_
    have hlt := h k hk
    simp only [decide_eq_true_eq]
    omega
  have hany : cuts.any (fun k => k.span.Covers n) = false := by
    simp only [List.any_eq_false, decide_eq_true_eq]
    intro k hk hcov
    have hlt := h k hk
    have hle := hcov.1
    omega
  rw [shownAt, hfind, hany]
  rfl

theorem shownAt_start (hlt : c.span.start < c.span.stop) :
    shownAt (c :: cs) c.span.start = fun _ => Text.encode c.marker := by
  funext b
  have hcov : c.span.Covers c.span.start := ⟨Nat.le_refl _, hlt⟩
  simp [shownAt, hcov]

theorem shownAt_inside (h1 : c.span.start < n) (h2 : n < c.span.stop)
    (hcs : ∀ k ∈ cs, c.span.stop ≤ k.span.start) : shownAt (c :: cs) n = fun _ => [] := by
  funext b
  have hfind : (c :: cs).find? (fun k => k.span.start = n) = none := by
    refine List.find?_eq_none.mpr fun k hk => ?_
    simp only [decide_eq_true_eq]
    rcases List.mem_cons.mp hk with rfl | hk
    · omega
    · have hle := hcs k hk
      omega
  have hcov : c.span.Covers n := ⟨Nat.le_of_lt h1, h2⟩
  rw [shownAt, hfind]
  simp [hcov, Text.encode]

theorem shownAt_behind (hlt : c.span.start < c.span.stop) (h : c.span.stop ≤ n) :
    shownAt (c :: cs) n = shownAt cs n := by
  funext b
  have hstart : c.span.start ≠ n := by omega
  have hcov : ¬c.span.Covers n := by
    intro hcov
    have hn := hcov.2
    omega
  simp [shownAt, hstart, hcov]

theorem bytesFrom_eq_bytewise (h : Chained bytes.length start cuts)
    (hne : ∀ k ∈ cuts, k.span.start < k.span.stop) :
    bytesFrom bytes start cuts = bytewise (shownAt cuts) start (bytes.drop start) := by
  induction cuts generalizing start with
  | nil =>
    have hall : shownAt [] = fun _ b => [b] := funext fun n => shownAt_before (by simp)
    rw [hall, bytewise_self, bytesFrom]
  | cons c cs ih =>
    obtain ⟨h1, -, h3⟩ := h
    have hlt := hne c (by simp)
    have hstop := h3.start_le
    have hcs : ∀ k ∈ cs, c.span.stop ≤ k.span.start := fun k hk => h3.le_start hk
    have hmax : max start c.span.stop = c.span.stop := by omega
    have hlen1 : (spanBytes bytes ⟨start, c.span.start⟩).length = c.span.start - start :=
      length_spanBytes (by change c.span.start ≤ _; omega)
    have hlen2 : (spanBytes bytes c.span).length = c.span.stop - c.span.start :=
      length_spanBytes hstop
    have hgap : bytewise (shownAt (c :: cs)) start (spanBytes bytes ⟨start, c.span.start⟩) =
        spanBytes bytes ⟨start, c.span.start⟩ := by
      rw [bytewise_congr fun i hi => ?_, bytewise_self start]
      refine shownAt_before fun k hk => ?_
      rcases List.mem_cons.mp hk with rfl | hk
      · omega
      · have hle := hcs k hk
        omega
    have hcut : bytewise (shownAt (c :: cs)) c.span.start (spanBytes bytes c.span) =
        Text.encode c.marker := by
      cases hbytes : spanBytes bytes c.span with
      | nil =>
        rw [hbytes, List.length_nil] at hlen2
        omega
      | cons b rest =>
        rw [hbytes, List.length_cons] at hlen2
        rw [bytewise, shownAt_start hlt, bytewise_congr fun i hi => ?_,
          bytewise_nil (c.span.start + 1), List.append_nil]
        exact shownAt_inside (by omega) (by omega) hcs
    have hrest : bytewise (shownAt (c :: cs)) c.span.stop (bytes.drop c.span.stop) =
        bytesFrom bytes c.span.stop cs := by
      rw [ih h3 fun k hk => hne k (by simp [hk])]
      exact bytewise_congr fun i _ => shownAt_behind hlt (by omega)
    have hbetween : between bytes start c.span.start = spanBytes bytes ⟨start, c.span.start⟩ :=
      if_pos ⟨h1, by omega⟩
    have hdrop : bytes.drop start = spanBytes bytes ⟨start, c.span.start⟩ ++
        (spanBytes bytes c.span ++ bytes.drop c.span.stop) := by
      rw [← List.append_assoc]
      exact (spanBytes_append h1 (Nat.le_of_lt hlt)).symm
    have hat : start + (c.span.start - start) = c.span.start := by omega
    have hat' : c.span.start + (c.span.stop - c.span.start) = c.span.stop := by omega
    rw [bytesFrom, hmax, hbetween, hdrop, bytewise_append, bytewise_append, hlen1, hlen2, hat, hat',
      hgap, hcut, hrest, List.append_assoc]

end Shown

def Taken (cs : List Cut) (n : Nat) : Prop := ∃ c ∈ cs, c.span.Covers n

def LiteralCut (text : List Char) (bodies : List Body) (literals : List Literal) (limit : Nat)
    (c : Cut) : Prop :=
  ∃ l ∈ literals, (∀ b ∈ bodies, ¬b.span.Holds l.span) ∧ l.truncation? text limit = some c

def Dotted (text : List Char) (bodies : List Body) (literals : List Literal) (limit n : Nat) :
    Prop :=
  ∃ c, LiteralCut text bodies literals limit c ∧ c.span.start = n ∧
    Plan.Outermost (Plan.candidates text bodies literals ⟨limit, none⟩) c.span

section Planned

variable {text : List Char} {bodies : List Body} {literals : List Literal} {limit n : Nat}
  {cuts : List Cut} (hplan : plan text bodies literals ⟨limit, none⟩ = .ok cuts)

include hplan

theorem any_covers_iff : (cuts.any fun k => k.span.Covers n) = true ↔
    Taken (Plan.candidates text bodies literals ⟨limit, none⟩) n := by
  have hkept := Plan.plan_kept hplan
  simp only [List.any_eq_true, decide_eq_true_eq]
  constructor
  · intro hcov
    obtain ⟨k, hk, hcov⟩ := hcov
    exact ⟨k, List.mem_of_find?_eq_some (hkept.first k hk), hcov⟩
  · intro hcov
    obtain ⟨c, hc, h1, h2⟩ := hcov
    obtain ⟨k, hk, hholds, -⟩ := hkept.inside c hc
    exact ⟨k, hk, Nat.le_trans hholds.1 h1, Nat.lt_of_lt_of_le h2 hholds.2⟩

-- Literals ask before bodies, so a span that both ask for is cut as a literal.
theorem marker_eq_ellipsis {c k : Cut} (hc : LiteralCut text bodies literals limit c)
    (hk : k ∈ cuts) (hspan : k.span = c.span) : k.marker = ellipsis := by
  have hfirst := (Plan.plan_kept hplan).first k hk
  obtain ⟨l, hl, hout, hcut⟩ := hc
  have hmem : c ∈ (literals.filter fun l => !bodies.any fun b => b.span.Holds l.span).filterMap
      (·.truncation? text limit) :=
    List.mem_filterMap.mpr ⟨l, List.mem_filter.mpr ⟨hl, by simpa using hout⟩, hcut⟩
  have hsome := (@List.find?_isSome _ _ fun d : Cut => d.span = c.span).mpr ⟨c, hmem, by simp⟩
  obtain ⟨d, hd⟩ := Option.isSome_iff_exists.mp hsome
  rw [hspan, Plan.candidates, List.find?_append, hd, Option.some_or] at hfirst
  obtain rfl := Option.some.inj hfirst
  obtain ⟨m, -, hcut'⟩ := List.mem_filterMap.mp (List.mem_of_find?_eq_some hd)
  obtain ⟨content, -, -, rfl⟩ := Literal.truncation?_eq_some_iff.mp hcut'
  rfl

theorem marker_eq_nil {k : Cut} (hk : k ∈ cuts)
    (hnot : ¬LiteralCut text bodies literals limit k) : k.marker = [] := by
  have hmem := List.mem_of_find?_eq_some ((Plan.plan_kept hplan).first k hk)
  rcases Plan.mem_candidates.mp hmem with hl | ⟨b, -, hcut⟩
  · exact absurd hl hnot
  · obtain ⟨-, rfl⟩ := Plan.elision?_eq_some_iff.mp hcut
    rfl

theorem eq_of_start_eq {j k : Cut} (hj : j ∈ cuts) (hk : k ∈ cuts)
    (h : j.span.start = k.span.start) : j = k := by
  have hkept := Plan.plan_kept hplan
  have hj' := hkept.nonempty j hj
  have hk' := hkept.nonempty k hk
  rcases hkept.inOrder.eq_or_apart (List.mem_map_of_mem hj) (List.mem_map_of_mem hk) with
    he | hle | hle
  · have hfirst := hkept.first j hj
    rw [he, hkept.first k hk] at hfirst
    exact (Option.some.inj hfirst).symm
  · omega
  · omega

theorem marker_of_dotted (hd : Dotted text bodies literals limit n) :
    (cuts.find? fun k => k.span.start = n).elim [] Cut.marker = ellipsis := by
  obtain ⟨c, hc, hstart, hout⟩ := hd
  obtain ⟨k, hk, hspan⟩ := List.mem_map.mp (((Plan.plan_kept hplan).mem_iff c.span).mpr hout)
  have hkn : k.span.start = n := by rw [hspan, hstart]
  cases hfind : cuts.find? fun k => k.span.start = n with
  | none =>
    refine absurd hkn ?_
    simpa using List.find?_eq_none.mp hfind k hk
  | some j =>
    have hjn : j.span.start = n := by simpa using List.find?_some hfind
    obtain rfl := eq_of_start_eq hplan hk (List.mem_of_find?_eq_some hfind) (hkn.trans hjn.symm)
    exact marker_eq_ellipsis hplan hc hk hspan

theorem marker_of_not_dotted (hd : ¬Dotted text bodies literals limit n) :
    (cuts.find? fun k => k.span.start = n).elim [] Cut.marker = [] := by
  cases hfind : cuts.find? fun k => k.span.start = n with
  | none => rfl
  | some k =>
    have hk := List.mem_of_find?_eq_some hfind
    have hkn : k.span.start = n := by simpa using List.find?_some hfind
    refine marker_eq_nil hplan hk fun hc => hd ⟨k, hc, hkn, ?_⟩
    exact ((Plan.plan_kept hplan).mem_iff k.span).mp (List.mem_map_of_mem hk)

end Planned

theorem shownAt_congr {text text' : List Char} {bodies bodies' : List Body}
    {literals literals' : List Literal} {limit limit' n n' : Nat} {cuts cuts' : List Cut}
    (hplan : plan text bodies literals ⟨limit, none⟩ = .ok cuts)
    (hplan' : plan text' bodies' literals' ⟨limit', none⟩ = .ok cuts')
    (hdotted : Dotted text bodies literals limit n ↔ Dotted text' bodies' literals' limit' n')
    (htaken : Taken (Plan.candidates text bodies literals ⟨limit, none⟩) n ↔
      Taken (Plan.candidates text' bodies' literals' ⟨limit', none⟩) n') :
    shownAt cuts n = shownAt cuts' n' := by
  have hany : (cuts.any fun k => k.span.Covers n) = cuts'.any fun k => k.span.Covers n' :=
    Bool.eq_iff_iff.mpr ((any_covers_iff hplan).trans (htaken.trans (any_covers_iff hplan').symm))
  have hmarker : (cuts.find? fun k => k.span.start = n).elim [] Cut.marker =
      (cuts'.find? fun k => k.span.start = n').elim [] Cut.marker := by
    by_cases hd : Dotted text bodies literals limit n
    · rw [marker_of_dotted hplan hd, marker_of_dotted hplan' (hdotted.mp hd)]
    · rw [marker_of_not_dotted hplan hd,
        marker_of_not_dotted hplan' fun hd' => hd (hdotted.mpr hd')]
  funext b
  rw [shownAt, shownAt, hmarker, hany]

theorem shownAt_eq_nil {text : List Char} {bodies : List Body} {literals : List Literal}
    {limit n : Nat} {cuts : List Cut} (hplan : plan text bodies literals ⟨limit, none⟩ = .ok cuts)
    (hdotted : ¬Dotted text bodies literals limit n)
    (htaken : Taken (Plan.candidates text bodies literals ⟨limit, none⟩) n) :
    shownAt cuts n = fun _ => [] := by
  funext b
  rw [shownAt, marker_of_not_dotted hplan hdotted, (any_covers_iff hplan).mpr htaken]
  rfl

end Synopsis.Splice
