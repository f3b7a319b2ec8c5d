import Synopsis.Splice
import Synopsis.Proofs.Planning
import Synopsis.Proofs.Text.Encoding

/-!
# What making cuts leaves

The cuts of a plan follow one another inside the text, so the cursor that makes them never steps
back and never skips: what comes out is the bytes before, between and behind the cuts, with a marker
for each cut. Since every cut begins and ends between characters, these bytes are UTF-8.
-/

namespace Synopsis.Splice

open Synopsis.Span

def interleave : List (List UInt8) → List (List UInt8) → List UInt8
  | [], _ => []
  | part :: _, [] => part
  | part :: parts, joint :: joints => part ++ joint ++ interleave parts joints

def spanBytes (bytes : List UInt8) (s : Span) : List UInt8 :=
  (bytes.drop s.start).take (s.stop - s.start)

def gapSpans (start stop : Nat) (cuts : List Cut) : List Span :=
  List.zipWith Span.mk (start :: cuts.map (·.span.stop)) (cuts.map (·.span.start) ++ [stop])

def gaps (bytes : List UInt8) (cuts : List Cut) : List (List UInt8) :=
  (gapSpans 0 bytes.length cuts).map (spanBytes bytes)

def Chained (stop : Nat) : Nat → List Cut → Prop
  | start, [] => start ≤ stop
  | start, c :: cs =>
    start ≤ c.span.start ∧ c.span.start ≤ c.span.stop ∧ Chained stop c.span.stop cs

theorem chained_of_inOrder {stop start : Nat} {cuts : List Cut} (hle : start ≤ stop)
    (hstart : ∀ c ∈ cuts, start ≤ c.span.start) (hord : InOrder (cuts.map Cut.span))
    (hne : ∀ c ∈ cuts, c.span.start ≤ c.span.stop) (hstop : ∀ c ∈ cuts, c.span.stop ≤ stop) :
    Chained stop start cuts := by
  induction cuts generalizing start with
  | nil => exact hle
  | cons c cs ih =>
    obtain ⟨hc, hcs⟩ := List.pairwise_cons.mp hord
    refine ⟨hstart c (by simp), hne c (by simp), ih (hstop c (by simp)) ?_ hcs ?_ ?_⟩
    · intro d hd
      exact hc d.span (List.mem_map_of_mem hd)
    · intro d hd
      exact hne d (by simp [hd])
    · intro d hd
      exact hstop d (by simp [hd])

theorem Chained.start_le {stop start : Nat} {cuts : List Cut} (h : Chained stop start cuts) :
    start ≤ stop := by
  induction cuts generalizing start with
  | nil => exact h
  | cons c cs ih => exact Nat.le_trans h.1 (Nat.le_trans h.2.1 (ih h.2.2))

theorem Chained.le_start {stop start : Nat} {cuts : List Cut} (h : Chained stop start cuts)
    {c : Cut} (hc : c ∈ cuts) : start ≤ c.span.start := by
  induction cuts generalizing start with
  | nil => cases hc
  | cons d cs ih =>
    rcases List.mem_cons.mp hc with rfl | hc
    · exact h.1
    · exact Nat.le_trans h.1 (Nat.le_trans h.2.1 (ih h.2.2 hc))

section Bytes

variable {bytes : List UInt8} {start : Nat} {cuts : List Cut}

theorem gapSpans_cons (stop : Nat) (c : Cut) (cs : List Cut) :
    gapSpans start stop (c :: cs) = ⟨start, c.span.start⟩ :: gapSpans c.span.stop stop cs := rfl

theorem length_spanBytes {s : Span} (h : s.stop ≤ bytes.length) :
    (spanBytes bytes s).length = s.stop - s.start := by
  simp only [spanBytes, List.length_take, List.length_drop]
  omega

theorem spanBytes_end : spanBytes bytes ⟨start, bytes.length⟩ = bytes.drop start :=
  List.take_of_length_le (Nat.le_of_eq List.length_drop)

theorem spanBytes_append {a b : Nat} (hb : start ≤ a) (hab : a ≤ b) :
    spanBytes bytes ⟨start, a⟩ ++ spanBytes bytes ⟨a, b⟩ ++ bytes.drop b = bytes.drop start := by
  have hrest : bytes.drop b = (bytes.drop a).drop (b - a) := by
    rw [List.drop_drop]
    congr 1
    omega
  have hmid : bytes.drop a = (bytes.drop start).drop (a - start) := by
    rw [List.drop_drop]
    congr 1
    omega
  rw [List.append_assoc, hrest, spanBytes, spanBytes]
  simp only [List.take_append_drop]
  rw [hmid, List.take_append_drop]

theorem bytesFrom_eq_interleave (h : Chained bytes.length start cuts) :
    bytesFrom bytes start cuts =
      interleave ((gapSpans start bytes.length cuts).map (spanBytes bytes))
        (cuts.map fun c => Text.encode c.marker) := by
  induction cuts generalizing start with
  | nil => exact spanBytes_end.symm
  | cons c cs ih =>
    obtain ⟨h1, h2, h3⟩ := h
    have hmax : max start c.span.stop = c.span.stop := by omega
    have hc : c.span.start ≤ bytes.length := Nat.le_trans h2 h3.start_le
    rw [bytesFrom, hmax, ih h3, between, if_pos ⟨h1, hc⟩, gapSpans_cons]
    rfl

theorem drop_eq_interleave (h : Chained bytes.length start cuts) :
    bytes.drop start =
      interleave ((gapSpans start bytes.length cuts).map (spanBytes bytes))
        (cuts.map fun c => spanBytes bytes c.span) := by
  induction cuts generalizing start with
  | nil => exact spanBytes_end.symm
  | cons c cs ih =>
    obtain ⟨h1, h2, h3⟩ := h
    rw [gapSpans_cons, List.map_cons, List.map_cons, interleave, ← ih h3]
    exact (spanBytes_append h1 h2).symm

def uncovered (cuts : List Cut) (start : Nat) (bytes : List UInt8) : List UInt8 :=
  ((bytes.zipIdx start).filter fun p => !cuts.any fun c => c.span.Covers p.2).map Prod.fst

theorem uncovered_append (cuts : List Cut) (start : Nat) (a b : List UInt8) :
    uncovered cuts start (a ++ b) =
      uncovered cuts start a ++ uncovered cuts (start + a.length) b := by
  simp [uncovered, List.zipIdx_append]

theorem uncovered_eq_self {cuts : List Cut} {start : Nat} {bytes : List UInt8}
    (h : ∀ c ∈ cuts, start + bytes.length ≤ c.span.start) : uncovered cuts start bytes = bytes := by
  have hall : ∀ p ∈ bytes.zipIdx start, (!cuts.any fun c => c.span.Covers p.2) = true := by
    intro p hp
    have hlt := (List.mem_zipIdx hp).2.1
    simp only [Bool.not_eq_true', List.any_eq_false, decide_eq_true_eq]
    intro c hc hcov
    have hc1 := h c hc
    have hc2 := hcov.1
    omega
  rw [uncovered, List.filter_eq_self.mpr hall, List.zipIdx_map_fst]

theorem uncovered_eq_nil {cuts : List Cut} {start : Nat} {bytes : List UInt8} {c : Cut}
    (hc : c ∈ cuts) (h1 : c.span.start ≤ start) (h2 : start + bytes.length ≤ c.span.stop) :
    uncovered cuts start bytes = [] := by
  rw [uncovered, List.map_eq_nil_iff, List.filter_eq_nil_iff]
  intro p hp
  obtain ⟨hge, hlt, -⟩ := List.mem_zipIdx hp
  simp only [Bool.not_eq_true', Bool.not_eq_false, List.any_eq_true, decide_eq_true_eq]
  exact ⟨c, hc, by omega, by omega⟩

theorem uncovered_cons {cuts : List Cut} {start : Nat} {bytes : List UInt8} {c : Cut}
    (h : c.span.stop ≤ start) : uncovered (c :: cuts) start bytes = uncovered cuts start bytes := by
  unfold uncovered
  congr 1
  refine List.filter_congr fun p hp => ?_
  have hge := (List.mem_zipIdx hp).1
  have hnot : ¬c.span.Covers p.2 := fun hcov => by
    have := hcov.2
    omega
  simp [hnot]

theorem gaps_flatten (h : Chained bytes.length start cuts) :
    ((gapSpans start bytes.length cuts).map (spanBytes bytes)).flatten =
      uncovered cuts start (bytes.drop start) := by
  induction cuts generalizing start with
  | nil =>
    rw [uncovered_eq_self (by simp)]
    simp [gapSpans, spanBytes_end]
  | cons c cs ih =>
    obtain ⟨h1, h2, h3⟩ := h
    have hle := h3.start_le
    have hlen1 : (spanBytes bytes ⟨start, c.span.start⟩).length = c.span.start - start :=
      length_spanBytes (Nat.le_trans h2 hle)
    have hlen2 : (spanBytes bytes c.span).length = c.span.stop - c.span.start :=
      length_spanBytes hle
    have hbefore : uncovered (c :: cs) start (spanBytes bytes ⟨start, c.span.start⟩) =
        spanBytes bytes ⟨start, c.span.start⟩ := by
      refine uncovered_eq_self fun d hd => ?_
      have hd' : c.span.start ≤ d.span.start := by
        rcases List.mem_cons.mp hd with rfl | hd
        · exact Nat.le_refl _
        · exact Nat.le_trans h2 (h3.le_start hd)
      omega
    have hinside : uncovered (c :: cs) c.span.start (spanBytes bytes c.span) = [] := by
      refine uncovered_eq_nil (List.mem_cons_self) (Nat.le_refl _) ?_
      rw [hlen2]
      omega
    have hstart : start + (spanBytes bytes ⟨start, c.span.start⟩).length = c.span.start := by omega
    have hstop : c.span.start + (spanBytes bytes c.span).length = c.span.stop := by omega
    rw [gapSpans_cons, List.map_cons, List.flatten_cons, ih h3, ← spanBytes_append h1 h2,
      List.append_assoc, uncovered_append, uncovered_append, hstart, hstop, hbefore, hinside,
      uncovered_cons (Nat.le_refl _), List.nil_append]

end Bytes

section Boundaries

variable {text : List Char}

theorem truncation?_boundaries {limit : Nat} {l : Literal} {c : Cut}
    (ha : ∀ a ∈ l.atoms, Text.IsBoundary text a.start) (h : l.truncation? text limit = some c) :
    Text.IsBoundary text c.span.start ∧ Text.IsBoundary text c.span.stop := by
  obtain ⟨content, hslice, -, rfl⟩ := Literal.truncation?_eq_some_iff.mp h
  obtain ⟨before, after, htext, hb, hm⟩ := Text.slice?_eq_some_iff.mp hslice
  refine ⟨?_, ⟨before ++ content, after, htext, by simpa using hm⟩⟩
  rcases pullBack_cases l.atoms (l.limitOffset limit content) with ⟨he, -⟩ | ⟨a, hmem, -, he⟩
  · rw [he]
    refine ⟨before ++ content.take limit, content.drop limit ++ after, ?_, ?_⟩
    · rw [htext, ← List.append_assoc, List.append_assoc before (content.take limit),
        List.take_append_drop]
    · rw [Text.byteLength_append, hb]
      rfl
  · rw [he]
    exact ha a hmem

theorem candidates_boundaries {bodies : List Body} {literals : List Literal}
    {options : PlanOptions}
    (hb : ∀ b ∈ bodies, Text.IsBoundary text b.cutStart ∧ Text.IsBoundary text b.span.stop)
    (hl : ∀ l ∈ literals, ∀ a ∈ l.atoms, Text.IsBoundary text a.start) {c : Cut}
    (hc : c ∈ Plan.candidates text bodies literals options) :
    Text.IsBoundary text c.span.start ∧ Text.IsBoundary text c.span.stop := by
  rcases Plan.mem_candidates.mp hc with ⟨l, hmem, -, h⟩ | ⟨b, hmem, h⟩
  · exact truncation?_boundaries (hl l hmem) h
  · obtain ⟨-, rfl⟩ := Plan.elision?_eq_some_iff.mp h
    exact hb b hmem

theorem spanBytes_encode {a b : Nat} (ha : Text.IsBoundary text a) (hb : Text.IsBoundary text b)
    (hab : a ≤ b) : ∃ middle, spanBytes (Text.encode text) ⟨a, b⟩ = Text.encode middle := by
  obtain ⟨before, rest, rfl, rfl⟩ := ha
  obtain ⟨before', after, htext, rfl⟩ := hb
  obtain ⟨middle, rfl, rfl⟩ := Text.append_split_of_le htext hab
  refine ⟨middle, ?_⟩
  have hlen : Text.byteLength (before ++ middle) - Text.byteLength before =
      (Text.encode middle).length := by
    rw [Text.length_encode, Text.byteLength_append]
    omega
  rw [spanBytes, hlen, Text.encode_append, Text.encode_append, ← Text.length_encode,
    List.drop_left, List.take_left]

theorem drop_encode {a : Nat} (ha : Text.IsBoundary text a) :
    ∃ after, (Text.encode text).drop a = Text.encode after := by
  obtain ⟨before, after, rfl, rfl⟩ := ha
  exact ⟨after, by rw [Text.encode_append, ← Text.length_encode, List.drop_left]⟩

-- The cursor stands between characters all the way, so each gap is the encoding of a text.
theorem bytesFrom_encode {start : Nat} {cuts : List Cut}
    (hc : Chained (Text.encode text).length start cuts) (hs : Text.IsBoundary text start)
    (hb : ∀ c ∈ cuts, Text.IsBoundary text c.span.start ∧ Text.IsBoundary text c.span.stop) :
    ∃ t, bytesFrom (Text.encode text) start cuts = Text.encode t := by
  induction cuts generalizing start with
  | nil => exact drop_encode hs
  | cons c cs ih =>
    obtain ⟨h1, h2, h3⟩ := hc
    obtain ⟨hb1, hb2⟩ := hb c (by simp)
    obtain ⟨gap, hgap⟩ := spanBytes_encode hs hb1 h1
    obtain ⟨rest, hrest⟩ := ih h3 hb2 fun d hd => hb d (by simp [hd])
    have hmax : max start c.span.stop = c.span.stop := by omega
    have hle : c.span.start ≤ (Text.encode text).length := Nat.le_trans h2 h3.start_le
    have hbetween : between (Text.encode text) start c.span.start = Text.encode gap := by
      rw [between, if_pos ⟨h1, hle⟩]
      exact hgap
    refine ⟨gap ++ c.marker ++ rest, ?_⟩
    rw [bytesFrom, hmax, hrest, hbetween, Text.encode_append, Text.encode_append]

end Boundaries

structure Trimmed (text result : List Char) : Prop where
  exists_ends : ∃ lead trail, text = lead ++ result ++ trail ∧
    (∀ c ∈ lead, Text.isBlank c = true) ∧ ∀ c ∈ trail, Text.isBlank c = true
  head : ∀ c ∈ result.head?, Text.isBlank c = false
  last : ∀ c ∈ result.getLast?, Text.isBlank c = false

theorem exists_dropEndWhile (p : Char → Bool) (text : List Char) :
    ∃ tail, text = Text.dropEndWhile p text ++ tail ∧ ∀ c ∈ tail, p c = true := by
  refine ⟨(text.reverse.takeWhile p).reverse, ?_, fun c hc => ?_⟩
  · rw [Text.dropEndWhile, ← List.reverse_append, List.takeWhile_append_dropWhile,
      List.reverse_reverse]
  · exact List.all_eq_true.mp List.all_takeWhile c (List.mem_reverse.mp hc)

theorem last_dropEndWhile (p : Char → Bool) (text : List Char) :
    ∀ c ∈ (Text.dropEndWhile p text).getLast?, p c = false := by
  intro c hc
  rw [Text.dropEndWhile, List.getLast?_reverse] at hc
  have hnot := List.head?_dropWhile_not p text.reverse
  rw [hc] at hnot
  exact hnot

theorem trimmed_trim (text : List Char) : Trimmed text (Text.trim text) := by
  have hlead : text = text.takeWhile Text.isBlank ++ text.dropWhile Text.isBlank :=
    List.takeWhile_append_dropWhile.symm
  obtain ⟨trail, htrail, hblanks⟩ := exists_dropEndWhile Text.isBlank (text.dropWhile Text.isBlank)
  rw [← Text.trim] at htrail
  refine ⟨⟨_, trail, by rw [List.append_assoc, ← htrail]; exact hlead, ?_, hblanks⟩, ?_, ?_⟩
  · exact List.all_eq_true.mp List.all_takeWhile
  · -- what is trimmed begins as the text without its leading blanks does
    intro c hc
    have hhead : (text.dropWhile Text.isBlank).head? = some c := by
      rw [htrail, List.head?_append, hc]
      rfl
    have hnot := List.head?_dropWhile_not Text.isBlank text
    rw [hhead] at hnot
    exact hnot
  · exact last_dropEndWhile Text.isBlank _

/-- Making the cuts replaces the bytes of each by its marker and changes nothing else: what comes
out is UTF-8, and only the blanks at its ends are removed. -/
structure Exact (text : List Char) (cuts : List Cut) : Prop where
  assembled : bytesFrom (Text.encode text) 0 cuts =
    interleave (gaps (Text.encode text) cuts) (cuts.map fun c => Text.encode c.marker)
  source : Text.encode text = interleave (gaps (Text.encode text) cuts)
    (cuts.map fun c => spanBytes (Text.encode text) c.span)
  widths : ∀ c ∈ cuts, (spanBytes (Text.encode text) c.span).length = c.span.stop - c.span.start
  outside : (gaps (Text.encode text) cuts).flatten = uncovered cuts 0 (Text.encode text)
  count : (gaps (Text.encode text) cuts).length = cuts.length + 1
  valid : ∃ t, Text.encode t = bytesFrom (Text.encode text) 0 cuts ∧
    Text.decode? (bytesFrom (Text.encode text) 0 cuts) = some t ∧ Trimmed t (apply text cuts)

theorem length_gaps (bytes : List UInt8) (cuts : List Cut) :
    (gaps bytes cuts).length = cuts.length + 1 := by
  simp [gaps, gapSpans]

theorem exact_of_chained {text : List Char} {cuts : List Cut}
    (hc : Chained (Text.encode text).length 0 cuts)
    (hb : ∀ c ∈ cuts, Text.IsBoundary text c.span.start ∧ Text.IsBoundary text c.span.stop) :
    Exact text cuts := by
  obtain ⟨t, ht⟩ := bytesFrom_encode hc (Text.isBoundary_zero text) hb
  exact
    { assembled := bytesFrom_eq_interleave hc
      source := drop_eq_interleave hc
      widths := fun c hmem => length_spanBytes (by
        rw [Text.length_encode]
        exact (hb c hmem).2.le)
      outside := gaps_flatten hc
      count := length_gaps _ cuts
      valid := by
        refine ⟨t, ht.symm, ?_, ?_⟩
        · rw [ht, Text.decode?_encode]
        · rw [apply, ht, Text.decode_encode]
          exact trimmed_trim t }

theorem plan_chained {text : List Char} {bodies : List Body} {literals : List Literal}
    {options : PlanOptions} {cuts : List Cut} (h : plan text bodies literals options = .ok cuts)
    (hstop : ∀ c ∈ cuts, c.span.stop ≤ (Text.encode text).length) :
    Chained (Text.encode text).length 0 cuts :=
  have hk := Plan.plan_kept h
  chained_of_inOrder (Nat.zero_le _) (fun _ _ => Nat.zero_le _) hk.inOrder
    (fun c hc => Nat.le_of_lt (hk.nonempty c hc)) hstop

/-- Making the cuts of a plan is an exact splice, where bodies and atoms begin between characters
and bodies end so. -/
theorem plan_splices_exactly {text : List Char} {bodies : List Body} {literals : List Literal}
    {options : PlanOptions} {cuts : List Cut}
    (hb : ∀ b ∈ bodies, Text.IsBoundary text b.cutStart ∧ Text.IsBoundary text b.span.stop)
    (hl : ∀ l ∈ literals, ∀ a ∈ l.atoms, Text.IsBoundary text a.start)
    (h : plan text bodies literals options = .ok cuts) : Exact text cuts := by
  have hbound : ∀ c ∈ cuts, Text.IsBoundary text c.span.start ∧ Text.IsBoundary text c.span.stop :=
    fun c hc => candidates_boundaries hb hl
      (List.mem_of_find?_eq_some ((Plan.plan_kept h).first c hc))
  have hstop : ∀ c ∈ cuts, c.span.stop ≤ (Text.encode text).length := by
    intro c hc
    rw [Text.length_encode]
    exact (hbound c hc).2.le
  exact exact_of_chained (plan_chained h hstop) hbound

theorem plan_splices_exactly_twice :
    plan "s(\"éà\\nü\") f() \x7bö\x7d".toList [⟨⟨18, 22⟩, 17, none⟩]
        [⟨⟨2, 12⟩, 0, 1, [⟨7, 9⟩]⟩] ⟨3, none⟩ = .ok [⟨⟨7, 11⟩, ellipsis⟩, ⟨⟨17, 22⟩, []⟩] ∧
      Exact "s(\"éà\\nü\") f() \x7bö\x7d".toList [⟨⟨7, 11⟩, ellipsis⟩, ⟨⟨17, 22⟩, []⟩] := by
  have h : plan "s(\"éà\\nü\") f() \x7bö\x7d".toList [⟨⟨18, 22⟩, 17, none⟩]
      [⟨⟨2, 12⟩, 0, 1, [⟨7, 9⟩]⟩] ⟨3, none⟩ = .ok [⟨⟨7, 11⟩, ellipsis⟩, ⟨⟨17, 22⟩, []⟩] := by
    rw [plan, List.mergeSort_of_pairwise (by decide)]
    rfl
  exact ⟨h, plan_splices_exactly (by decide) (by decide) h⟩

end Synopsis.Splice
