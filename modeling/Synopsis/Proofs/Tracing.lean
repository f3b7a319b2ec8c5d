import Synopsis.Proofs.Splicing

/-!
# Where the characters that remain come from

Making cuts leaves characters of the text and characters of markers. Here each of them is followed:
one of the text with the offset at which it stood, one of a marker with none. The result of making
the cuts is what is traced, trimmed, so a statement about neighbours in the result is one about
neighbours in the trace.
-/

namespace Synopsis.Splice

open Synopsis.Span

def placed (offset : Nat) : List Char → List (Char × Option Nat)
  | [] => []
  | c :: text => (c, some offset) :: placed (offset + c.utf8Size) text

/-- What making the cuts leaves of the text from an offset on. -/
def traced : Nat → List Char → List Cut → List (Char × Option Nat)
  | offset, rest, [] => placed offset rest
  | offset, rest, c :: cs =>
    placed offset ((Text.takeBytes? (c.span.start - offset) rest).getD []) ++
      c.marker.map (·, none) ++
      traced c.span.stop ((Text.dropBytes? (c.span.stop - offset) rest).getD []) cs

def trimBy {α : Type} (p : α → Bool) (l : List α) : List α :=
  ((l.dropWhile p).reverse.dropWhile p).reverse

def remaining (text : List Char) (cuts : List Cut) : List (Char × Option Nat) :=
  trimBy (fun p => Text.isBlank p.1) (traced 0 text cuts)

/-- From the offset on, the cuts follow one another in the text and begin and end between
characters. -/
inductive Fits : Nat → List Char → List Cut → Prop
  | nil {offset : Nat} {rest : List Char} : Fits offset rest []
  | cons {offset : Nat} {c : Cut} {cs : List Cut} (gap skipped rest : List Char)
      (hstart : c.span.start = offset + Text.byteLength gap)
      (hstop : c.span.stop = c.span.start + Text.byteLength skipped)
      (hrest : Fits c.span.stop rest cs) : Fits offset (gap ++ (skipped ++ rest)) (c :: cs)

@[simp] theorem map_fst_placed (offset : Nat) (text : List Char) :
    (placed offset text).map Prod.fst = text := by
  induction text generalizing offset with
  | nil => rfl
  | cons c text ih => simp [placed, ih]

theorem placed_append (offset : Nat) (a b : List Char) :
    placed offset (a ++ b) = placed offset a ++ placed (offset + Text.byteLength a) b := by
  induction a generalizing offset with
  | nil => simp [placed]
  | cons c a ih => simp [placed, ih, Nat.add_assoc]

theorem traced_cons {offset : Nat} {c : Cut} {gap skipped : List Char}
    (hstart : c.span.start = offset + Text.byteLength gap)
    (hstop : c.span.stop = c.span.start + Text.byteLength skipped) (rest : List Char)
    (cs : List Cut) :
    traced offset (gap ++ (skipped ++ rest)) (c :: cs) =
      placed offset gap ++ c.marker.map (·, none) ++ traced c.span.stop rest cs := by
  have htake : Text.takeBytes? (c.span.start - offset) (gap ++ (skipped ++ rest)) = some gap := by
    rw [hstart, Nat.add_sub_cancel_left]
    exact Text.takeBytes?_append gap _
  have hdrop : Text.dropBytes? (c.span.stop - offset) (gap ++ (skipped ++ rest)) = some rest := by
    have hlen : c.span.stop - offset = Text.byteLength (gap ++ skipped) := by
      rw [Text.byteLength_append]
      omega
    rw [hlen, ← List.append_assoc]
    exact Text.dropBytes?_append (gap ++ skipped) rest
  simp only [traced, htake, hdrop, Option.getD_some]

theorem fits_of_chained {before rest : List Char} {cuts : List Cut}
    (hc : Chained (Text.byteLength (before ++ rest)) (Text.byteLength before) cuts)
    (hb : ∀ c ∈ cuts, Text.IsBoundary (before ++ rest) c.span.start ∧
      Text.IsBoundary (before ++ rest) c.span.stop) :
    Fits (Text.byteLength before) rest cuts := by
  induction cuts generalizing before rest with
  | nil => exact .nil
  | cons c cs ih =>
    obtain ⟨h1, h2, h3⟩ := hc
    obtain ⟨⟨p, q, hpq, hp⟩, ⟨p', q', hpq', hp'⟩⟩ := hb c (by simp)
    obtain ⟨gap, rfl, rfl⟩ := Text.append_split_of_le hpq (by omega)
    rw [← List.append_assoc] at hpq'
    obtain ⟨skipped, rfl, rfl⟩ := Text.append_split_of_le hpq' (by omega)
    have hrest : Fits (Text.byteLength (before ++ gap ++ skipped)) q' cs := by
      refine ih ?_ fun d hd => ?_
      · rw [hp']
        simpa using h3
      · simpa using hb d (by simp [hd])
    rw [Text.byteLength_append] at hp
    rw [hp'] at hrest
    refine .cons gap skipped q' hp.symm ?_ hrest
    rw [← hp', Text.byteLength_append, Text.byteLength_append, hp]

theorem plan_fits {text : List Char} {bodies : List Body} {literals : List Literal}
    {options : PlanOptions} {cuts : List Cut}
    (hb : ∀ b ∈ bodies, Text.IsBoundary text b.cutStart ∧ Text.IsBoundary text b.span.stop)
    (hl : ∀ l ∈ literals, ∀ a ∈ l.atoms, Text.IsBoundary text a.start)
    (hplan : plan text bodies literals options = .ok cuts) : Fits 0 text cuts := by
  have hbound : ∀ c ∈ cuts, Text.IsBoundary text c.span.start ∧ Text.IsBoundary text c.span.stop :=
    fun c hc => candidates_boundaries hb hl
      (List.mem_of_find?_eq_some ((Plan.plan_kept hplan).first c hc))
  have hstop : ∀ c ∈ cuts, c.span.stop ≤ (Text.encode text).length := by
    intro c hc
    rw [Text.length_encode]
    exact (hbound c hc).2.le
  have hchained := plan_chained hplan hstop
  rw [Text.length_encode] at hchained
  exact @fits_of_chained [] text cuts hchained hbound

theorem Fits.bytesFrom_eq {before rest : List Char} {cuts : List Cut}
    (h : Fits (Text.byteLength before) rest cuts) :
    bytesFrom (Text.encode (before ++ rest)) (Text.byteLength before) cuts =
      Text.encode ((traced (Text.byteLength before) rest cuts).map Prod.fst) := by
  generalize ho : Text.byteLength before = offset at h
  induction h generalizing before with
  | @nil offset rest =>
    rw [bytesFrom, traced, map_fst_placed, Text.encode_append, ← ho, ← Text.length_encode,
      List.drop_left]
  | @cons offset c cs gap skipped rest hstart hstop hrest ih =>
    have hnext : Text.byteLength (before ++ gap ++ skipped) = c.span.stop := by
      simp only [Text.byteLength_append]
      omega
    have hmax : max offset c.span.stop = c.span.stop := by omega
    have htext : before ++ (gap ++ (skipped ++ rest)) = before ++ gap ++ skipped ++ rest := by simp
    have hbetween : between (Text.encode (before ++ (gap ++ (skipped ++ rest)))) offset
        c.span.start = Text.encode gap := by
      have hlen : c.span.start - offset = (Text.encode gap).length := by
        rw [Text.length_encode]
        omega
      have hle : c.span.start ≤
          (Text.encode (before ++ (gap ++ (skipped ++ rest)))).length := by
        simp only [Text.length_encode, Text.byteLength_append]
        omega
      rw [between, if_pos ⟨by omega, hle⟩, hlen, Text.encode_append, ← ho, ← Text.length_encode,
        List.drop_left, Text.encode_append, List.take_left]
    rw [bytesFrom, hmax, hbetween, htext, ih hnext, traced_cons hstart hstop]
    simp [Text.encode_append, Function.comp_def]

theorem Fits.apply_eq {text : List Char} {cuts : List Cut} (h : Fits 0 text cuts) :
    apply text cuts = Text.trim ((traced 0 text cuts).map Prod.fst) := by
  have hbytes : bytesFrom (Text.encode text) 0 cuts = _ :=
    @Fits.bytesFrom_eq [] text cuts h
  rw [apply, hbytes, Text.decode_encode]
  rfl

theorem map_fst_trimBy (l : List (Char × Option Nat)) :
    (trimBy (fun p => Text.isBlank p.1) l).map Prod.fst = Text.trim (l.map Prod.fst) := by
  rw [Text.trim, Text.dropEndWhile, List.dropWhile_map, ← List.map_reverse,
    List.dropWhile_map, ← List.map_reverse]
  rfl

theorem Fits.map_remaining {text : List Char} {cuts : List Cut} (h : Fits 0 text cuts) :
    (remaining text cuts).map Prod.fst = apply text cuts := by
  rw [h.apply_eq, remaining, map_fst_trimBy]

section Append

variable {offset : Nat} {a b : List Char} {pre post : List Cut}

theorem traced_placed_append (a : List Char) (h : Fits (offset + Text.byteLength a) b post) :
    traced offset (a ++ b) post =
      placed offset a ++ traced (offset + Text.byteLength a) b post := by
  generalize ho : offset + Text.byteLength a = next at h
  cases h with
  | nil => rw [traced, traced, placed_append, ho]
  | @cons _ c cs gap skipped rest hstart hstop _ =>
    have hstart' : c.span.start = offset + Text.byteLength (a ++ gap) := by
      rw [Text.byteLength_append]
      omega
    rw [← List.append_assoc, traced_cons hstart' hstop, traced_cons hstart hstop, placed_append, ho]
    simp

theorem Fits.traced_append (h : Fits offset a pre)
    (hpost : Fits (offset + Text.byteLength a) b post) :
    traced offset (a ++ b) (pre ++ post) =
      traced offset a pre ++ traced (offset + Text.byteLength a) b post := by
  induction h with
  | nil => exact traced_placed_append _ hpost
  | @cons offset c cs gap skipped rest hstart hstop hrest ih =>
    have hnext : offset + Text.byteLength (gap ++ (skipped ++ rest)) =
        c.span.stop + Text.byteLength rest := by
      simp only [Text.byteLength_append]
      omega
    rw [hnext] at hpost ⊢
    rw [List.append_assoc, List.append_assoc, List.cons_append, traced_cons hstart hstop,
      traced_cons hstart hstop, ih hpost]
    simp

theorem Fits.bounds {rest : List Char} {cuts : List Cut} (h : Fits offset rest cuts) :
    ∀ c ∈ cuts, offset ≤ c.span.start ∧ c.span.stop ≤ offset + Text.byteLength rest := by
  induction h with
  | nil => simp
  | @cons offset c cs gap skipped rest hstart hstop hrest ih =>
    intro d hd
    simp only [Text.byteLength_append]
    rcases List.mem_cons.mp hd with rfl | hd
    · omega
    · obtain ⟨h1, h2⟩ := ih d hd
      omega

theorem Fits.behind {cuts : List Cut} (h : Fits offset (a ++ b) cuts)
    (hout : ∀ c ∈ cuts.head?, offset + Text.byteLength a ≤ c.span.start) :
    Fits (offset + Text.byteLength a) b cuts := by
  generalize hab : a ++ b = text at h
  cases h with
  | nil => exact .nil
  | @cons _ c cs gap skipped rest hstart hstop hrest =>
    have hle := hout c rfl
    obtain ⟨m, rfl, rfl⟩ := Text.append_split_of_le hab (by omega)
    refine .cons m skipped rest ?_ hstop hrest
    rw [hstart, Text.byteLength_append]
    omega

-- A cut that begins where the text begins comes before all others, since cuts take something away.
theorem Fits.traced_marker {rest : List Char} {cuts : List Cut} {k : Cut}
    (h : Fits offset rest cuts) (hne : ∀ c ∈ cuts, c.span.start < c.span.stop) (hk : k ∈ cuts)
    (hoffset : k.span.start = offset) :
    ∃ back, traced offset rest cuts = k.marker.map (·, none) ++ back := by
  cases h with
  | nil => cases hk
  | @cons offset c cs gap skipped rest hstart hstop hrest =>
    have hfirst : k = c := by
      refine (List.mem_cons.mp hk).resolve_right fun hcs => ?_
      have hle := (hrest.bounds k hcs).1
      have hlt := hne c (by simp)
      omega
    subst hfirst
    have hgap : gap = [] := Text.byteLength_eq_zero_iff.mp (by omega)
    refine ⟨traced k.span.stop rest cs, ?_⟩
    rw [traced_cons hstart hstop, hgap]
    simp [placed]

/-- Cuts of which none goes over a place are those before it and those behind it. -/
theorem Fits.split {cuts : List Cut} (h : Fits offset (a ++ b) cuts)
    (hout : ∀ c ∈ cuts, c.span.stop ≤ offset + Text.byteLength a ∨
      offset + Text.byteLength a ≤ c.span.start) :
    ∃ pre post, cuts = pre ++ post ∧ Fits offset a pre ∧
      Fits (offset + Text.byteLength a) b post := by
  generalize hab : a ++ b = text at h
  induction h generalizing a with
  | nil => exact ⟨[], [], rfl, .nil, .nil⟩
  | @cons offset c cs gap skipped rest hstart hstop hrest ih =>
    rcases hout c (by simp) with hle | hle
    · have htext : a ++ b = gap ++ skipped ++ rest := by rw [hab, List.append_assoc]
      obtain ⟨m, rfl, rfl⟩ := Text.append_split_of_le htext.symm (by
        simp only [Text.byteLength_append]
        omega)
      have hnext : offset + Text.byteLength (gap ++ skipped ++ m) =
          c.span.stop + Text.byteLength m := by
        simp only [Text.byteLength_append]
        omega
      rw [hnext] at hout ⊢
      obtain ⟨pre, post, rfl, hpre, hpost⟩ := ih (fun d hd => hout d (by simp [hd])) rfl
      refine ⟨c :: pre, post, rfl, ?_, hpost⟩
      rw [List.append_assoc]
      exact .cons gap skipped m hstart hstop hpre
    · have hfits : Fits offset (a ++ b) (c :: cs) := by
        rw [hab]
        exact .cons gap skipped rest hstart hstop hrest
      refine ⟨[], c :: cs, rfl, .nil, hfits.behind ?_⟩
      intro d hd
      obtain rfl := Option.some.inj hd
      exact hle

end Append

section Trim

variable {α : Type} {p : α → Bool} {a m b : List α}

theorem dropWhile_append_of_head (hne : m ≠ []) (hhead : ∀ x ∈ m.head?, p x = false) :
    (a ++ m).dropWhile p = a.dropWhile p ++ m := by
  have hm : m.dropWhile p = m := by
    cases m with
    | nil => exact absurd rfl hne
    | cons x m => simp [hhead x rfl]
  rw [List.dropWhile_append]
  split
  case isTrue hempty => simp [List.isEmpty_iff.mp hempty, hm]
  case isFalse => rfl

theorem trimBy_append (hne : m ≠ []) (hhead : ∀ x ∈ m.head?, p x = false)
    (hlast : ∀ x ∈ m.getLast?, p x = false) :
    trimBy p (a ++ m ++ b) = a.dropWhile p ++ m ++ (b.reverse.dropWhile p).reverse := by
  have hfront : (a ++ m ++ b).dropWhile p = a.dropWhile p ++ m ++ b := by
    rw [List.append_assoc, dropWhile_append_of_head (by simp [hne]) (by simpa [hne] using hhead),
      List.append_assoc]
  have hback : ((a.dropWhile p ++ m ++ b).reverse).dropWhile p =
      b.reverse.dropWhile p ++ (a.dropWhile p ++ m).reverse := by
    rw [List.reverse_append]
    exact dropWhile_append_of_head (by simp [hne]) (by simpa [hne] using hlast)
  rw [trimBy, hfront, hback, List.reverse_append, List.reverse_reverse]

theorem isInfix_trimBy (p : α → Bool) (l : List α) : trimBy p l <:+: l := by
  have hback : trimBy p l <+: l.dropWhile p := by
    rw [trimBy, ← List.reverse_suffix, List.reverse_reverse]
    exact List.dropWhile_suffix p
  exact hback.isInfix.trans (List.dropWhile_suffix p).isInfix

theorem infix_trimBy {l : List α} (h : m <:+: l) (hne : m ≠ [])
    (hhead : ∀ x ∈ m.head?, p x = false) (hlast : ∀ x ∈ m.getLast?, p x = false) :
    m <:+: trimBy p l := by
  obtain ⟨a, b, rfl⟩ := h
  rw [trimBy_append hne hhead hlast]
  exact ⟨_, _, rfl⟩

end Trim

end Synopsis.Splice
