import Synopsis.Text.Blank
import Synopsis.Proofs.Span
import Synopsis.Proofs.Text.Boundary

/-!
# Texts that differ in some holes

Two texts are given as the same gaps with different fillings between them. An offset that is in no
filling has a counterpart in the other text, in the same order, and a span inside one gap has a copy
with the same characters. Nothing here depends on which of the two fillings comes first, so each
fact can be used in both directions.
-/

namespace Synopsis

def Span.shift (n : Nat) (s : Span) : Span := ⟨n + s.start, n + s.stop⟩

namespace Refill

open Synopsis.Span

/-- A part of the text that stays, and what stands behind it in the first text and in the second. -/
structure Segment where
  gap : List Char
  old : List Char
  new : List Char

def Segment.width (f : Segment → List Char) (s : Segment) : Nat :=
  Text.byteLength s.gap + Text.byteLength (f s)

def fill (f : Segment → List Char) (tail : List Char) : List Segment → List Char
  | [] => tail
  | s :: segments => s.gap ++ f s ++ fill f tail segments

def holes (f : Segment → List Char) : List Segment → List Span
  | [] => []
  | s :: segments =>
    ⟨Text.byteLength s.gap, s.width f⟩ :: (holes f segments).map (Span.shift (s.width f))

/-- The offset is in no filling, and the second one is its counterpart in the other text. -/
inductive Moved (f g : Segment → List Char) : List Segment → Nat → Nat → Prop
  | tail {n : Nat} : Moved f g [] n n
  | gap {s : Segment} {segments : List Segment} {n : Nat} (h : n ≤ Text.byteLength s.gap) :
      Moved f g (s :: segments) n n
  | past {s : Segment} {segments : List Segment} {m n : Nat} (h : Moved f g segments m n) :
      Moved f g (s :: segments) (s.width f + m) (s.width g + n)

/-- The span is inside one gap, and the second one is its copy in the other text. -/
inductive Copied (f g : Segment → List Char) : List Segment → Span → Span → Prop
  | tail {t : Span} : Copied f g [] t t
  | gap {s : Segment} {segments : List Segment} {t : Span}
      (hstart : t.start ≤ Text.byteLength s.gap) (hstop : t.stop ≤ Text.byteLength s.gap) :
      Copied f g (s :: segments) t t
  | past {s : Segment} {segments : List Segment} {t u : Span} (h : Copied f g segments t u) :
      Copied f g (s :: segments) (t.shift (s.width f)) (u.shift (s.width g))

def MovedSpan (f g : Segment → List Char) (segments : List Segment) (t u : Span) : Prop :=
  Moved f g segments t.start u.start ∧ Moved f g segments t.stop u.stop

def Firm (f : Segment → List Char) (segments : List Segment) : Prop :=
  ∀ s ∈ segments, ∃ front c, f s = front ++ [c] ∧ Text.isSpaceOrTab c = false

section Offsets

variable {f g : Segment → List Char} {segments : List Segment} {m m' n n' : Nat} {t u : Span}

theorem Moved.symm (h : Moved f g segments n n') : Moved g f segments n' n := by
  induction h with
  | tail => exact .tail
  | gap h => exact .gap h
  | past _ ih => exact .past ih

theorem Copied.symm (h : Copied f g segments t u) : Copied g f segments u t := by
  induction h with
  | tail => exact .tail
  | gap hstart hstop => exact .gap hstart hstop
  | past _ ih => exact .past ih

theorem Moved.zero : Moved f g segments 0 0 := by
  cases segments with
  | nil => exact .tail
  | cons s segments => exact .gap (Nat.zero_le _)

theorem Firm.byteLength_pos (h : Firm f segments) {s : Segment} (hs : s ∈ segments) :
    0 < Text.byteLength (f s) := by
  obtain ⟨front, c, he, -⟩ := h s hs
  exact Text.byteLength_pos (by simp [he])

theorem Firm.tail {s : Segment} (h : Firm f (s :: segments)) : Firm f segments :=
  fun r hr => h r (by simp [hr])

theorem Moved.le_iff (hf : Firm f segments) (hg : Firm g segments) (hm : Moved f g segments m m')
    (hn : Moved f g segments n n') : m ≤ n ↔ m' ≤ n' := by
  induction hm generalizing n n' with
  | tail =>
    cases hn
    exact Iff.rfl
  | @gap s segments m hm =>
    cases hn with
    | gap => exact Iff.rfl
    | past =>
      simp only [Segment.width]
      omega
  | @past s segments m m' hm ih =>
    have hfs := hf.byteLength_pos (s := s) (by simp)
    have hgs := hg.byteLength_pos (s := s) (by simp)
    cases hn with
    | gap hn =>
      simp only [Segment.width]
      omega
    | past hn =>
      have hle := ih hf.tail hg.tail hn
      omega

section Spans

variable {t' u' : Span} (hf : Firm f segments) (hg : Firm g segments)
  (h : MovedSpan f g segments t t')

include hf hg h

theorem MovedSpan.holds_iff (h' : MovedSpan f g segments u u') : t.Holds u ↔ t'.Holds u' := by
  unfold Span.Holds
  rw [Moved.le_iff hf hg h.1 h'.1, Moved.le_iff hf hg h'.2 h.2]

theorem MovedSpan.eq_iff (h' : MovedSpan f g segments u u') : t = u ↔ t' = u' := by
  have h1 := h.holds_iff hf hg h'
  have h2 := h'.holds_iff hf hg h
  constructor
  · intro he
    have hholds : t.Holds u ∧ u.Holds t := by rw [he]; exact ⟨Holds.refl _, Holds.refl _⟩
    exact (h1.mp hholds.1).antisymm (h2.mp hholds.2)
  · intro he
    have hholds : t'.Holds u' ∧ u'.Holds t' := by rw [he]; exact ⟨Holds.refl _, Holds.refl _⟩
    exact (h1.mpr hholds.1).antisymm (h2.mpr hholds.2)

theorem MovedSpan.covers_iff (hn : Moved f g segments n n') : t.Covers n ↔ t'.Covers n' := by
  unfold Span.Covers
  rw [← Nat.not_le, ← Nat.not_le, Moved.le_iff hf hg h.1 hn, Moved.le_iff hf hg h.2 hn]

theorem MovedSpan.strictlyInside_iff (hn : Moved f g segments n n') :
    StrictlyInside n t ↔ StrictlyInside n' t' := by
  unfold Span.StrictlyInside
  rw [← Nat.not_le, ← Nat.not_le, ← Nat.not_le, ← Nat.not_le, Moved.le_iff hf hg hn h.1,
    Moved.le_iff hf hg h.2 hn]

end Spans

theorem MovedSpan.symm (h : MovedSpan f g segments t u) : MovedSpan g f segments u t :=
  ⟨h.1.symm, h.2.symm⟩

theorem Copied.moved (h : Copied f g segments t u) : MovedSpan f g segments t u := by
  induction h with
  | tail => exact ⟨.tail, .tail⟩
  | gap hstart hstop => exact ⟨.gap hstart, .gap hstop⟩
  | past _ ih => exact ⟨.past ih.1, .past ih.2⟩

theorem Copied.length_eq (h : Copied f g segments t u) :
    t.stop + u.start = u.stop + t.start := by
  induction h with
  | tail | gap => rfl
  | past _ ih =>
    simp only [Span.shift]
    omega

theorem Copied.trim {p q : Nat} (h : Copied f g segments t u) (hle : t.start + p + q ≤ t.stop) :
    Copied f g segments ⟨t.start + p, t.stop - q⟩ ⟨u.start + p, u.stop - q⟩ := by
  induction h with
  | tail => exact .tail
  | gap hstart hstop =>
    refine .gap ?_ ?_
    · change _ + p ≤ _
      omega
    · change _ - q ≤ _
      omega
  | @past s segments t u h ih =>
    have hlen := h.length_eq
    have hcopy := Copied.past (s := s) (ih (by simp only [Span.shift] at hle; omega))
    simp only [Span.shift] at hle hcopy ⊢
    have ht : s.width f + t.stop - q = s.width f + (t.stop - q) := by omega
    have hu : s.width g + u.stop - q = s.width g + (u.stop - q) := by omega
    rw [Nat.add_assoc, Nat.add_assoc, ht, hu]
    exact hcopy

theorem Copied.apart (h : Copied f g segments t u) {hole : Span} (hmem : hole ∈ holes f segments) :
    t.stop ≤ hole.start ∨ hole.stop ≤ t.start := by
  induction h generalizing hole with
  | tail => cases hmem
  | gap hstart hstop =>
    rcases List.mem_cons.mp hmem with rfl | hmem
    · exact .inl hstop
    · obtain ⟨inner, -, rfl⟩ := List.mem_map.mp hmem
      simp only [Span.shift, Segment.width]
      omega
  | past h ih =>
    rcases List.mem_cons.mp hmem with rfl | hmem
    · exact .inr (Nat.le_add_right _ _)
    · obtain ⟨inner, hinner, rfl⟩ := List.mem_map.mp hmem
      simp only [Span.shift]
      rcases ih hinner with hle | hle <;> omega

theorem exists_moved_hole {hole : Span} (hmem : hole ∈ holes f segments) :
    ∃ other ∈ holes g segments, MovedSpan f g segments hole other := by
  induction segments generalizing hole with
  | nil => cases hmem
  | cons s segments ih =>
    rcases List.mem_cons.mp hmem with rfl | hmem
    · exact ⟨⟨Text.byteLength s.gap, s.width g⟩, by simp [holes], .gap (Nat.le_refl _),
        .past .zero⟩
    · obtain ⟨inner, hinner, rfl⟩ := List.mem_map.mp hmem
      obtain ⟨other, hother, hstart, hstop⟩ := ih hinner
      exact ⟨other.shift (s.width g), by simpa [holes] using .inr ⟨other, hother, rfl⟩,
        .past hstart, .past hstop⟩

theorem exists_hole (tail : List Char) {s : Segment} (hs : s ∈ segments) :
    ∃ front back, fill f tail segments = front ++ f s ++ back ∧
      ⟨Text.byteLength front, Text.byteLength front + Text.byteLength (f s)⟩ ∈
        holes f segments := by
  induction segments with
  | nil => cases hs
  | cons r segments ih =>
    rcases List.mem_cons.mp hs with rfl | hs
    · exact ⟨s.gap, fill f tail segments, rfl, by simp [holes, Segment.width]⟩
    · obtain ⟨front, back, htext, hhole⟩ := ih hs
      refine ⟨r.gap ++ f r ++ front, back, by simp [fill, htext], ?_⟩
      refine List.mem_cons.mpr (.inr (List.mem_map.mpr ⟨_, hhole, ?_⟩))
      simp only [Span.shift, Segment.width, Text.byteLength_append]
      congr 1
      omega

end Offsets

section Reading

variable {a x y : List Char} {n : Nat} {t : Span}

theorem takeBytes?_append_congr (h : n ≤ Text.byteLength a) (x y : List Char) :
    Text.takeBytes? n (a ++ x) = Text.takeBytes? n (a ++ y) := by
  have hhalf : ∀ {x y taken : List Char}, Text.takeBytes? n (a ++ x) = some taken →
      Text.takeBytes? n (a ++ y) = some taken := by
    intro x y taken htake
    obtain ⟨after, htext, hlen⟩ := Text.takeBytes?_eq_some_iff.mp htake
    obtain ⟨m, rfl, -⟩ := Text.append_split_of_le htext.symm (by omega)
    exact Text.takeBytes?_eq_some_iff.mpr ⟨m ++ y, by simp, hlen⟩
  exact Option.ext fun taken => ⟨hhalf, hhalf⟩

theorem takeBytes?_append_add (a x : List Char) (n : Nat) :
    Text.takeBytes? (Text.byteLength a + n) (a ++ x) = (Text.takeBytes? n x).map (a ++ ·) := by
  refine Option.ext fun taken => ?_
  rw [Option.map_eq_some_iff]
  constructor
  · intro htake
    obtain ⟨after, htext, hlen⟩ := Text.takeBytes?_eq_some_iff.mp htake
    obtain ⟨m, rfl, rfl⟩ := Text.append_split_of_le htext (by omega)
    rw [Text.byteLength_append] at hlen
    exact ⟨m, Text.takeBytes?_eq_some_iff.mpr ⟨after, rfl, by omega⟩, rfl⟩
  · intro hmap
    obtain ⟨m, htake, rfl⟩ := hmap
    obtain ⟨after, rfl, hlen⟩ := Text.takeBytes?_eq_some_iff.mp htake
    exact Text.takeBytes?_eq_some_iff.mpr
      ⟨after, by simp, by rw [Text.byteLength_append, hlen]⟩

theorem slice?_append_congr (h : t.stop ≤ Text.byteLength a) (x y : List Char) :
    Text.slice? (a ++ x) t = Text.slice? (a ++ y) t := by
  have hhalf : ∀ {x y part : List Char}, Text.slice? (a ++ x) t = some part →
      Text.slice? (a ++ y) t = some part := by
    intro x y part hslice
    obtain ⟨before, after, htext, hstart, hstop⟩ := Text.slice?_eq_some_iff.mp hslice
    obtain ⟨m, rfl, -⟩ := Text.append_split_of_le htext.symm (by
      rw [Text.byteLength_append]
      omega)
    exact Text.slice?_eq_some_iff.mpr ⟨before, m ++ y, by simp, hstart, hstop⟩
  exact Option.ext fun part => ⟨hhalf, hhalf⟩

theorem slice?_append_shift (a x : List Char) (t : Span) :
    Text.slice? (a ++ x) (t.shift (Text.byteLength a)) = Text.slice? x t := by
  refine Option.ext fun part => ?_
  rw [Text.slice?_eq_some_iff, Text.slice?_eq_some_iff]
  simp only [Span.shift]
  constructor
  · intro hslice
    obtain ⟨before, after, htext, hstart, hstop⟩ := hslice
    rw [List.append_assoc] at htext
    obtain ⟨m, rfl, rfl⟩ := Text.append_split_of_le htext (by omega)
    rw [Text.byteLength_append] at hstart hstop
    exact ⟨m, after, by simp, by omega, by omega⟩
  · intro hslice
    obtain ⟨before, after, rfl, hstart, hstop⟩ := hslice
    refine ⟨a ++ before, after, by simp, ?_, ?_⟩ <;> rw [Text.byteLength_append] <;> omega

end Reading

def cutAt (text : List Char) (n : Nat) : Nat :=
  n - (((Text.takeBytes? n text).getD []).reverse.takeWhile Text.isSpaceOrTab).length

section Blanks

variable {a x : List Char} {n : Nat}

theorem cutAt_le (text : List Char) (n : Nat) : cutAt text n ≤ n := Nat.sub_le _ _

theorem length_le_byteLength (text : List Char) : text.length ≤ Text.byteLength text := by
  induction text with
  | nil => exact Nat.le_refl _
  | cons c text ih =>
    have hc := c.utf8Size_pos
    rw [Text.byteLength_cons, List.length_cons]
    omega

theorem cutAt_append_congr (h : n ≤ Text.byteLength a) (x y : List Char) :
    cutAt (a ++ x) n = cutAt (a ++ y) n := by
  rw [cutAt, cutAt, takeBytes?_append_congr h x y]

-- A character that is no blank stops the blanks from reaching further back.
theorem cutAt_append_add {front : List Char} {c : Char} (hc : Text.isSpaceOrTab c = false)
    (x : List Char) (n : Nat) :
    cutAt (front ++ [c] ++ x) (Text.byteLength (front ++ [c]) + n) =
      Text.byteLength (front ++ [c]) + cutAt x n := by
  rw [cutAt, cutAt, takeBytes?_append_add]
  cases htake : Text.takeBytes? n x with
  | none => simp
  | some m =>
    obtain ⟨after, -, hlen⟩ := Text.takeBytes?_eq_some_iff.mp htake
    have hstop : ((front ++ [c] ++ m).reverse.takeWhile Text.isSpaceOrTab) =
        m.reverse.takeWhile Text.isSpaceOrTab := by
      rw [List.reverse_append, List.takeWhile_append]
      split
      case isTrue hall =>
        have hm : m.reverse.takeWhile Text.isSpaceOrTab = m.reverse :=
          (List.takeWhile_prefix Text.isSpaceOrTab).eq_of_length hall
        simp [hm, hc]
      case isFalse => rfl
    have hle : (m.reverse.takeWhile Text.isSpaceOrTab).length ≤ n := by
      have h1 := (List.takeWhile_sublist (l := m.reverse) Text.isSpaceOrTab).length_le
      have h2 := length_le_byteLength m
      rw [List.length_reverse] at h1
      omega
    simp only [Option.map_some, Option.getD_some, hstop]
    omega

end Blanks

section Counterparts

variable {f g : Segment → List Char} {segments : List Segment} {n n' : Nat} {t u : Span}

theorem Copied.slice?_eq (h : Copied f g segments t u) (tail : List Char) :
    Text.slice? (fill f tail segments) t = Text.slice? (fill g tail segments) u := by
  induction h with
  | tail => rfl
  | gap hstart hstop =>
    simp only [fill, List.append_assoc]
    exact slice?_append_congr hstop _ _
  | @past s segments t u h ih =>
    have hf : s.width f = Text.byteLength (s.gap ++ f s) := by simp [Segment.width]
    have hg : s.width g = Text.byteLength (s.gap ++ g s) := by simp [Segment.width]
    rw [fill, fill, hf, hg, slice?_append_shift, slice?_append_shift, ih]

theorem Moved.cutAt (hf : Firm f segments) (hg : Firm g segments) (h : Moved f g segments n n')
    (tail : List Char) : Moved f g segments (cutAt (fill f tail segments) n)
      (cutAt (fill g tail segments) n') := by
  induction h with
  | tail => exact .tail
  | @gap s segments n h =>
    simp only [fill, List.append_assoc]
    rw [cutAt_append_congr h _ (g s ++ fill g tail segments)]
    exact .gap (Nat.le_trans (cutAt_le _ n) h)
  | @past s segments n n' h ih =>
    have hstep : ∀ (e : Segment → List Char) (k : Nat), Firm e (s :: segments) →
        Refill.cutAt (fill e tail (s :: segments)) (s.width e + k) =
          s.width e + Refill.cutAt (fill e tail segments) k := by
      intro e k he
      obtain ⟨front, c, hs, hc⟩ := he s (by simp)
      have hw : s.width e = Text.byteLength (s.gap ++ front ++ [c]) := by
        simp [Segment.width, hs]
      have htext : fill e tail (s :: segments) =
          s.gap ++ front ++ [c] ++ fill e tail segments := by simp [fill, hs]
      rw [hw, htext, cutAt_append_add hc]
    rw [hstep f n hf, hstep g n' hg]
    exact .past (ih hf.tail hg.tail)

end Counterparts

end Refill
end Synopsis
