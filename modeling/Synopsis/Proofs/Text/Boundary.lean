import Synopsis.Text.Slice
import Synopsis.Text.Utf8

/-!
# Places to cut a text

An offset is a boundary of a text if the bytes before it are whole characters. Taking, dropping and
slicing by bytes succeed exactly at boundaries, and what they give is a part of the text: these are
the only facts about them that later modules use.
-/

namespace Synopsis.Text

@[simp] theorem byteLength_nil : byteLength [] = 0 := rfl

@[simp] theorem byteLength_cons (c : Char) (text : List Char) :
    byteLength (c :: text) = c.utf8Size + byteLength text := rfl

@[simp] theorem byteLength_append (a b : List Char) :
    byteLength (a ++ b) = byteLength a + byteLength b := by
  induction a with
  | nil => simp
  | cons c a ih => rw [List.cons_append, byteLength_cons, byteLength_cons, ih, Nat.add_assoc]

theorem encode_cons (c : Char) (text : List Char) :
    encode (c :: text) = String.utf8EncodeChar c ++ encode text := rfl

theorem encode_append (a b : List Char) : encode (a ++ b) = encode a ++ encode b :=
  List.flatMap_append

theorem length_encode (text : List Char) : (encode text).length = byteLength text := by
  induction text with
  | nil => rfl
  | cons c text ih =>
    rw [byteLength_cons, ← ih]
    simp [encode]

theorem byteLength_pos {text : List Char} (h : text ≠ []) : 0 < byteLength text := by
  cases text with
  | nil => exact absurd rfl h
  | cons c text =>
    have hc := c.utf8Size_pos
    rw [byteLength_cons]
    omega

theorem byteLength_eq_zero_iff {text : List Char} : byteLength text = 0 ↔ text = [] := by
  constructor
  · intro h
    apply Decidable.byContradiction
    intro hne
    have hpos := byteLength_pos hne
    omega
  · rintro rfl
    rfl

theorem append_split_of_le {a b c d : List Char} (h : a ++ b = c ++ d)
    (hl : byteLength a ≤ byteLength c) : ∃ m, c = a ++ m ∧ b = m ++ d := by
  rcases List.append_eq_append_iff.mp h with ⟨m, hc, hb⟩ | ⟨m, ha, hd⟩
  · exact ⟨m, hc, hb⟩
  · have hm : byteLength m = 0 := by
      rw [ha, byteLength_append] at hl
      omega
    obtain rfl := byteLength_eq_zero_iff.mp hm
    exact ⟨[], by simpa using ha.symm, by simpa using hd.symm⟩

theorem append_inj_of_byteLength_eq {a b c d : List Char} (h : a ++ b = c ++ d)
    (hl : byteLength a = byteLength c) : a = c ∧ b = d := by
  obtain ⟨m, rfl, rfl⟩ := append_split_of_le h (Nat.le_of_eq hl)
  rw [byteLength_append] at hl
  obtain rfl := @byteLength_eq_zero_iff m |>.mp (by omega)
  simp

def IsBoundary (text : List Char) (offset : Nat) : Prop :=
  ∃ before after, text = before ++ after ∧ byteLength before = offset

theorem dropBytes?_append (before after : List Char) :
    dropBytes? (byteLength before) (before ++ after) = some after := by
  induction before with
  | nil => simp [dropBytes?]
  | cons c before ih =>
    have hc := c.utf8Size_pos
    obtain ⟨n, hn⟩ : ∃ n, byteLength (c :: before) = n + 1 :=
      ⟨c.utf8Size - 1 + byteLength before, by rw [byteLength_cons]; omega⟩
    have hrest : n + 1 - c.utf8Size = byteLength before := by rw [← hn, byteLength_cons]; omega
    have hle : c.utf8Size ≤ n + 1 := by rw [← hn, byteLength_cons]; omega
    rw [hn, List.cons_append, dropBytes?, if_pos hle, hrest, ih]

theorem dropBytes?_eq_some_iff {n : Nat} {text after : List Char} :
    dropBytes? n text = some after ↔ ∃ before, text = before ++ after ∧ byteLength before = n := by
  constructor
  · intro h
    fun_induction dropBytes? n text with
    | case1 text =>
      obtain rfl := Option.some.inj h
      exact ⟨[], rfl, rfl⟩
    | case2 => cases h
    | case3 n c text hc ih =>
      obtain ⟨before, rfl, hb⟩ := ih h
      exact ⟨c :: before, rfl, by rw [byteLength_cons, hb]; omega⟩
    | case4 => cases h
  · rintro ⟨before, rfl, rfl⟩
    exact dropBytes?_append before after

theorem takeBytes?_append (before after : List Char) :
    takeBytes? (byteLength before) (before ++ after) = some before := by
  induction before with
  | nil => simp [takeBytes?]
  | cons c before ih =>
    have hc := c.utf8Size_pos
    obtain ⟨n, hn⟩ : ∃ n, byteLength (c :: before) = n + 1 :=
      ⟨c.utf8Size - 1 + byteLength before, by rw [byteLength_cons]; omega⟩
    have hrest : n + 1 - c.utf8Size = byteLength before := by rw [← hn, byteLength_cons]; omega
    have hle : c.utf8Size ≤ n + 1 := by rw [← hn, byteLength_cons]; omega
    rw [hn, List.cons_append, takeBytes?, if_pos hle, hrest, ih, Option.map_some]

theorem takeBytes?_eq_some_iff {n : Nat} {text before : List Char} :
    takeBytes? n text = some before ↔ ∃ after, text = before ++ after ∧ byteLength before = n := by
  constructor
  · intro h
    fun_induction takeBytes? n text generalizing before with
    | case1 text =>
      obtain rfl := Option.some.inj h
      exact ⟨text, rfl, rfl⟩
    | case2 => cases h
    | case3 n c text hc ih =>
      obtain ⟨taken, ht, rfl⟩ := Option.map_eq_some_iff.mp h
      obtain ⟨after, rfl, hb⟩ := ih ht
      exact ⟨after, rfl, by rw [byteLength_cons, hb]; omega⟩
    | case4 => cases h
  · rintro ⟨after, rfl, rfl⟩
    exact takeBytes?_append before after

theorem slice?_eq_some_iff {text middle : List Char} {span : Span} :
    slice? text span = some middle ↔ ∃ before after, text = before ++ middle ++ after ∧
      byteLength before = span.start ∧ byteLength before + byteLength middle = span.stop := by
  constructor
  · intro h
    unfold slice? at h
    split at h
    case isFalse => cases h
    case isTrue hle =>
      obtain ⟨rest, hdrop, htake⟩ := Option.bind_eq_some_iff.mp h
      obtain ⟨before, rfl, hb⟩ := dropBytes?_eq_some_iff.mp hdrop
      obtain ⟨after, rfl, hm⟩ := takeBytes?_eq_some_iff.mp htake
      exact ⟨before, after, by simp, hb, by omega⟩
  · rintro ⟨before, after, rfl, hb, hm⟩
    have hlen : span.stop - span.start = byteLength middle := by omega
    rw [slice?, if_pos (by omega), ← hb, List.append_assoc, dropBytes?_append, Option.bind_some, hb,
      hlen, takeBytes?_append]

theorem isBoundary_iff_dropBytes? {text : List Char} {offset : Nat} :
    (dropBytes? offset text).isSome ↔ IsBoundary text offset := by
  simp only [Option.isSome_iff_exists, dropBytes?_eq_some_iff, IsBoundary]
  exact exists_comm

instance (text : List Char) (offset : Nat) : Decidable (IsBoundary text offset) :=
  decidable_of_iff _ isBoundary_iff_dropBytes?

theorem IsBoundary.le {text : List Char} {offset : Nat} (h : IsBoundary text offset) :
    offset ≤ byteLength text := by
  obtain ⟨before, after, rfl, rfl⟩ := h
  simp

theorem isBoundary_zero (text : List Char) : IsBoundary text 0 := ⟨[], text, rfl, rfl⟩

end Synopsis.Text
