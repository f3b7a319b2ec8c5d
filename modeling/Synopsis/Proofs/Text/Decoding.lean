import Synopsis.Content
import Synopsis.Proofs.Text.Encoding

/-!
# Which bytes are text

Bytes that are read without a broken stretch are the bytes of the text that was read, so bytes have
a text exactly where some text has these bytes. This settles what a file holds.
-/

namespace Synopsis

namespace Text

theorem fits_bounds {a b : UInt8} (h : fits a b = true) :
    0x80 ≤ b.toNat ∧ b.toNat ≤ 0xBF ∧
    (a.toNat = 0xE0 → 0xA0 ≤ b.toNat) ∧ (a.toNat = 0xED → b.toNat ≤ 0x9F) ∧
    (a.toNat = 0xF0 → 0x90 ≤ b.toNat) ∧ (a.toNat = 0xF4 → b.toNat ≤ 0x8F) := by
  simp only [fits, beq_iff_eq, ← UInt8.toNat_inj, UInt8.reduceToNat] at h
  split at h
  · simp [UInt8.le_iff_toNat_le] at h
    omega
  · split at h
    · simp [UInt8.le_iff_toNat_le] at h
      omega
    · split at h
      · simp [UInt8.le_iff_toNat_le] at h
        omega
      · split at h
        · simp [UInt8.le_iff_toNat_le] at h
          omega
        · rw [isContinuation_iff] at h
          omega

theorem val_ofNat {n : Nat} (h : n < 0xD800 ∨ 0xDFFF < n ∧ n < 0x110000) :
    (Char.ofNat n).val.toNat = n := by
  have hvalid : n.isValidChar := h
  rw [Char.ofNat, dif_pos hvalid]
  rfl

theorem ofNat_eq {n : Nat} {a : UInt8} (h : n = a.toNat) : UInt8.ofNat n = a := by
  rw [h, UInt8.ofNat_toNat]

section Widths

variable {a b c d : UInt8}

theorem encodeChar_one (ha : width a = 1) :
    String.utf8EncodeChar (Char.ofNat a.toNat) = [a] := by
  have hlow : a.toNat < 0x80 := by
    rw [width_eq] at ha
    grind
  simp only [String.utf8EncodeChar, val_ofNat (show a.toNat < 0xD800 ∨ _ by omega)]
  rw [if_pos (by omega), UInt8.ofNat_toNat]

theorem encodeChar_two (ha : width a = 2) (hb : fits a b = true) :
    String.utf8EncodeChar (Char.ofNat (a.toNat % 32 * 64 + low b)) = [a, b] := by
  have hfirst : 0xC2 ≤ a.toNat ∧ a.toNat ≤ 0xDF := by
    rw [width_eq] at ha
    grind
  have hsecond := fits_bounds hb
  unfold low
  simp only [String.utf8EncodeChar,
    val_ofNat (show a.toNat % 32 * 64 + b.toNat % 64 < 0xD800 ∨ _ by omega)]
  rw [if_neg (by omega), if_pos (by omega)]
  congr 1
  · exact ofNat_eq (by omega)
  · congr 1
    exact ofNat_eq (by omega)

theorem encodeChar_three (ha : width a = 3) (hb : fits a b = true) (hc : isContinuation c = true) :
    String.utf8EncodeChar (Char.ofNat ((a.toNat % 16 * 64 + low b) * 64 + low c)) = [a, b, c] := by
  have hfirst : 0xE0 ≤ a.toNat ∧ a.toNat ≤ 0xEF := by
    rw [width_eq] at ha
    grind
  have hsecond := fits_bounds hb
  have hthird := (isContinuation_iff c).mp hc
  unfold low
  -- the second byte after 0xE0 or 0xED keeps the number above 0x7FF and no surrogate
  have hvalid : (a.toNat % 16 * 64 + b.toNat % 64) * 64 + c.toNat % 64 < 0xD800 ∨
      0xDFFF < (a.toNat % 16 * 64 + b.toNat % 64) * 64 + c.toNat % 64 ∧
      (a.toNat % 16 * 64 + b.toNat % 64) * 64 + c.toNat % 64 < 0x110000 := by omega
  simp only [String.utf8EncodeChar, val_ofNat hvalid]
  rw [if_neg (by omega), if_neg (by omega), if_pos (by omega)]
  congr 1
  · exact ofNat_eq (by omega)
  · congr 1
    · exact ofNat_eq (by omega)
    · congr 1
      exact ofNat_eq (by omega)

theorem encodeChar_four (ha : width a = 4) (hb : fits a b = true) (hc : isContinuation c = true)
    (hd : isContinuation d = true) :
    String.utf8EncodeChar
      (Char.ofNat (((a.toNat % 8 * 64 + low b) * 64 + low c) * 64 + low d)) = [a, b, c, d] := by
  have hfirst : 0xF0 ≤ a.toNat ∧ a.toNat ≤ 0xF4 := by
    rw [width_eq] at ha
    grind
  have hsecond := fits_bounds hb
  have hthird := (isContinuation_iff c).mp hc
  have hfourth := (isContinuation_iff d).mp hd
  unfold low
  have hvalid : ((a.toNat % 8 * 64 + b.toNat % 64) * 64 + c.toNat % 64) * 64 + d.toNat % 64 <
        0xD800 ∨
      0xDFFF < ((a.toNat % 8 * 64 + b.toNat % 64) * 64 + c.toNat % 64) * 64 + d.toNat % 64 ∧
      ((a.toNat % 8 * 64 + b.toNat % 64) * 64 + c.toNat % 64) * 64 + d.toNat % 64 < 0x110000 := by
    omega
  simp only [String.utf8EncodeChar, val_ofNat hvalid]
  rw [if_neg (by omega), if_neg (by omega), if_neg (by omega)]
  congr 1
  · exact ofNat_eq (by omega)
  · congr 1
    · exact ofNat_eq (by omega)
    · congr 1
      · exact ofNat_eq (by omega)
      · congr 1
        exact ofNat_eq (by omega)

end Widths

theorem encode_of_pieces {bytes : List UInt8} {text : List Char}
    (h : pieces bytes = text.map some) : encode text = bytes := by
  fun_induction pieces bytes generalizing text with
  | case1 =>
    obtain rfl : text = [] := by simpa using h.symm
    rfl
  | case2 a rest ha ih =>
    obtain ⟨c, text, rfl, hc, hrest⟩ := List.map_eq_cons_iff.mp h.symm
    rw [encode_cons, ih hrest.symm, Option.some.inj hc, encodeChar_one ha]
    rfl
  | case3 a ha b rest hb ih =>
    obtain ⟨c, text, rfl, hc, hrest⟩ := List.map_eq_cons_iff.mp h.symm
    rw [encode_cons, ih hrest.symm, Option.some.inj hc, encodeChar_two ha hb]
    rfl
  | case6 a ha b hb c rest hc ih =>
    obtain ⟨x, text, rfl, hx, hrest⟩ := List.map_eq_cons_iff.mp h.symm
    rw [encode_cons, ih hrest.symm, Option.some.inj hx, encodeChar_three ha hb hc]
    rfl
  | case11 a ha b hb c hc d rest hd ih =>
    obtain ⟨x, text, rfl, hx, hrest⟩ := List.map_eq_cons_iff.mp h.symm
    rw [encode_cons, ih hrest.symm, Option.some.inj hx, encodeChar_four ha hb hc hd]
    rfl
  | _ =>
    -- the first piece is a broken stretch
    cases text <;> cases h

theorem eq_map_some_of_mapM {l : List (Option Char)} {text : List Char}
    (h : l.mapM id = some text) : l = text.map some := by
  induction l generalizing text with
  | nil =>
    cases h
    rfl
  | cons x l ih =>
    rw [List.mapM_cons] at h
    obtain ⟨c, hc, h⟩ := Option.bind_eq_some_iff.mp h
    obtain ⟨rest, hrest, h⟩ := Option.bind_eq_some_iff.mp h
    cases h
    rw [ih hrest, List.map_cons, ← hc]
    rfl

theorem decode?_eq_some_iff {bytes : List UInt8} {text : List Char} :
    decode? bytes = some text ↔ encode text = bytes := by
  constructor
  · exact fun h => encode_of_pieces (eq_map_some_of_mapM h)
  · rintro rfl
    exact decode?_encode text

end Text

namespace Content

variable {bytes : List UInt8}

theorem text_eq_binary (h : 0 ∈ bytes.take sampleSize) : text bytes = .error .binary :=
  if_pos (List.contains_iff_mem.mpr h)

theorem text_eq_notUtf8 (h : 0 ∉ bytes.take sampleSize) (hno : ∀ t, Text.encode t ≠ bytes) :
    text bytes = .error .notUtf8 := by
  rw [text, if_neg fun hc => h (List.contains_iff_mem.mp hc)]
  cases hd : Text.decode? bytes with
  | none => rfl
  | some t => exact absurd (Text.decode?_eq_some_iff.mp hd) (hno t)

theorem encode_of_text_eq_ok {t : List Char} (h : text bytes = .ok t) : Text.encode t = bytes := by
  unfold text at h
  split at h
  case isTrue => cases h
  case isFalse =>
    split at h
    case h_1 found hfound =>
      obtain rfl := Except.ok.inj h
      exact Text.decode?_eq_some_iff.mp hfound
    case h_2 => cases h

end Content
end Synopsis
