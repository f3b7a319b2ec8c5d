import Synopsis.Proofs.Text.Boundary

/-!
# Encoding and decoding

Reading the bytes of a text gives its characters back, one piece for each, and no broken stretch.
The argument is about one character at a time: its bytes have the width that the first of them
announces, the second byte fits the first, and the bits they carry make up the character.
-/

namespace Synopsis.Text

theorem width_eq (b : UInt8) : width b =
    if b.toNat < 0x80 then 1
    else if 0xC2 ≤ b.toNat ∧ b.toNat ≤ 0xDF then 2
    else if 0xE0 ≤ b.toNat ∧ b.toNat ≤ 0xEF then 3
    else if 0xF0 ≤ b.toNat ∧ b.toNat ≤ 0xF4 then 4
    else 0 := by
  simp [width, UInt8.lt_iff_toNat_lt, UInt8.le_iff_toNat_le]

theorem isContinuation_iff (b : UInt8) :
    isContinuation b = true ↔ 0x80 ≤ b.toNat ∧ b.toNat ≤ 0xBF := by
  simp [isContinuation, UInt8.le_iff_toNat_le]

theorem fits_of {a b : UInt8} (h : 0x80 ≤ b.toNat ∧ b.toNat ≤ 0xBF)
    (h1 : a.toNat = 0xE0 → 0xA0 ≤ b.toNat) (h2 : a.toNat = 0xED → b.toNat ≤ 0x9F)
    (h3 : a.toNat = 0xF0 → 0x90 ≤ b.toNat) (h4 : a.toNat = 0xF4 → b.toNat ≤ 0x8F) :
    fits a b = true := by
  simp only [fits, beq_iff_eq, ← UInt8.toNat_inj, UInt8.reduceToNat]
  split
  case isTrue he => simpa [UInt8.le_iff_toNat_le] using ⟨h1 he, h.2⟩
  case isFalse =>
    split
    case isTrue he => simpa [UInt8.le_iff_toNat_le] using ⟨h.1, h2 he⟩
    case isFalse =>
      split
      case isTrue he => simpa [UInt8.le_iff_toNat_le] using ⟨h3 he, h.2⟩
      case isFalse =>
        split
        case isTrue he => simpa [UInt8.le_iff_toNat_le] using ⟨h.1, h4 he⟩
        case isFalse => exact (isContinuation_iff b).mpr h

theorem toNat_ofNat {n : Nat} (h : n < 256) : (UInt8.ofNat n).toNat = n := by
  simpa using h

section Pieces

variable {a b c d : UInt8} (rest : List UInt8)

theorem pieces_one (ha : width a = 1) :
    pieces (a :: rest) = some (Char.ofNat a.toNat) :: pieces rest := by
  rw [pieces.eq_def]
  simp only [ha]

theorem pieces_two (ha : width a = 2) (hb : fits a b = true) :
    pieces (a :: b :: rest) = some (Char.ofNat (a.toNat % 32 * 64 + low b)) :: pieces rest := by
  rw [pieces.eq_def]
  simp only [ha, hb, if_true]

theorem pieces_three (ha : width a = 3) (hb : fits a b = true) (hc : isContinuation c = true) :
    pieces (a :: b :: c :: rest) =
      some (Char.ofNat ((a.toNat % 16 * 64 + low b) * 64 + low c)) :: pieces rest := by
  rw [pieces.eq_def]
  simp only [ha, hb, hc, if_true]

theorem pieces_four (ha : width a = 4) (hb : fits a b = true) (hc : isContinuation c = true)
    (hd : isContinuation d = true) :
    pieces (a :: b :: c :: d :: rest) =
      some (Char.ofNat (((a.toNat % 8 * 64 + low b) * 64 + low c) * 64 + low d)) ::
        pieces rest := by
  rw [pieces.eq_def]
  simp only [ha, hb, hc, hd, if_true]

end Pieces

theorem toNat_valid (c : Char) :
    c.toNat < 0xD800 ∨ 0xDFFF < c.toNat ∧ c.toNat < 0x110000 := c.valid

section Widths

variable {n : Nat} (rest : List UInt8)

theorem pieces_below_128 (h : n ≤ 127) :
    pieces (UInt8.ofNat n :: rest) = some (Char.ofNat n) :: pieces rest := by
  have ha := toNat_ofNat (show n < 256 by omega)
  have hw : width (UInt8.ofNat n) = 1 := by rw [width_eq, ha, if_pos (by omega)]
  rw [pieces_one rest hw, ha]

theorem pieces_below_2048 (h1 : 127 < n) (h2 : n ≤ 2047) :
    pieces (UInt8.ofNat (n / 64 % 32 + 192) :: UInt8.ofNat (n % 64 + 128) :: rest) =
      some (Char.ofNat n) :: pieces rest := by
  have ha := toNat_ofNat (show n / 64 % 32 + 192 < 256 by omega)
  have hb := toNat_ofNat (show n % 64 + 128 < 256 by omega)
  have hw : width (UInt8.ofNat (n / 64 % 32 + 192)) = 2 := by
    rw [width_eq, ha, if_neg (by omega), if_pos (by omega)]
  have hf : fits (UInt8.ofNat (n / 64 % 32 + 192)) (UInt8.ofNat (n % 64 + 128)) = true := by
    apply fits_of <;> rw [hb] <;> omega
  have hn : (n / 64 % 32 + 192) % 32 * 64 + (n % 64 + 128) % 64 = n := by omega
  rw [pieces_two rest hw hf, low, ha, hb, hn]

-- A first byte of 0xE0 or 0xED narrows the second: characters take the shortest form, and none is
-- a surrogate.
theorem pieces_below_65536 (h1 : 2047 < n) (h2 : n ≤ 65535) (hv : n < 0xD800 ∨ 0xDFFF < n) :
    pieces (UInt8.ofNat (n / 4096 % 16 + 224) :: UInt8.ofNat (n / 64 % 64 + 128) ::
      UInt8.ofNat (n % 64 + 128) :: rest) = some (Char.ofNat n) :: pieces rest := by
  have ha := toNat_ofNat (show n / 4096 % 16 + 224 < 256 by omega)
  have hb := toNat_ofNat (show n / 64 % 64 + 128 < 256 by omega)
  have hc := toNat_ofNat (show n % 64 + 128 < 256 by omega)
  have hw : width (UInt8.ofNat (n / 4096 % 16 + 224)) = 3 := by
    rw [width_eq, ha, if_neg (by omega), if_neg (by omega), if_pos (by omega)]
  have hf : fits (UInt8.ofNat (n / 4096 % 16 + 224)) (UInt8.ofNat (n / 64 % 64 + 128)) = true := by
    apply fits_of <;> rw [hb] <;> omega
  have hk : isContinuation (UInt8.ofNat (n % 64 + 128)) = true := by
    rw [isContinuation_iff, hc]
    omega
  have hn : ((n / 4096 % 16 + 224) % 16 * 64 + (n / 64 % 64 + 128) % 64) * 64 +
      (n % 64 + 128) % 64 = n := by omega
  rw [pieces_three rest hw hf hk, low, low, ha, hb, hc, hn]

theorem pieces_above_65535 (h1 : 65535 < n) (h2 : n < 0x110000) :
    pieces (UInt8.ofNat (n / 262144 % 8 + 240) :: UInt8.ofNat (n / 4096 % 64 + 128) ::
      UInt8.ofNat (n / 64 % 64 + 128) :: UInt8.ofNat (n % 64 + 128) :: rest) =
      some (Char.ofNat n) :: pieces rest := by
  have ha := toNat_ofNat (show n / 262144 % 8 + 240 < 256 by omega)
  have hb := toNat_ofNat (show n / 4096 % 64 + 128 < 256 by omega)
  have hc := toNat_ofNat (show n / 64 % 64 + 128 < 256 by omega)
  have hd := toNat_ofNat (show n % 64 + 128 < 256 by omega)
  have hw : width (UInt8.ofNat (n / 262144 % 8 + 240)) = 4 := by
    rw [width_eq, ha, if_neg (by omega), if_neg (by omega), if_neg (by omega), if_pos (by omega)]
  have hf : fits (UInt8.ofNat (n / 262144 % 8 + 240))
      (UInt8.ofNat (n / 4096 % 64 + 128)) = true := by
    apply fits_of <;> rw [hb] <;> omega
  have hk : isContinuation (UInt8.ofNat (n / 64 % 64 + 128)) = true := by
    rw [isContinuation_iff, hc]
    omega
  have hl : isContinuation (UInt8.ofNat (n % 64 + 128)) = true := by
    rw [isContinuation_iff, hd]
    omega
  have hn : (((n / 262144 % 8 + 240) % 8 * 64 + (n / 4096 % 64 + 128) % 64) * 64 +
      (n / 64 % 64 + 128) % 64) * 64 + (n % 64 + 128) % 64 = n := by omega
  rw [pieces_four rest hw hf hk hl, low, low, low, ha, hb, hc, hd, hn]

end Widths

theorem pieces_encodeChar (c : Char) (rest : List UInt8) :
    pieces (String.utf8EncodeChar c ++ rest) = some c :: pieces rest := by
  have hv : c.val.toNat < 0xD800 ∨ 0xDFFF < c.val.toNat ∧ c.val.toNat < 0x110000 := toNat_valid c
  have hc : some c = some (Char.ofNat c.val.toNat) := congrArg some (Char.ofNat_toNat c).symm
  rw [hc]
  simp only [String.utf8EncodeChar]
  split
  case isTrue h1 => exact pieces_below_128 rest h1
  case isFalse h1 =>
    split
    case isTrue h2 => exact pieces_below_2048 rest (by omega) h2
    case isFalse h2 =>
      split
      case isTrue h3 => exact pieces_below_65536 rest (by omega) h3 (by omega)
      case isFalse h3 => exact pieces_above_65535 rest (by omega) (by omega)

theorem pieces_encode (text : List Char) : pieces (encode text) = text.map some := by
  induction text with
  | nil => simp [encode, pieces]
  | cons c text ih => rw [encode_cons, pieces_encodeChar, ih, List.map_cons]

theorem decode?_encode (text : List Char) : decode? (encode text) = some text := by
  rw [decode?, pieces_encode]
  induction text with
  | nil => rfl
  | cons c text ih => simp [ih]

theorem decode_encode (text : List Char) : decode (encode text) = text := by
  rw [decode, pieces_encode, List.map_map]
  exact List.map_id text

end Synopsis.Text
