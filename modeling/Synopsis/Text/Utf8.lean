/-!
# UTF-8

Encoding a text as bytes, and reading bytes back. Bytes that are no UTF-8 are read in pieces: each
piece is a character or a broken stretch, and a broken stretch is as long as it can be while it
still starts some character.
-/

namespace Synopsis.Text

def encode (text : List Char) : List UInt8 := text.flatMap String.utf8EncodeChar

def byteLength (text : List Char) : Nat := text.foldr (fun c n => c.utf8Size + n) 0

def replacement : Char := Char.ofNat 0xFFFD

def isContinuation (b : UInt8) : Bool := 0x80 ≤ b && b ≤ 0xBF

def width (b : UInt8) : Nat :=
  if b < 0x80 then 1
  else if 0xC2 ≤ b && b ≤ 0xDF then 2
  else if 0xE0 ≤ b && b ≤ 0xEF then 3
  else if 0xF0 ≤ b && b ≤ 0xF4 then 4
  else 0

/-- The second byte keeps the character in the shortest form, below the limit and no surrogate. -/
def fits (first second : UInt8) : Bool :=
  if first == 0xE0 then 0xA0 ≤ second && second ≤ 0xBF
  else if first == 0xED then 0x80 ≤ second && second ≤ 0x9F
  else if first == 0xF0 then 0x90 ≤ second && second ≤ 0xBF
  else if first == 0xF4 then 0x80 ≤ second && second ≤ 0x8F
  else isContinuation second

def low (b : UInt8) : Nat := b.toNat % 64

/-- Reads bytes in pieces; `none` is a broken stretch. -/
def pieces : List UInt8 → List (Option Char)
  | [] => []
  | a :: rest =>
    match width a with
    | 1 => some (Char.ofNat a.toNat) :: pieces rest
    | 2 =>
      match rest with
      | b :: rest =>
        if fits a b then some (Char.ofNat (a.toNat % 32 * 64 + low b)) :: pieces rest
        else none :: pieces (b :: rest)
      | [] => [none]
    | 3 =>
      match rest with
      | b :: rest =>
        if fits a b then
          match rest with
          | c :: rest =>
            if isContinuation c then
              some (Char.ofNat ((a.toNat % 16 * 64 + low b) * 64 + low c)) :: pieces rest
            else none :: pieces (c :: rest)
          | [] => [none]
        else none :: pieces (b :: rest)
      | [] => [none]
    | 4 =>
      match rest with
      | b :: rest =>
        if fits a b then
          match rest with
          | c :: rest =>
            if isContinuation c then
              match rest with
              | d :: rest =>
                if isContinuation d then
                  some (Char.ofNat (((a.toNat % 8 * 64 + low b) * 64 + low c) * 64 + low d)) ::
                    pieces rest
                else none :: pieces (d :: rest)
              | [] => [none]
            else none :: pieces (c :: rest)
          | [] => [none]
        else none :: pieces (b :: rest)
      | [] => [none]
    | _ => none :: pieces rest

def decode? (bytes : List UInt8) : Option (List Char) := (pieces bytes).mapM id

def decode (bytes : List UInt8) : List Char := (pieces bytes).map (·.getD replacement)

end Synopsis.Text
