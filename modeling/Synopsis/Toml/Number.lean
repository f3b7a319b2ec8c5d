import Synopsis.Toml.Quoted

/-!
# Integers in settings

Decimal digits with an optional sign and no leading zero, or digits of another base after `0x`, `0o`
or `0b`. A single underscore may stand between two digits. Integers have 64 bits.
-/

namespace Synopsis.Toml

def digits? (isDigit : Char → Bool) : List Char → Option (List Char)
  | [] => none
  | [d] => if isDigit d then some [d] else none
  | d :: '_' :: rest => if isDigit d then (digits? isDigit rest).map (d :: ·) else none
  | d :: rest => if isDigit d then (digits? isDigit rest).map (d :: ·) else none

def number? (base : Nat) (text : List Char) : Option Nat :=
  (digits? (fun c => (hexValue? c).any (· < base)) text).bind fun digits =>
    digits.foldlM (fun n d => (hexValue? d).map (base * n + ·)) 0

def decimal? : List Char → Option Nat
  | ['0'] => some 0
  | '0' :: _ => none
  | text => number? 10 text

def anyInteger? : List Char → Option Int
  | '0' :: 'x' :: rest => (number? 16 rest).map Int.ofNat
  | '0' :: 'o' :: rest => (number? 8 rest).map Int.ofNat
  | '0' :: 'b' :: rest => (number? 2 rest).map Int.ofNat
  | '+' :: rest => (decimal? rest).map Int.ofNat
  | '-' :: rest => (decimal? rest).map fun n => -Int.ofNat n
  | text => (decimal? text).map Int.ofNat

def integer? (text : List Char) : Option Int :=
  (anyInteger? text).bind fun n =>
    if Int64.minValue.toInt ≤ n ∧ n ≤ Int64.maxValue.toInt then some n else none

end Synopsis.Toml
