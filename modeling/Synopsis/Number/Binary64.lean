/-!
# Binary fractions of 53 bits

Nonnegative numbers `m · 2 ^ e` whose `m` has at most 53 bits, with the operations rounded to the
nearest such number and a tie going to the even `m`. The exponents met here stay far inside the
range of the binary interchange format of 64 bits, so these are the operations of that format.
-/

namespace Synopsis.Number

structure Binary64 where
  mantissa : Nat
  exponent : Int
deriving DecidableEq, Repr

/-- The quotient rounded to the nearest integer, a tie to the even one. -/
def roundDiv (num den : Nat) : Nat :=
  let q := num / den
  let twice := 2 * (num % den)
  if twice > den ∨ (twice = den ∧ q % 2 = 1) then q + 1 else q

namespace Binary64

def zero : Binary64 := ⟨0, 0⟩

def scaled (num den : Nat) (e : Int) : Nat × Nat :=
  if 0 ≤ e then (num <<< e.toNat, den) else (num, den <<< (-e).toNat)

def normalize (x : Binary64) : Binary64 :=
  if x.mantissa = 1 <<< 53 then ⟨1 <<< 52, x.exponent + 1⟩ else x

def ofRatio (num den : Nat) : Binary64 :=
  if num = 0 ∨ den = 0 then zero
  else
    let guess : Int := (Nat.log2 num : Int) - (Nat.log2 den : Int) - 52
    let (n, d) := scaled num den (-guess)
    let e := if n / d < 1 <<< 52 then guess - 1 else guess
    let (n, d) := scaled num den (-e)
    normalize ⟨roundDiv n d, e⟩

def ofNat (n : Nat) : Binary64 := ofRatio n 1

def ratio (x : Binary64) : Nat × Nat := scaled x.mantissa 1 x.exponent

def mul (x y : Binary64) : Binary64 :=
  let (a, b) := x.ratio
  let (c, d) := y.ratio
  ofRatio (a * c) (b * d)

def div (x y : Binary64) : Binary64 :=
  let (a, b) := x.ratio
  let (c, d) := y.ratio
  ofRatio (a * d) (b * c)

def bits (x : Binary64) : Nat :=
  if x.mantissa = 0 then 0
  else ((x.exponent + 52 + 1023).toNat <<< 52) + (x.mantissa - (1 <<< 52))

/-- The value with one digit after the point, a tie going to the even digit. -/
def tenths (x : Binary64) : List Char :=
  let (n, d) := x.ratio
  let t := roundDiv (10 * n) d
  Nat.toDigits 10 (t / 10) ++ '.' :: Nat.toDigits 10 (t % 10)

end Binary64
end Synopsis.Number
