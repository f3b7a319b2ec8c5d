import Synopsis.Plan
import Synopsis.Text.Blank
import Synopsis.Text.Utf8

/-!
# Making cuts

Cuts are made in the bytes of a text: what lies between them is copied, each cut is replaced by its
marker, and the result is trimmed.
-/

namespace Synopsis.Splice

/-- The bytes from `lo` to `hi`; none if these are out of order or out of range. -/
def between (bytes : List UInt8) (lo hi : Nat) : List UInt8 :=
  if lo ≤ hi ∧ hi ≤ bytes.length then (bytes.drop lo).take (hi - lo) else []

def bytesFrom (bytes : List UInt8) : Nat → List Cut → List UInt8
  | pos, [] => bytes.drop pos
  | pos, c :: cs =>
    between bytes pos c.span.start ++ Text.encode c.marker ++
      bytesFrom bytes (max pos c.span.stop) cs

def apply (text : List Char) (cuts : List Cut) : List Char :=
  Text.trim (Text.decode (bytesFrom (Text.encode text) 0 cuts))

end Synopsis.Splice
