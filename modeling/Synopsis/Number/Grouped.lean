/-!
# Numbers in groups of three digits
-/

namespace Synopsis.Number

def groupDigits : List Char → List Char
  | [] => []
  | d :: ds => if ds.length % 3 = 0 ∧ ds ≠ [] then d :: ',' :: groupDigits ds
      else d :: groupDigits ds

def grouped (n : Nat) : List Char := groupDigits (Nat.toDigits 10 n)

end Synopsis.Number
