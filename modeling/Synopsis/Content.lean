import Synopsis.Text.Utf8

/-!
# What the bytes of a file hold
-/

namespace Synopsis

inductive Rejection
  | binary
  | notUtf8
deriving DecidableEq, Repr

def Rejection.message : Rejection → String
  | binary => "binary content"
  | notUtf8 => "not valid UTF-8"

namespace Content

def sampleSize : Nat := 8192

/-- The text of a file. A zero byte near the start marks a file that holds none. -/
def text (bytes : List UInt8) : Except Rejection (List Char) :=
  if (bytes.take sampleSize).contains 0 then .error .binary
  else
    match Text.decode? bytes with
    | some text => .ok text
    | none => .error .notUtf8

end Content
end Synopsis
