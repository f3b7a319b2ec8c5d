import Synopsis.Text.Utf8

/-!
# Patterns of ignore files

A pattern over the bytes of a path. `?` and `*` do not reach over a separator, `[..]` and `[!..]`
stand for one byte, `{..,..}` for one of several patterns, and a backslash takes what follows it
literally. `**` stands for any number of folders where it is a whole part of the path.
-/

namespace Synopsis.Ignore

inductive Token
  | byte (b : UInt8)
  | any
  | sequence
  /-- nothing, or folders with the separator after them -/
  | leading
  | trailing
  /-- a separator, or folders with a separator on either side -/
  | between
  | list (negated : Bool) (ranges : List (UInt8 × UInt8))
  /-- one of several patterns; none at all stands for nothing -/
  | choice (branches : List (List Token))

/-- A pattern matches a path if its tokens match it from end to end. -/
abbrev Pattern := List Token

def separator : UInt8 := 47

/-- Some end of the text that is not beyond a separator satisfies `k`. -/
def withinPart (k : List UInt8 → Bool) : List UInt8 → Bool
  | [] => k []
  | b :: text => k (b :: text) || (b != separator && withinPart k text)

def afterSeparator (k : List UInt8 → Bool) : List UInt8 → Bool
  | [] => false
  | b :: text => (b == separator && k text) || afterSeparator k text

def anywhere (k : List UInt8 → Bool) : List UInt8 → Bool
  | [] => k []
  | b :: text => k (b :: text) || anywhere k text

mutual

def Token.run : Token → (List UInt8 → Bool) → List UInt8 → Bool
  | .byte c, k, b :: text => b == c && k text
  | .any, k, b :: text => b != separator && k text
  | .list negated ranges, k, b :: text =>
    ranges.any (fun r => r.1 ≤ b && b ≤ r.2) != negated && k text
  | .sequence, k, text => withinPart k text
  | .leading, k, text => k text || afterSeparator k text
  | .trailing, k, b :: text => b == separator && anywhere k text
  | .between, k, b :: text => b == separator && (k text || afterSeparator k text)
  | .choice branches, k, text => (branches.isEmpty && k text) || runAny branches k text
  | _, _, [] => false

def runAll : List Token → (List UInt8 → Bool) → List UInt8 → Bool
  | [], k, text => k text
  | token :: tokens, k, text => token.run (runAll tokens k) text

def runAny : List (List Token) → (List UInt8 → Bool) → List UInt8 → Bool
  | [], _, _ => false
  | tokens :: more, k, text => runAll tokens k text || runAny more k text

end

/-- The pattern matches the path. `**` alone matches every path. -/
def Pattern.accepts : Pattern → List UInt8 → Bool
  | [.leading], _ => true
  | tokens, path => runAll tokens List.isEmpty path

end Synopsis.Ignore
