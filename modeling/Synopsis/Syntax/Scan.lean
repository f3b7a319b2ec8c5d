/-!
# Scans

A scan looks at the characters ahead and says how many of them it takes, if it takes any. Scans are
the leaves of patterns: names, numbers, operators, the insides of strings.
-/

namespace Synopsis.Syntax.Scan

def startsWith : List Char → List Char → Bool
  | [], _ => true
  | _ :: _, [] => false
  | a :: as, b :: bs => a == b && startsWith as bs

def text (s : List Char) (rest : List Char) : Option Nat :=
  if startsWith s rest then some s.length else none

def countWhile (p : Char → Bool) : List Char → Nat
  | [] => 0
  | c :: rest => if p c then countWhile p rest + 1 else 0

def while1 (p : Char → Bool) (rest : List Char) : Option Nat :=
  match countWhile p rest with
  | 0 => none
  | n => some n

def one (p : Char → Bool) : List Char → Option Nat
  | c :: _ => if p c then some 1 else none
  | [] => none

/-- A letter, an underscore, or any character outside ASCII that is no space. -/
def isNameStart (c : Char) : Bool :=
  c.isAlpha || c == '_' || (0x80 ≤ c.toNat && c.toNat != 0xA0 && c.toNat != 0x3000 &&
    c.toNat != 0x85
    && c.toNat != 0x2028 && c.toNat != 0x2029)

def isNamePart (c : Char) : Bool := isNameStart c || c.isDigit

def isHex (c : Char) : Bool := c.isDigit || ('a' ≤ c && c ≤ 'f') || ('A' ≤ c && c ≤ 'F')

def isOctal (c : Char) : Bool := '0' ≤ c && c ≤ '7'

def isBracket (c : Char) : Bool := ['(', ')', '[', ']', '\x7b', '\x7d'].contains c

def name (rest : List Char) : Option Nat :=
  match rest with
  | c :: _ => if isNameStart c then some (countWhile isNamePart rest) else none
  | [] => none

def word (w : List Char) (rest : List Char) : Option Nat :=
  if startsWith w rest && !(((rest.drop w.length).head?).any isNamePart) then some w.length
  else none

def nameExcept (words : List (List Char)) (rest : List Char) : Option Nat :=
  match name rest with
  | some n => if words.contains (rest.take n) then none else some n
  | none => none

/-- The longest of the given marks that is ahead; the list has longer ones first. -/
def longest (marks : List (List Char)) (rest : List Char) : Option (List Char) :=
  marks.find? (startsWith · rest)

/-- This mark, if it is not the start of a longer one of the list. -/
def mark (marks : List (List Char)) (m : List Char) (rest : List Char) : Option Nat :=
  if startsWith m rest && longest marks rest == some m then some m.length else none

def oneOf (marks chosen : List (List Char)) (rest : List Char) : Option Nat :=
  match longest marks rest with
  | some m => if chosen.contains m then some m.length else none
  | none => none

def between (p : Char → Bool) (low high : Nat) (rest : List Char) : Option Nat :=
  let n := min high (countWhile p rest)
  if low ≤ n then some n else none

def first (scans : List (List Char → Option Nat)) (rest : List Char) : Option Nat :=
  scans.findSome? (· rest)

def most (scans : List (List Char → Option Nat)) (rest : List Char) : Option Nat :=
  (scans.filterMap (· rest)).max?

def andThen (a b : List Char → Option Nat) (rest : List Char) : Option Nat :=
  (a rest).bind fun n => (b (rest.drop n)).map (n + ·)

def through (stop : List Char) : List Char → Option Nat
  | [] => none
  | c :: rest =>
    if startsWith stop (c :: rest) then some stop.length else (through stop rest).map (· + 1)

def restOfLine (rest : List Char) : Nat := countWhile (· != '\n') rest

end Synopsis.Syntax.Scan
