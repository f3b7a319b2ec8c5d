import Synopsis.Text.Path

/-!
# Exclude patterns

A pattern over paths. `?` stands for any character, `*` for any text, `[..]` for a character of a
list and `[!..]` for one outside it; none of them stops at a `/`. `**` has to be a whole part of the
path and stands for any number of parts. Letters match in either case.
-/

namespace Synopsis.Exclude

inductive Item
  | single (c : Char)
  | range (first last : Char)
deriving DecidableEq, Repr

inductive Token
  | char (c : Char)
  | any
  | within (items : List Item)
  | without (items : List Item)
  | sequence
  /-- any number of parts, each with its separator, or all that is left -/
  | parts
deriving DecidableEq, Repr

/-- A pattern matches a path if its tokens match it from end to end. -/
abbrev Pattern := List Token

inductive Fault
  | tooManyStars
  | brokenPart
  | badList
deriving DecidableEq, Repr

structure PatternError where
  position : Nat
  fault : Fault
deriving DecidableEq, Repr

def Fault.message : Fault → String
  | tooManyStars => "wildcards are either regular `*` or recursive `**`"
  | brokenPart => "recursive wildcards must form a single path component"
  | badList => "invalid range pattern"

def PatternError.message (e : PatternError) : List Char :=
  "Pattern syntax error near position ".toList ++ Nat.toDigits 10 e.position ++ ": ".toList ++
    e.fault.message.toList

def items : List Char → List Item
  | first :: '-' :: last :: rest => .range first last :: items rest
  | c :: rest => .single c :: items rest
  | [] => []

/-- The list that starts here, up to its bracket, and what follows. Its first character is taken as
it is, also if it is a bracket. -/
def list? : List Char → Option (Token × List Char)
  | '!' :: c :: rest =>
    match rest.dropWhile (· != ']') with
    | _ :: after => some (.without (items (c :: rest.takeWhile (· != ']'))), after)
    | [] => none
  | '!' :: [] => none
  | c :: rest =>
    match rest.dropWhile (· != ']') with
    | _ :: after => some (.within (items (c :: rest.takeWhile (· != ']'))), after)
    | [] => none
  | [] => none

theorem list?_shorter {text : List Char} {t : Token} {rest : List Char}
    (h : list? text = some (t, rest)) : rest.length < text.length := by
  have shorter (r : List Char) (a : Char) (after : List Char)
      (hd : r.dropWhile (· != ']') = a :: after) : after.length < r.length := by
    have := (List.dropWhile_suffix (· != ']') (l := r)).length_le
    rw [hd, List.length_cons] at this
    omega
  unfold list? at h
  split at h
  · split at h
    · next hd =>
      have := shorter _ _ _ hd
      simp at h
      simp [← h.2]
      omega
    · simp at h
  · simp at h
  · split at h
    · next hd =>
      have := shorter _ _ _ hd
      simp at h
      simp [← h.2]
      omega
    · simp at h
  · simp at h

/-- Reads the pattern from a position on. `fresh` tells that a part of the path starts here. -/
def read (position : Nat) (fresh : Bool) (text : List Char) : Except PatternError Pattern :=
  match text with
  | [] => .ok []
  | '?' :: rest => do .ok (.any :: (← read (position + 1) false rest))
  | '*' :: '*' :: '*' :: _ => .error ⟨position + 2, .tooManyStars⟩
  | '*' :: '*' :: rest =>
    if fresh then
      match rest with
      | [] => .ok [.parts]
      | '/' :: rest => do .ok (.parts :: (← read (position + 3) true rest))
      | _ => .error ⟨position + 2, .brokenPart⟩
    else .error ⟨position - 1, .brokenPart⟩
  | '*' :: rest => do .ok (.sequence :: (← read (position + 1) false rest))
  | '[' :: rest =>
    match h : list? rest with
    | some (token, after) => do
      have := list?_shorter h
      .ok (token :: (← read (position + 1 + (rest.length - after.length)) false after))
    | none => .error ⟨position, .badList⟩
  | c :: rest => do .ok (.char c :: (← read (position + 1) (c == '/') rest))
termination_by text.length

def Pattern.ofText (text : List Char) : Except PatternError Pattern := read 0 true text

/-- The entry holds the character. In a range from letter to letter the case does not count. -/
def Item.holds (c : Char) : Item → Bool
  | single d => c.toLower == d.toLower
  | range first last =>
    (first ≤ c && c ≤ last) ||
      (first.isAlpha && last.isAlpha && first.toLower ≤ c.toLower && c.toLower ≤ last.toLower)

def Token.admits (c : Char) : Token → Bool
  | char d => c.toLower == d.toLower
  | any => true
  | within items => items.any (Item.holds c)
  | without items => !items.any (Item.holds c)
  | sequence | parts => false

def someEnd (p : List Char → Bool) : List Char → Bool
  | [] => p []
  | c :: text => p (c :: text) || someEnd p text

def somePart (p : List Char → Bool) : Bool → List Char → Bool
  | _, [] => p []
  | fresh, c :: text => (fresh && p (c :: text)) || somePart p (c == '/') text

def Pattern.accepts : Pattern → List Char → Bool
  | [], text => text.isEmpty
  | .sequence :: tokens, text => someEnd (Pattern.accepts tokens) text
  | .parts :: tokens, text => somePart (Pattern.accepts tokens) true text
  | _ :: _, [] => false
  | token :: tokens, c :: text => token.admits c && Pattern.accepts tokens text

def excludes (patterns : List Pattern) (path : List Char) : Bool :=
  patterns.any fun p => p.accepts path || (Path.fileName? path).any p.accepts

end Synopsis.Exclude
