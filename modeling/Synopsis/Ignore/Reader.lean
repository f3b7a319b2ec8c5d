import Synopsis.Ignore.Pattern

/-!
# Reading the patterns of ignore files

The reader keeps the tokens of the branch it is in, last token first, and for every open brace the
tokens before it and the branches that are finished.
-/

namespace Synopsis.Ignore

structure Frame where
  /-- the tokens before the brace, last token first -/
  outer : List Token
  branches : List Pattern

structure Reader where
  frames : List Frame
  /-- the tokens of this branch, last token first -/
  tokens : List Token
  before : Option Char
  /-- a bracket is an ordinary character, since one before had no end -/
  plainBrackets : Bool

namespace Reader

def start : Reader := ⟨[], [], none, false⟩

def push (r : Reader) (token : Token) (c : Char) : Reader :=
  { r with tokens := token :: r.tokens, before := some c }

def literal (r : Reader) (c : Char) : Reader :=
  { r with
    tokens := ((Text.encode [c]).map Token.byte).reverse ++ r.tokens
    before := some c }

/-- The pattern stands for nothing, because it holds choices of nothing at most. -/
def isVoid (tokens : Pattern) : Bool :=
  tokens.all fun t =>
    match t with
    | .choice [] => true
    | _ => false

def openBrace (r : Reader) : Reader :=
  { r with frames := ⟨r.tokens, []⟩ :: r.frames, tokens := [], before := some '\x7b' }

def closeBrace? (r : Reader) : Option Reader :=
  match r.frames with
  | [] => none
  | f :: frames =>
    let branches := (r.tokens.reverse :: f.branches).reverse.filter (!isVoid ·)
    some { r with frames := frames, tokens := .choice branches :: f.outer, before := some '\x7d' }

def comma (r : Reader) : Reader :=
  match r.frames with
  | [] => r.literal ','
  | f :: frames =>
    { r with
      frames := { f with branches := r.tokens.reverse :: f.branches } :: frames
      tokens := [], before := some ',' }

def plainStars (r : Reader) : Reader := (r.push .sequence '*').push .sequence '*'

def pushFolders (r : Reader) (token : Token) (c : Char) : Reader :=
  match r.tokens with
  | .leading :: _ | .trailing :: _ => { r with before := some c }
  | _ => { r with tokens := token :: r.tokens.tail, before := some c }

/-- Two stars, given what follows them; what is still to be read comes back. -/
def stars (r : Reader) (rest : List Char) : Reader × List Char :=
  if r.tokens.isEmpty then
    match rest with
    | [] => (r.push .leading '*', [])
    | '/' :: rest => (r.push .leading '/', rest)
    | _ => (r.plainStars, rest)
  else if r.before != some '/' then (r.plainStars, rest)
  else
    match rest with
    | [] => (r.pushFolders .trailing '*', [])
    | '/' :: rest => (r.pushFolders .between '/', rest)
    | c :: _ =>
      if (c == ',' || c == '\x7d') && !r.frames.isEmpty then (r.pushFolders .trailing '*', rest)
      else (r.plainStars, rest)

theorem stars_length (r : Reader) (rest : List Char) : (r.stars rest).2.length ≤ rest.length := by
  unfold stars
  split
  · split <;> simp
  · split
    · simp
    · split
      · simp
      · simp
      · split <;> simp

inductive Bracket
  | closed (ranges : List (Char × Char)) (rest : List Char)
  | unclosed
  | backwards

/-- Reads the entries of a list. `first` tells that none was read yet, `pending` that the last one
starts a range. -/
def bracket (first pending : Bool) (ranges : List (Char × Char)) : List Char → Bracket
  | [] => .unclosed
  | c :: rest =>
    if c = ']' ∧ !first then
      .closed (if pending then ('-', '-') :: ranges else ranges) rest
    else if c = '-' ∧ !first ∧ !pending then bracket false true ranges rest
    else if pending then
      match ranges with
      | (low, _) :: more =>
        if c < low then .backwards else bracket false false ((low, c) :: more) rest
      | [] => bracket false false [(c, c)] rest
    else bracket false false ((c, c) :: ranges) rest

theorem bracket_shorter {first pending : Bool} {ranges found : List (Char × Char)}
    {text rest : List Char} (h : bracket first pending ranges text = .closed found rest) :
    rest.length < text.length := by
  induction text generalizing first pending ranges with
  | nil => simp [bracket] at h
  | cons c text ih =>
    unfold bracket at h
    split at h
    · simp at h
      simp [h.2]
    · split at h
      · exact Nat.lt_succ_of_lt (ih h)
      · split at h
        · split at h
          · split at h
            · simp at h
            · exact Nat.lt_succ_of_lt (ih h)
          · exact Nat.lt_succ_of_lt (ih h)
        · exact Nat.lt_succ_of_lt (ih h)

/-- The byte ranges of an entry: every byte of its ends on its own, but the bytes where the two ends
meet span a range. -/
def byteRanges (entry : Char × Char) : List (UInt8 × UInt8) :=
  let single (b : UInt8) := (b, b)
  let low := Text.encode [entry.1]
  if entry.1 = entry.2 then low.map single
  else
    match low.getLast?, Text.encode [entry.2] with
    | some a, b :: more => low.dropLast.map single ++ (a, b) :: more.map single
    | _, _ => []

/-- A bracketed list, given what follows the bracket: the token and the rest, `none` for a list
without end, or an error. -/
def listToken (text : List Char) : Except Unit (Option (Token × List Char)) :=
  let negated := text.head? == some '!' || text.head? == some '^'
  match bracket true false [] (if negated then text.tail else text) with
  | .closed ranges rest => .ok (some (.list negated (ranges.reverse.flatMap byteRanges), rest))
  | .unclosed => .ok none
  | .backwards => .error ()

theorem listToken_shorter {text : List Char} {token : Token} {rest : List Char}
    (h : listToken text = .ok (some (token, rest))) : rest.length < text.length := by
  unfold listToken at h
  simp only at h
  split at h
  · next hb =>
    have := bracket_shorter hb
    simp at h
    rw [← h.2]
    split at this
    · rw [List.length_tail] at this
      omega
    · exact this
  · simp at h
  · simp at h

def read? (r : Reader) (text : List Char) : Option Pattern :=
  match text with
  | [] => if r.frames.isEmpty then some r.tokens.reverse else none
  | '?' :: rest => read? (r.push .any '?') rest
  | '*' :: '*' :: rest =>
    have := stars_length r rest
    read? (r.stars rest).1 (r.stars rest).2
  | '*' :: rest => read? (r.push .sequence '*') rest
  | '[' :: rest =>
    if r.plainBrackets then read? (r.literal '[') rest
    else
      match h : listToken rest with
      | .ok (some (token, after)) =>
        have := listToken_shorter h
        read? (r.push token ']') after
      | .ok none => read? { r.literal '[' with plainBrackets := true } rest
      | .error () => none
  | '\x7b' :: rest => read? r.openBrace rest
  | '\x7d' :: rest => r.closeBrace?.bind (read? · rest)
  | ',' :: rest => read? r.comma rest
  | '\\' :: c :: rest => read? (r.literal c) rest
  | '\\' :: [] => none
  | c :: rest => read? (r.literal c) rest
termination_by text.length

end Reader

/-- Reads a pattern; `none` if a brace or an escape has no end, a brace no start, or a range runs
backwards. -/
def Pattern.ofText? (text : List Char) : Option Pattern := Reader.start.read? text

end Synopsis.Ignore
