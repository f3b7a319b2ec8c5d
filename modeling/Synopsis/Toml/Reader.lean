import Synopsis.Toml.Number

/-!
# Reading settings

A text of settings holds one on every line, a key and a value with an equals sign between them, and
comments. Of the values there are strings, integers, booleans, lists and tables in braces; numbers
with a fraction, dates, and tables over several lines do not occur in settings and are not read.
-/

namespace Synopsis.Toml

inductive Value
  | string (text : List Char)
  | integer (n : Int)
  | boolean (b : Bool)
  | array (values : List Value)
  | table (fields : List (List Char × Value))

def skipBlanks (text : List Char) : List Char := text.dropWhile Text.isSpaceOrTab

def skipComment : List Char → List Char
  | '#' :: rest => rest.dropWhile isLineChar
  | text => text

def lineEnd? (text : List Char) : Option (List Char) :=
  match skipComment (skipBlanks text) with
  | [] => some []
  | '\n' :: rest => some rest
  | '\r' :: '\n' :: rest => some rest
  | _ => none

def skipLines : Nat → List Char → List Char
  | 0, text => text
  | fuel + 1, text =>
    match lineEnd? text with
    | some rest => if rest.isEmpty then [] else skipLines fuel rest
    | none => skipBlanks text

def isKeyChar (c : Char) : Bool := c.isAlphanum || c == '_' || c == '-'

def key? (text : List Char) : Option (List Char × List Char) :=
  match text with
  | '"' :: '"' :: '"' :: _ => none
  | '\x27' :: '\x27' :: '\x27' :: _ => none
  | '"' :: _ | '\x27' :: _ => string? text
  | _ =>
    let name := text.takeWhile isKeyChar
    if name.isEmpty then none else some (name, text.drop name.length)

def equals? (text : List Char) : Option (List Char) :=
  match skipBlanks text with
  | '=' :: rest => some (skipBlanks rest)
  | _ => none

def isWordChar (c : Char) : Bool :=
  c.isAlphanum || c == '_' || c == '+' || c == '-' || c == '.' || c == ':'

def word? (text : List Char) : Option (Value × List Char) :=
  let word := text.takeWhile isWordChar
  let rest := text.drop word.length
  if word = "true".toList then some (.boolean true, rest)
  else if word = "false".toList then some (.boolean false, rest)
  else (integer? word).map fun n => (.integer n, rest)

mutual

def value? : Nat → List Char → Option (Value × List Char)
  | 0, _ => none
  | fuel + 1, text =>
    match text with
    | '[' :: rest => (elements? fuel rest).map fun r => (.array r.1, r.2)
    | '\x7b' :: rest =>
      match skipBlanks rest with
      | '\x7d' :: rest => some (.table [], rest)
      | rest => (fields? fuel rest).map fun r => (.table r.1, r.2)
    | '"' :: _ | '\x27' :: _ => (string? text).map fun r => (.string r.1, r.2)
    | _ => word? text

def elements? : Nat → List Char → Option (List Value × List Char)
  | 0, _ => none
  | fuel + 1, text =>
    match skipLines text.length text with
    | ']' :: rest => some ([], rest)
    | text => do
      let (value, rest) ← value? fuel text
      match skipLines rest.length rest with
      | ']' :: rest => some ([value], rest)
      | ',' :: rest => do
        let (values, rest) ← elements? fuel rest
        some (value :: values, rest)
      | _ => none

def fields? : Nat → List Char → Option (List (List Char × Value) × List Char)
  | 0, _ => none
  | fuel + 1, text => do
    let (key, rest) ← key? (skipBlanks text)
    let (value, rest) ← (equals? rest).bind (value? fuel)
    match skipBlanks rest with
    | '\x7d' :: rest => some ([(key, value)], rest)
    | ',' :: rest => do
      let (fields, rest) ← fields? fuel rest
      if fields.any (·.1 == key) then none else some ((key, value) :: fields, rest)
    | _ => none

end

def settings? : Nat → List Char → Option (List (List Char × Value))
  | 0, _ => none
  | fuel + 1, text =>
    match skipLines text.length text with
    | [] => some []
    | text => do
      let (key, rest) ← key? text
      let (value, rest) ← (equals? rest).bind fun rest => value? rest.length rest
      let rest ← lineEnd? rest
      let settings ← settings? fuel rest
      if settings.any (·.1 == key) then none else some ((key, value) :: settings)

def dropMark : List Char → List Char
  | c :: text => if c = Char.ofNat 0xFEFF then text else c :: text
  | [] => []

def read? (text : List Char) : Option (List (List Char × Value)) :=
  let text := dropMark text
  settings? (text.length + 1) text

end Synopsis.Toml
