import Synopsis.Text.Blank

/-!
# Strings in settings

A string stands between double quotes, where a backslash starts an escape, or between single quotes,
where everything is taken as it is. Three quotes on either side let a string go over several lines;
a newline right after the opening quotes does not count. Each reader starts after the opening quotes
and gives the text and what follows the closing quotes.
-/

namespace Synopsis.Toml

def isLineChar (c : Char) : Bool := c == '\t' || (c ≥ ' ' && c != '\x7f')

def hexValue? (c : Char) : Option Nat :=
  if '0' ≤ c ∧ c ≤ '9' then some (c.toNat - '0'.toNat)
  else if 'a' ≤ c ∧ c ≤ 'f' then some (c.toNat - 'a'.toNat + 10)
  else if 'A' ≤ c ∧ c ≤ 'F' then some (c.toNat - 'A'.toNat + 10)
  else none

def hexNumber? (digits : List Char) : Option Nat :=
  digits.foldlM (fun n d => (hexValue? d).map (16 * n + ·)) 0

def codePoint? (digits : List Char) : Option Char :=
  (hexNumber? digits).bind fun n => if n.isValidChar then some (Char.ofNat n) else none

def shortEscape? (c : Char) : Option Char :=
  match c with
  | 'b' => some '\x08'
  | 't' => some '\t'
  | 'n' => some '\n'
  | 'f' => some '\x0c'
  | 'r' => some '\r'
  | '"' => some '"'
  | '\\' => some '\\'
  | _ => none

def prepend (c : Option Char) (read : Option (List Char × List Char)) :
    Option (List Char × List Char) :=
  match c, read with
  | some c, some (text, rest) => some (c :: text, rest)
  | _, _ => none

def basic? : List Char → Option (List Char × List Char)
  | [] => none
  | '"' :: rest => some ([], rest)
  | '\\' :: 'u' :: a :: b :: c :: d :: rest => prepend (codePoint? [a, b, c, d]) (basic? rest)
  | '\\' :: 'U' :: a :: b :: c :: d :: e :: f :: g :: h :: rest =>
    prepend (codePoint? [a, b, c, d, e, f, g, h]) (basic? rest)
  | '\\' :: c :: rest => prepend (shortEscape? c) (basic? rest)
  | c :: rest => prepend (if isLineChar c && c != '\\' then some c else none) (basic? rest)

def endsLine (text : List Char) : Bool :=
  match text.dropWhile Text.isSpaceOrTab with
  | '\n' :: _ => true
  | '\r' :: '\n' :: _ => true
  | _ => false

/-- A string between three double quotes. `skipping` tells that blanks and newlines are left out,
as they are after a backslash at the end of a line. -/
def longBasic? (skipping : Bool) : List Char → Option (List Char × List Char)
  | [] => none
  | '"' :: '"' :: '"' :: '"' :: '"' :: rest => some (['"', '"'], rest)
  | '"' :: '"' :: '"' :: '"' :: rest => some (['"'], rest)
  | '"' :: '"' :: '"' :: rest => some ([], rest)
  | '\r' :: '\n' :: rest =>
    if skipping then longBasic? true rest else prepend (some '\n') (longBasic? false rest)
  | '\n' :: rest =>
    if skipping then longBasic? true rest else prepend (some '\n') (longBasic? false rest)
  | '\\' :: 'u' :: a :: b :: c :: d :: rest =>
    prepend (codePoint? [a, b, c, d]) (longBasic? false rest)
  | '\\' :: 'U' :: a :: b :: c :: d :: e :: f :: g :: h :: rest =>
    prepend (codePoint? [a, b, c, d, e, f, g, h]) (longBasic? false rest)
  | '\\' :: c :: rest =>
    if endsLine (c :: rest) then longBasic? true (c :: rest)
    else prepend (shortEscape? c) (longBasic? false rest)
  | c :: rest =>
    if skipping && Text.isSpaceOrTab c then longBasic? true rest
    else prepend (if isLineChar c && c != '\\' then some c else none) (longBasic? false rest)

def literal? : List Char → Option (List Char × List Char)
  | [] => none
  | '\x27' :: rest => some ([], rest)
  | c :: rest => prepend (if isLineChar c then some c else none) (literal? rest)

def longLiteral? : List Char → Option (List Char × List Char)
  | [] => none
  | '\x27' :: '\x27' :: '\x27' :: '\x27' :: '\x27' :: rest => some (['\x27', '\x27'], rest)
  | '\x27' :: '\x27' :: '\x27' :: '\x27' :: rest => some (['\x27'], rest)
  | '\x27' :: '\x27' :: '\x27' :: rest => some ([], rest)
  | '\r' :: '\n' :: rest => prepend (some '\n') (longLiteral? rest)
  | '\n' :: rest => prepend (some '\n') (longLiteral? rest)
  | c :: rest => prepend (if isLineChar c then some c else none) (longLiteral? rest)

def dropNewline : List Char → List Char
  | '\n' :: rest => rest
  | '\r' :: '\n' :: rest => rest
  | text => text

def string? : List Char → Option (List Char × List Char)
  | '"' :: '"' :: '"' :: rest => longBasic? false (dropNewline rest)
  | '"' :: rest => basic? rest
  | '\x27' :: '\x27' :: '\x27' :: rest => longLiteral? (dropNewline rest)
  | '\x27' :: rest => literal? rest
  | _ => none

end Synopsis.Toml
