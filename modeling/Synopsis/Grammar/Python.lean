import Synopsis.Syntax.Pattern
import Synopsis.Syntax.Scan
import Synopsis.Text.Blank

/-!
# The grammar of Python

A text is a list of logical lines. A function header is recognised at the start of a line, and its
body is what follows the colon on the same line, or the lines below it that are indented further.
All other lines are read as sequences of strings, brackets and other tokens; whether they are
indented deeper than the line before them makes no difference to a synopsis.

Comments after the last line of a body belong to the body as long as they are indented as far as its
first line.
-/

namespace Synopsis.Grammar.Python

open Synopsis.Syntax

structure Quotes where
  mark : Char
  triple : Bool
  raw : Bool
  bytes : Bool
  format : Bool
deriving DecidableEq, Repr

inductive Rule
  | file
  /-- the lines indented at least this far -/
  | lines (indent : Nat)
  /-- a line with this indentation -/
  | line (indent : Nat)
  /-- what follows the colon of a header with this indentation -/
  | suite (indent : Nat)
  | body (indent : Nat)
  | trailing
  | statements
  | statement
  | element
  | inner
  | strings
  | string (lead : Nat) (quotes : Quotes)
  | interpolation
deriving DecidableEq

abbrev P := Pattern Rule

open Pattern

/-- What lies between a token and the next one that stands on another line. -/
structure Ahead where
  length : Nat
  /-- the indentation of the next token's line; a tab counts as eight columns -/
  indent : Nat
  /-- the indentation of the first comment, and the characters before it -/
  comment : Option (Nat × Nat)
  atEnd : Bool

def ahead (rest : List Char) : Ahead :=
  go 0 0 none false rest
where
  go (n indent : Nat) (comment : Option (Nat × Nat)) (inComment : Bool) : List Char → Ahead
    | [] => ⟨n, 0, comment, true⟩
    | c :: rest =>
      if inComment then
        if c = '\n' then go (n + 1) 0 comment false rest else go (n + 1) indent comment true rest
      else if c = ' ' then go (n + 1) (indent + 1) comment false rest
      else if c = '\t' then go (n + 1) (indent + 8) comment false rest
      else if c = '\n' ∨ c = '\r' ∨ c = '\x0c' then go (n + 1) 0 comment false rest
      else if c = '#' then go (n + 1) indent (comment.or (some (indent, n))) true rest
      else
        match c, rest with
        | '\\', '\n' :: rest => go (n + 2) indent comment false rest
        | '\\', '\r' :: '\n' :: rest => go (n + 3) indent comment false rest
        | _, _ => ⟨n, indent, comment, false⟩

def isSpace (c : Char) : Bool :=
  Text.isBlank c || c.toNat == 0x2060 || c.toNat == 0x200B || c.toNat == 0xFEFF

def blankInLine : List Char → Nat
  | '\\' :: '\n' :: rest => 2 + blankInLine rest
  | '\\' :: '\r' :: '\n' :: rest => 3 + blankInLine rest
  | c :: rest => if c != '\n' && isSpace c then 1 + blankInLine rest else 0
  | [] => 0

def blankInside (inComment : Bool) : List Char → Nat
  | [] => 0
  | c :: rest =>
    if inComment then 1 + blankInside (c != '\n') rest
    else if isSpace c then 1 + blankInside false rest
    else if c = '#' then 1 + blankInside true rest
    else
      match c, rest with
      | '\\', '\n' :: rest => 2 + blankInside false rest
      | '\\', '\r' :: '\n' :: rest => 3 + blankInside false rest
      | _, _ => 0

def gap : P := skip blankInLine
def gapInside : P := skip (blankInside false)
def mark (c : Char) : P := seq gap (take (Scan.text [c]))
def word (w : String) : P := seq gap (take (Scan.word w.toList))

def comment : P := take fun rest =>
  if rest.head? == some '#' then some (Scan.restOfLine rest) else none

def isStringMark (c : Char) : Bool := "fFrRbBuU".toList.contains c

def stringAhead (rest : List Char) : Option Rule :=
  let lead := Scan.countWhile isStringMark rest
  let marks := rest.take lead
  let has (c : Char) : Bool := marks.any fun m => m.toLower == c
  match rest.drop lead with
  | q :: more =>
    if q == '"' || q == '\'' then
      some (.string lead ⟨q, Scan.startsWith [q, q] more, has 'r', has 'b', has 'f'⟩)
    else if q == '\x60' then some (.string lead ⟨q, false, has 'r', has 'b', has 'f'⟩)
    else none
  | [] => none

def delimiter (q : Quotes) : List Char := if q.triple then [q.mark, q.mark, q.mark] else [q.mark]

def escape (bytes : Bool) : List Char → Option Nat :=
  Scan.andThen (Scan.one (· == '\\')) (Scan.first [
    if bytes then fun _ => none
    else Scan.first [
      Scan.andThen (Scan.one (· == 'u')) (Scan.between Scan.isHex 4 4),
      Scan.andThen (Scan.one (· == 'U')) (Scan.between Scan.isHex 8 8),
      Scan.andThen (Scan.text ['N', '{']) (Scan.andThen (Scan.while1 (· != '}'))
        (Scan.text ['}']))],
    Scan.andThen (Scan.one (· == 'x')) (Scan.between Scan.isHex 2 2),
    Scan.between Char.isDigit 1 3,
    Scan.text ['\r', '\n'],
    Scan.one ("\n'\"abfrntv\\".toList.contains)])

/-- A backslash in a raw string, with the character that it keeps from having a meaning. -/
def rawPair (q : Quotes) : List Char → Option Nat
  | '\\' :: '\\' :: _ => some 2
  | '\\' :: c :: _ => some (if c == q.mark || c == '\n' then 2 else 1)
  | '\\' :: [] => some 1
  | _ => none

def plain (q : Quotes) : List Char → Option Nat
  | [] => none
  | c :: rest =>
    if Scan.startsWith (delimiter q) (c :: rest) then none
    else if c == '\n' && !q.triple then none
    else if q.format && (c == '{' || c == '}') then none
    else if c == '\\' then some 1
    else some (1 + Scan.countWhile (fun d => d != q.mark && d != '\\' && d != '\n' && d != '{' &&
      d != '}') rest)

def content (q : Quotes) : P :=
  any [
    if q.raw then take (rawPair q) else node .escape (take (escape q.bytes)),
    if q.format then any [
      node .braceEscape (take (Scan.first [Scan.text ['{', '{'], Scan.text ['}', '}']])),
      node .interpolation (rule .interpolation),
      node .error (take (Scan.one fun c => c == '{' || c == '}'))] else refuse nothing,
    take (plain q)]

def plainToken (closing : List Char) : List Char → Option Nat
  | [] => none
  | c :: rest =>
    if Scan.isNamePart c then some (Scan.countWhile Scan.isNamePart (c :: rest))
    else if c == '\n' || closing.contains c then none
    else some 1

def brackets (opening closing : Char) : P :=
  all [take (Scan.text [opening]), many (seq gapInside (rule .inner)), gapInside,
    take (Scan.text [closing])]

def anyBrackets : P := any [brackets '(' ')', brackets '[' ']', brackets '{' '}']

/-- The names that follow a `def`, and a parameter list. One that is not closed before the colon is
taken to be empty. -/
def signature : P := all [
  gap, take Scan.name, opt (seq gap (brackets '[' ']')),
  either (seq gap (brackets '(' ')')) (seq (mark '(') (Pattern.ahead (mark ':'))),
  opt (all [gap, take (Scan.text ['-', '>']),
    many (seq gap (any [given stringAhead, anyBrackets, take (plainToken [':', ';', '#'])]))])]

def grammar : Rule → P
  | .file => all [rule (.lines 0), skip fun rest => (ahead rest).length]
  | .lines indent => many (given fun rest =>
      let a := ahead rest
      if !a.atEnd && indent ≤ a.indent then some (.line a.indent) else none)
  | .line indent => seq (skip fun rest => (ahead rest).length) (any [
      node .function (all [opt (word "async"), word "def", signature, gap,
        node (.token ":") (take (Scan.text [':'])),
        rule (.suite indent)]),
      seq (rule .statements) (opt (seq gap comment)),
      node .error (take (Scan.while1 (· != '\n')))])
  | .suite indent => any [
      all [gap, refuse (take (Scan.one fun c => c == '\n' || c == '#')), refuse atEnd,
        node .block (seq (rule .statements) (opt (seq gap comment)))],
      seq (opt (seq gap comment)) (given fun rest =>
        let a := ahead rest
        if !a.atEnd && indent < a.indent then some (.body a.indent) else none),
      node .block nothing]
  | .body indent => seq (skip fun rest => (ahead rest).length) (node .block (all [
      rule (.line indent), rule (.lines indent), many (given fun rest =>
        match (ahead rest).comment with
        | some (column, _) => if indent ≤ column then some .trailing else none
        | none => none)]))
  | .trailing => seq (skip fun rest => ((ahead rest).comment.map Prod.snd).getD 0)
      (node .comment comment)
  | .statements => seq (sep1 (rule .statement) (mark ';')) (opt (mark ';'))
  | .statement => seq gap (either
      (node .expressionStatement (all [rule .strings, opt (mark ','), Pattern.ahead (seq gap (any [
        take (Scan.one fun c => c == '\n' || c == '#' || c == ';'), atEnd]))]))
      (node .statement (some1 (seq gap (rule .element)))))
  | .element => any [given stringAhead, anyBrackets, take (plainToken [';', '#'])]
  | .inner => any [given stringAhead, anyBrackets, take (plainToken ['(', ')', '[', ']', '{', '}'])]
  | .strings => either
      (node .concatenation (seq (given stringAhead) (some1 (seq gap (given stringAhead)))))
      (given stringAhead)
  | .string lead quotes => node .string (all [
      node .stringStart (take fun _ => some (lead + (delimiter quotes).length)),
      many (content quotes),
      node .stringEnd (take (Scan.text (delimiter quotes)))])
  | .interpolation => all [take (Scan.text ['{']),
      many (seq gapInside (any [given stringAhead, anyBrackets, take (Scan.text ['!', '=']),
        take (plainToken ['{', '}', ':', '(', ')', '[', ']'])])),
      opt (seq gapInside (seq (take (Scan.text [':'])) (many (any [
        node .interpolation (rule .interpolation),
        take (Scan.while1 fun c => c != '{' && c != '}' && c != '\n')])))),
      gapInside, take (Scan.text ['}'])]

def tree (text : List Char) : Tree :=
  match Grammar.tree? grammar .asIs .file text with
  | .ok t => t
  | .error _ => .node .file ⟨0, 0⟩ false []

end Synopsis.Grammar.Python
