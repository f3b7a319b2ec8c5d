import Synopsis.Ignore.Reader
import Synopsis.Text.Blank

/-!
# Rules of ignore files

A rule is a line of an ignore file. Paths are given relative to the folder that the rules are about;
of the rules that match a path, the last one decides.
-/

namespace Synopsis.Ignore

inductive Verdict
  | ignore
  | keep
deriving DecidableEq, Repr

structure Rule where
  pattern : Pattern
  verdict : Verdict
  foldersOnly : Bool

namespace Rule

/-- A line without blanks at its end, unless the last one is escaped. -/
def trimLine (line : List Char) : List Char :=
  if [' ', '\\'].isPrefixOf line.reverse then line else Text.dropEndWhile Text.isBlank line

/-- The pattern that a line stands for. One without a separator matches at any depth, and one that
ends in `/**` what is inside a folder but not the folder. -/
def expand (anchored : Bool) (text : List Char) : List Char :=
  let text :=
    if anchored || text.contains '/' || text == ['*', '*'] then text else ['*', '*', '/'] ++ text
  if ['*', '*', '/'].isPrefixOf text.reverse then text ++ ['/', '*'] else text

def folderMark (text : List Char) : Bool × List Char :=
  match text.reverse with
  | '/' :: '\\' :: rest => (true, rest.reverse)
  | '/' :: rest => (true, rest.reverse)
  | _ => (false, text)

def ofPattern? (verdict : Verdict) (anchored : Bool) (text : List Char) : Option Rule :=
  let (foldersOnly, text) := folderMark text
  (Pattern.ofText? (expand anchored text)).map fun pattern => ⟨pattern, verdict, foldersOnly⟩

def ofAnchored? (verdict : Verdict) : List Char → Option Rule
  | '/' :: text => ofPattern? verdict true text
  | text => ofPattern? verdict false text

def ofLine? (line : List Char) : Option Rule :=
  if line.head? == some '#' then none
  else
    match trimLine line with
    | [] => none
    | '\\' :: '!' :: text => ofPattern? .ignore false ('!' :: text)
    | '\\' :: '#' :: text => ofPattern? .ignore false ('#' :: text)
    | '!' :: text => ofAnchored? .keep text
    | text => ofAnchored? .ignore text

def appliesTo (rule : Rule) (path : List UInt8) (isFolder : Bool) : Bool :=
  (isFolder || !rule.foldersOnly) && rule.pattern.accepts path

end Rule

def byteLines (bytes : List UInt8) : List (List UInt8) :=
  match bytes with
  | [] => []
  | 10 :: rest => [] :: byteLines rest
  | b :: rest =>
    if b == 13 && rest.head? == some 10 then byteLines rest
    else
      match byteLines rest with
      | line :: lines => (b :: line) :: lines
      | [] => [[b]]

def lineTexts : List (List UInt8) → List (List Char)
  | [] => []
  | line :: lines =>
    match Text.decode? line with
    | some text => text :: lineTexts lines
    | none => []

def rulesOf (bytes : List UInt8) : List Rule :=
  match lineTexts (byteLines bytes) with
  | [] => []
  | first :: lines =>
    (first.dropWhile (· == Char.ofNat 0xFEFF) :: lines).filterMap Rule.ofLine?

/-- What the rules say about a path, if anything: the last rule that is about it decides. -/
def verdict? (rules : List Rule) (path : List UInt8) (isFolder : Bool) : Option Verdict :=
  (rules.reverse.find? (·.appliesTo path isFolder)).map Rule.verdict

end Synopsis.Ignore
