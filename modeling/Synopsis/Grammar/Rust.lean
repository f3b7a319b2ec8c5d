import Synopsis.Syntax.Pattern
import Synopsis.Syntax.Scan
import Synopsis.Syntax.Comment
import Synopsis.Text.Blank

/-!
# The grammar of Rust

A text is read as tokens and brackets. Among them function items are recognised by their keyword,
name and parameter list. What stands between the brackets of a macro or an attribute is left as
tokens: no function is recognised there.
-/

namespace Synopsis.Grammar.Rust

open Synopsis.Syntax

inductive Rule
  | file
  /-- a token, a bracket pair or a function, outside macros -/
  | element
  /-- a token or a bracket pair inside a macro -/
  | tree
  | typePart
  | angles
deriving DecidableEq

abbrev P := Pattern Rule

open Pattern

/-- The words that no macro is named by, so that an exclamation mark after them is an operator. -/
def keywords : List (List Char) :=
  ["as", "break", "else", "if", "in", "let", "loop", "match", "move", "mut", "ref", "return",
    "unsafe", "while"].map String.toList

def blank : List Char → Nat := Comment.count Text.isBlank true

def gap : P := skip blank

def mark (s : String) : P := seq gap (take (Scan.text s.toList))

def escape : List Char → Option Nat :=
  Scan.andThen (Scan.one (· == '\\')) (Scan.first [
    Scan.one fun c => c != 'x' && c != 'u',
    Scan.andThen (Scan.one (· == 'x')) (Scan.between Scan.isHex 2 2),
    Scan.andThen (Scan.text ['u', '{']) (Scan.andThen (Scan.while1 Scan.isHex) (Scan.text ['}'])),
    Scan.andThen (Scan.one (· == 'u')) (Scan.between Scan.isHex 4 4)])

def character : List Char → Option Nat :=
  let quote := Scan.one (· == '\'')
  let literal := Scan.andThen quote (Scan.first [
    Scan.andThen escape quote,
    Scan.andThen (Scan.one fun c => c != '\'' && c != '\\') quote,
    quote])
  Scan.first [literal, Scan.andThen (Scan.one (· == 'b')) literal]

def lifetime : List Char → Option Nat := Scan.andThen (Scan.one (· == '\'')) Scan.name

/-- A string in which escapes do not count: after its marks come any number of hashes and a quote,
and it goes to the first quote with as many hashes. -/
def rawString (rest : List Char) : Option Nat :=
  let lead := Scan.first [Scan.text ['r'], Scan.text ['b', 'r'], Scan.text ['c', 'r']] rest
  lead.bind fun n =>
    let hashes := Scan.countWhile (· == '#') (rest.drop n)
    match rest.drop (n + hashes) with
    | '"' :: inside => (Scan.through ('"' :: List.replicate hashes '#') inside).map
        (n + hashes + 1 + ·)
    | _ => none

def openString (rest : List Char) : Option Nat :=
  let start := Scan.first [Scan.text ['"'], Scan.text ['b', '"'], Scan.text ['c', '"']] rest
  start.map fun _ => rest.length

def string : P := any [
  node .rawString (take rawString),
  node .string (all [
    take (Scan.first [Scan.text ['"'], Scan.text ['b', '"'], Scan.text ['c', '"']]),
    many (any [node .escape (take escape), take (Scan.while1 fun c => c != '"' && c != '\\'),
      node .error (take (Scan.text ['\\']))]),
    take (Scan.text ['"'])]),
  node .error (take openString)]

def plain : List Char → Option Nat :=
  Scan.first [character, lifetime, Scan.andThen (Scan.text ['r', '#']) Scan.name,
    Scan.while1 Scan.isNamePart,
    Scan.one fun c => !Scan.isBracket c]

def brackets (opening closing : String) (part : P) : P :=
  all [mark opening, many (seq gap part), mark closing]

def anyBrackets (part : P) : P :=
  any [brackets "(" ")" part, brackets "[" "]" part, brackets "\x7b" "\x7d" part]

def signaturePart : P := any [
  string, mark "->", rule .angles, brackets "(" ")" (rule .element),
    brackets "[" "]" (rule .element),
  seq (refuse (take (Scan.one fun c => c == ';' || c == '>'))) (take plain)]

def block : P := seq gap (node .block (brackets "\x7b" "\x7d" (rule .element)))

def function : P := node .function (all [
  take (Scan.word ['f', 'n']), gap, take (Scan.first
    [Scan.andThen (Scan.text ['r', '#']) Scan.name, Scan.name]),
  opt (seq gap (rule .angles)), seq gap (brackets "(" ")" (rule .element)),
    many (seq gap signaturePart),
  either block (mark ";")])

def macroCall : P := all [
  take (Scan.nameExcept keywords), gap, take (Scan.text ['!']), refuse (take (Scan.text ['='])),
  opt (seq gap (take Scan.name)), gap, anyBrackets (rule .tree)]

def attributeItem : P := all [take (Scan.text ['#']), opt (mark "!"), brackets "[" "]" (rule .tree)]

def grammar : Rule → P
  | .file => all [many (seq gap (any [rule .element, node .error (take (Scan.one fun _ => true))])),
      gap]
  | .element => any [string, function, macroCall, attributeItem, anyBrackets (rule .element),
      take plain]
  | .tree => any [string, anyBrackets (rule .tree), take plain]
  | .angles => all [take (Scan.text ['<']), many (seq gap (rule .typePart)), gap,
      take (Scan.text ['>'])]
  | .typePart => any [string, take (Scan.first [Scan.text ['-', '>'], Scan.text ['=', '>']]),
      rule .angles,
      anyBrackets (rule .element), seq (refuse (take (Scan.one (· == '>')))) (take plain)]

def tree (text : List Char) : Tree :=
  match Grammar.tree? grammar .asIs .file text with
  | .ok t => t
  | .error _ => .node .file ⟨0, 0⟩ false []

end Synopsis.Grammar.Rust
