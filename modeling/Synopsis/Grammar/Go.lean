import Synopsis.Syntax.Repair
import Synopsis.Syntax.Scan
import Synopsis.Syntax.Comment
import Synopsis.Text.Blank

/-!
# The grammar of Go

A whole grammar: text that does not follow it is refused. Statements may stand at the top level, so
fragments can be read as well as files.

A newline ends a statement, a field or a specification wherever one may end, and is blank
everywhere else. Rules that meet both cases take an argument `line`, which is true where a newline
would end what is being read. The argument `brace` of expressions is false in the head of a
statement, where a brace after a name opens the statement's block.
-/

namespace Synopsis.Grammar.Go

open Synopsis.Syntax

inductive Rule
  | file
  | topLevel
  | statement
  | statements
  | block
  | ifStatement
  | simple (line brace : Bool)
  | exprs (line brace : Bool)
  | expr (line brace : Bool)
  | unary (line brace : Bool)
  | operand (line brace : Bool)
  | suffix (line : Bool)
  | literalValue
  | element
  | type (line : Bool)
  | simpleType (line : Bool)
  | typeElem (line : Bool)
  | typeArgs (line : Bool)
  | typeParams
  | params
  | signature (line : Bool)
  | field
  | method
  | string (line : Bool)
deriving DecidableEq

def keywords : List (List Char) :=
  ["break", "case", "chan", "const", "continue", "default", "defer", "else", "fallthrough", "for",
    "func", "go", "goto", "if", "import", "interface", "map", "package", "range", "return",
    "select", "struct", "switch", "type", "var"].map String.toList

/-- The operators and marks of the language, longer ones first. -/
def marks : List (List Char) :=
  ["<<=", ">>=", "&^=", "...", "&&", "||", "<-", "++", "--", "==", "!=", "<=", ">=", ":=", "+=",
    "-=", "*=", "/=", "%=", "&=", "|=", "^=", "<<", ">>", "&^", "+", "-", "*", "/", "%", "&", "|",
    "^", "<", ">", "=", "!", "(", ")", "[", "]", "\x7b", "\x7d", ",", ";", ".", ":",
    "~"].map String.toList

def binaryMarks : List (List Char) :=
  ["&&", "||", "==", "!=", "<=", ">=", "<<", ">>", "&^", "+", "-", "*", "/", "%", "&", "|", "^",
    "<", ">"].map String.toList

def prefixMarks : List (List Char) :=
  ["+", "-", "!", "^", "*", "&", "<-"].map String.toList

def assignMarks : List (List Char) :=
  [":=", "=", "<<=", ">>=", "&^=", "+=", "-=", "*=", "/=", "%=", "&=", "|=", "^="].map String.toList

def blankInLine : List Char → Nat :=
  Comment.count (fun c => c != '\n' && Text.isBlank c) false

def blank : List Char → Nat := Comment.count Text.isBlank false

abbrev P := Pattern Rule

open Pattern

/-- What may stand before a token: blanks, and newlines unless they end something here. -/
def gap (line : Bool) : P := skip (if line then blankInLine else blank)

def sym (line : Bool) (m : String) : P := seq (gap line) (take (Scan.mark marks m.toList))

def word (line : Bool) (w : String) : P := seq (gap line) (take (Scan.word w.toList))

def name (line : Bool) : P := seq (gap line) (take (Scan.nameExcept keywords))

def close (m : String) : P := either (sym false m) (all [gap false, atEnd, supply m])

def terminator : P :=
  any [seq (gap true) (take (Scan.one fun c => c == '\n' || c == ';')), seq (gap true) atEnd]

def clauseEnd : P :=
  any [ahead (sym false "\x7d"), ahead (word false "case"), ahead (word false "default")]

def partEnd (m : String) : P := either terminator (ahead (sym false m))

def parens (inner : P) : P := all [sym false "(", inner, sym false ")"]

def group (part : P) : P :=
  all [sym false "(", many (seq part (partEnd ")")), sym false ")"]

def digits (p : Char → Bool) : List Char → Option Nat :=
  Scan.while1 fun c => p c || c == '_'

def exponent (marks : List Char) : List Char → Option Nat :=
  Scan.andThen (Scan.one marks.contains)
    (Scan.first [Scan.andThen (Scan.one fun c => c == '+' || c == '-') (Scan.while1 Char.isDigit),
      Scan.while1 Char.isDigit])

def optionally (scan : List Char → Option Nat) (rest : List Char) : Option Nat :=
  some ((scan rest).getD 0)

def radix (marks : List Char) (p : Char → Bool) : List Char → Option Nat :=
  Scan.andThen (Scan.one (· == '0')) (Scan.andThen (Scan.one marks.contains) (digits p))

def number : List Char → Option Nat :=
  let point := Scan.one (· == '.')
  let fraction := Scan.andThen point (optionally (digits Char.isDigit))
  Scan.andThen
    (Scan.first [
      Scan.andThen (radix ['x', 'X'] Scan.isHex)
        (Scan.andThen (optionally (Scan.andThen point (optionally (digits Scan.isHex))))
          (optionally (exponent ['p', 'P']))),
      radix ['b', 'B'] (fun c => c == '0' || c == '1'),
      radix ['o', 'O'] Scan.isOctal,
      Scan.andThen (Scan.one Char.isDigit) (Scan.andThen (optionally (digits Char.isDigit))
        (Scan.andThen (optionally fraction) (optionally (exponent ['e', 'E'])))),
      Scan.andThen point (Scan.andThen (digits Char.isDigit)
        (optionally (exponent ['e', 'E'])))])
    (optionally (Scan.one (· == 'i')))

def escape : List Char → Option Nat :=
  Scan.andThen (Scan.one (· == '\\'))
    (Scan.most [Scan.one fun c => c != 'x' && c != 'u' && c != 'U',
      Scan.between Char.isDigit 2 3,
      Scan.andThen (Scan.one (· == 'x')) (Scan.between Scan.isHex 2 2),
      Scan.andThen (Scan.one (· == 'u')) (Scan.between Scan.isHex 4 4),
      Scan.andThen (Scan.one (· == 'U')) (Scan.between Scan.isHex 8 8)])

def rune : List Char → Option Nat :=
  let quote := Scan.one (· == '\'')
  Scan.andThen quote (Scan.andThen (Scan.first [escape, Scan.one fun c => c != '\'' &&
    c != '\\']) quote)

/-- The closing quote; at the end of a line it is taken to be missing. -/
def closingQuote : P :=
  either (take (Scan.text ['"']))
    (seq (ahead (either (take (Scan.one (· == '\n'))) atEnd)) (supply "\""))

def grammar : Rule → P
  | .file => all [many (either (seq (rule .topLevel) terminator) (sym false ";")), gap false, atEnd]
  | .topLevel => any [
      seq (word false "package") (name false),
      seq (word false "import") (either (group importSpec) importSpec),
      seq (gap false) (node .function (all [word true "func", name true, opt (rule .typeParams),
        rule (.signature true), opt (rule .block)])),
      seq (gap false) (node .method (all [word true "func", rule .params, name false,
        rule (.signature true), opt (rule .block)])),
      rule .statement]
  | .block => seq (gap true) (node .block (all [sym true "\x7b", rule .statements, close "\x7d"]))
  | .statements => many (either (seq (rule .statement) (either terminator clauseEnd))
      (sym false ";"))
  | .statement => any [
      seq (word false "var") (either (group varSpec) varSpec),
      seq (word false "const") (either (group constSpec) constSpec),
      seq (word false "type") (either (group typeSpec) typeSpec),
      seq (word false "return") (opt (rule (.exprs true true))),
      seq (either (word false "go") (word false "defer")) (rule (.expr true true)),
      rule .ifStatement,
      seq (word false "for") (any [
        seq (all [opt (seq (rule (.exprs false false)) (either (sym false ":=") (sym false "="))),
          word false "range", rule (.expr false false)]) (rule .block),
        all [opt (rule (.simple false false)), sym false ";", opt (rule (.expr false false)),
          sym false ";", opt (rule (.simple false false)), gap false, rule .block],
        all [rule (.expr false false), gap false, rule .block],
        seq (gap false) (rule .block)]),
      all [word false "switch", any [
        all [rule (.simple false false), sym false ";", opt (rule (.simple false false)), cases],
        all [opt (rule (.simple false false)), cases]]],
      all [word false "select", cases],
      all [name false, sym true ":", any [rule .statement, ahead (sym false ";"), clauseEnd]],
      word false "fallthrough",
      seq (either (word false "break") (word false "continue")) (opt (name true)),
      seq (word false "goto") (name false),
      seq (gap false) (rule .block),
      rule (.simple true true)]
  | .ifStatement => all [word false "if",
      either (all [rule (.simple false false), sym false ";", rule (.expr false false), gap false,
        rule .block])
        (all [rule (.expr false false), gap false, rule .block]),
      opt (seq (word true "else") (either (rule .ifStatement) (seq (gap false) (rule .block))))]
  | .simple line brace => seq (rule (.exprs line brace)) (opt (any [
      seq (seq (gap line) (take (Scan.oneOf marks assignMarks))) (rule (.exprs line brace)),
      sym line "++", sym line "--",
      seq (sym line "<-") (rule (.expr line brace))]))
  | .exprs line brace => sep1 (rule (.expr line brace)) (sym line ",")
  | .expr line brace => sep1 (rule (.unary line brace))
      (seq (gap line) (take (Scan.oneOf marks binaryMarks)))
  | .unary line brace => all [many (seq (gap false) (take (Scan.oneOf marks prefixMarks))),
      rule (.operand line brace), many (rule (.suffix line))]
  | .operand line brace => any [
      rule (.string line),
      seq (gap false) (take rune),
      seq (gap false) (take number),
      seq (gap false) (node .functionLiteral (all [word true "func", rule (.signature false),
        gap false, rule .block])),
      all [either (word false "make") (word false "new"), sym line "(",
        sep1 (either (seq (rule (.expr false true))
          (ahead (either (sym false ",") (sym false ")")))) (rule (.type false)))
          (sym false ","), opt (sym false ","), sym false ")"],
      seq (if brace then all [name false, opt (seq (sym line ".") (name false)),
        opt (rule (.typeArgs line)),
        gap line, rule .literalValue] else any []) nothing,
      seq (any [word false "struct", word false "map", sym false "["] |> ahead)
        (seq (compositeType line) (either (seq (gap line) (rule .literalValue)) arguments)),
      seq (any [word false "interface", word false "func", word false "chan"] |> ahead)
        (seq (rule (.simpleType line)) arguments),
      parens (either (seq (rule (.expr false true)) (ahead (sym false ")"))) (rule (.type false))),
      name false]
  | .suffix line => any [
      all [sym line ".", name false],
      all [sym line ".", sym false "(", either (word false "type") (rule (.type false)),
        sym false ")"],
      all [sym line "(", opt (seq (sep1 argument (sym false ",")) (opt (sym false ","))),
        sym false ")"],
      all [sym line "[", any [
        all [opt (rule (.expr false true)), sym false ":", opt (rule (.expr false true)),
          opt (seq (sym false ":") (opt (rule (.expr false true)))), sym false "]"],
        all [rule (.expr false true), sym false "]"],
        all [sep1 (rule (.typeElem false)) (sym false ","), opt (sym false ","), sym false "]"]]]]
  | .literalValue => all [sym true "\x7b", opt (seq (sep1 (rule .element) (sym false ","))
      (opt (sym false ","))),
      sym false "\x7d"]
  | .element => sep1 (either (seq (gap false) (rule .literalValue)) (rule (.expr false true)))
      (sym false ":")
  | .type line => either (parens (rule (.type false))) (rule (.simpleType line))
  | .simpleType line => any [
      seq (sym line "*") (rule (.type line)),
      seq (sym line "~") (rule (.type line)),
      all [sym line "[", sym false "]", rule (.type line)],
      all [sym line "[", rule (.expr false true), sym false "]", rule (.type line)],
      all [word line "map", sym false "[", rule (.type false), sym false "]", rule (.type line)],
      all [word line "chan", opt (sym false "<-"), rule (.type line)],
      all [sym line "<-", word false "chan", rule (.type line)],
      all [word line "struct", sym false "\x7b", many (seq (rule .field) (partEnd "\x7d")),
        sym false "\x7d"],
      all [word line "interface", sym false "\x7b", many (seq (rule .method) (partEnd "\x7d")),
        sym false "\x7d"],
      all [word line "func", rule (.signature line)],
      all [name line, opt (seq (sym line ".") (name false)), opt (rule (.typeArgs line))]]
  | .typeElem line => sep1 (rule (.type line)) (sym line "|")
  | .typeArgs line => all [sym line "[", sep1 (rule (.typeElem false)) (sym false ","),
      opt (sym false ","), sym false "]"]
  | .typeParams => all [sym true "[",
      sep1 (seq (sep1 (name false) (sym false ",")) (rule (.typeElem false))) (sym false ","),
        opt (sym false ","),
      sym false "]"]
  | .params => all [sym false "(", opt (seq (sep1 param (sym false ",")) (opt (sym false ","))),
      sym false ")"]
  | .signature line => seq (rule .params) (opt (either (seq (ahead (sym line "(")) (rule .params))
      (rule (.simpleType line))))
  | .field => seq (either (seq (sep1 (name false) (sym true ",")) (rule (.type true)))
      (all [opt (sym false "*"), name false, opt (seq (sym true ".") (name false)),
        opt (rule (.typeArgs true))]))
      (opt (rule (.string true)))
  | .method => either (seq (name false) (seq (ahead (sym true "(")) (rule (.signature true))))
      (rule (.typeElem false))
  | .string _ => seq (gap false) (either
      (node .string (all [take (Scan.text ['"']),
        many (either (node .escape (take escape)) (take
          (Scan.while1 fun c => c != '"' && c != '\n' && c != '\\'))),
        closingQuote]))
      (node .rawString (all [take (Scan.text ['\x60']), many (take (Scan.while1 (· != '\x60'))),
        take (Scan.text ['\x60'])])))
where
  importSpec : P := seq (opt (either (sym false ".") (name false))) (rule (.string true))
  varSpec : P := seq (sep1 (name false) (sym false ",")) (either
    (seq (rule (.type true)) (opt (seq (sym true "=") (rule (.exprs true true)))))
    (seq (sym false "=") (rule (.exprs true true))))
  constSpec : P := seq (sep1 (name false) (sym false ",")) (opt (all [
    gap true, opt (rule (.type true)), sym true "=", rule (.exprs true true)]))
  typeSpec : P := all [name false, opt (rule .typeParams), opt (sym false "="), rule (.type true)]
  cases : P := all [sym false "\x7b", many (all [
    either (seq (word false "case") (sep1 (either (seq (rule (.simple false true))
      (ahead (either (sym false ",") (sym false ":"))))
      (rule (.type false))) (sym false ","))) (word false "default"),
    sym false ":", rule .statements]), close "\x7d"]
  argument : P := seq (rule (.expr false true)) (opt (sym false "..."))
  arguments : P := all [sym true "(", opt (seq (sep1 argument (sym false ","))
    (opt (sym false ","))), sym false ")"]
  compositeType (line : Bool) : P := any [
    all [sym false "[", sym false "...", sym false "]", rule (.type line)],
    rule (.simpleType line)]
  param : P := any [
    all [opt (name false), sym false "...", rule (.type false)],
    seq (seq (name false) (rule (.type false))) (ahead (either (sym false ",") (sym false ")"))),
    rule (.type false)]

/-- One token, for passing over text that cannot be read. A string without its closing quote goes to
the end of its line, and a raw one to the end of the text. -/
def token : List Char → Option Nat :=
  Scan.first [Scan.name, rune, number, quoted, raw, fun rest =>
    (Scan.longest marks rest).map List.length]
where
  quoted : List Char → Option Nat
    | '"' :: rest => some (1 + inside rest)
    | _ => none
  inside : List Char → Nat
    | '"' :: _ => 1
    | '\n' :: _ => 0
    | '\\' :: _ :: rest => 2 + inside rest
    | _ :: rest => 1 + inside rest
    | [] => 0
  raw : List Char → Option Nat
    | '\x60' :: rest => some (1 + (Scan.through ['\x60'] rest).getD rest.length)
    | _ => none

def tree (text : List Char) : Tree := Grammar.tree grammar .file blank token ["\"", "\x7d"] text

end Synopsis.Grammar.Go
