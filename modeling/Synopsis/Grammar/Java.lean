import Synopsis.Syntax.Pattern
import Synopsis.Syntax.Scan
import Synopsis.Syntax.Comment
import Synopsis.Text.Blank

/-!
# The grammar of Java

Types are read member by member, so that methods and constructors are told from fields and
initializers. Expressions and statements are read as tokens and brackets, in which local and
anonymous types are recognised by their keywords.
-/

namespace Synopsis.Grammar.Java

open Synopsis.Syntax

inductive Rule
  | file
  | member
  | typeDeclaration
  | typeBody
  | enumBody
  /-- a token, a bracket pair, a local or anonymous type -/
  | element
  /-- as above, and not a semicolon -/
  | fieldElement
  | marker
  | type
  | angles
  | interpolation
deriving DecidableEq

abbrev P := Pattern Rule

open Pattern

def modifiers : List String :=
  ["public", "protected", "private", "abstract", "static", "final", "strictfp", "default",
    "synchronized", "native", "transient", "volatile", "sealed"]

def reserved : List (List Char) :=
  ["class", "interface", "enum", "new", "return", "throw", "if", "else", "for", "while", "do",
    "switch", "case", "try", "catch", "finally", "break", "continue", "package", "assert",
    "throws", "extends", "implements", "instanceof"].map String.toList

def blank : List Char → Nat := Comment.count Text.isBlank false

def gap : P := skip blank

def mark (s : String) : P := seq gap (take (Scan.text s.toList))

def word (s : String) : P := seq gap (take (Scan.word s.toList))

def isNameStart (c : Char) : Bool := Scan.isNameStart c || c == '$'

def isNamePart (c : Char) : Bool := Scan.isNamePart c || c == '$'

def anyName (rest : List Char) : Option Nat :=
  match rest with
  | c :: _ => if isNameStart c then some (Scan.countWhile isNamePart rest) else none
  | [] => none

def nameScan (rest : List Char) : Option Nat :=
  (anyName rest).bind fun n => if reserved.contains (rest.take n) then none else some n

def name : P := seq gap (take nameScan)

def escaped : List Char → Option Nat :=
  Scan.most [Scan.one fun c => c != 'x' && c != 'u' && !Scan.isOctal c,
    Scan.between Scan.isOctal 1 3,
    Scan.andThen (Scan.one (· == 'x')) (Scan.between Scan.isHex 2 2),
    Scan.andThen (Scan.one (· == 'u')) (Scan.between Scan.isHex 4 4),
    Scan.andThen (Scan.text ['u', '{']) (Scan.andThen (Scan.while1 Scan.isHex) (Scan.text ['}']))]

def escape : List Char → Option Nat := Scan.andThen (Scan.one (· == '\\')) escaped

/-- An escape sequence that counts in a text block. -/
def blockEscape : List Char → Option Nat :=
  Scan.andThen (Scan.one (· == '\\')) (Scan.one "bfnrts'\"\\".toList.contains)

def tripleQuote : List Char := ['"', '"', '"']

def string : P := any [
  node .string (all [
    take (Scan.text tripleQuote),
    many (seq (refuse (take (Scan.text tripleQuote))) (any [
      node .interpolation (rule .interpolation),
      node .escape (take blockEscape),
      take (Scan.one fun _ => true)])),
    take (Scan.text tripleQuote)]),
  node .string (all [
    take (Scan.text ['"']),
    many (any [
      node .interpolation (rule .interpolation),
      node .escape (take escape),
      take (Scan.while1 fun c => c != '"' && c != '\\' && c != '\n')]),
    take (Scan.text ['"'])])]

def character : List Char → Option Nat :=
  let quote := Scan.one (· == '\'')
  Scan.andThen quote (Scan.andThen (Scan.while1 fun c => c != '\'' && c != '\\' && c != '\n') quote)
    |> fun simple => Scan.first [simple, Scan.andThen quote (Scan.andThen escape quote)]

def plain : List Char → Option Nat :=
  Scan.first [character, Scan.while1 isNamePart, Scan.text ['-', '>'],
    Scan.one fun c => !Scan.isBracket c]

def brackets (opening closing : String) (part : P) : P :=
  all [mark opening, many (seq gap part), mark closing]

def parens : P := brackets "(" ")" (rule .element)

/-- A parameter list. One that is not closed before the body is taken to end there. -/
def parameters : P := either parens
  (all [mark "(", many (seq gap (seq (refuse (mark "\x7b"))
    (any [string, rule .marker, take plain]))),
    Pattern.ahead (mark "\x7b")])

def block : P := seq gap (node .block (brackets "\x7b" "\x7d" (rule .element)))

def dimensions : P := many (seq (mark "[") (mark "]"))

def modifierList : P := many (any [
  seq gap (rule .marker),
  all [word "non", take (Scan.text ['-']), take (Scan.word "sealed".toList)],
  seq (any (modifiers.map word)) (refuse (any [mark "=", mark ";", mark "(", mark ".", mark ","]))])

def throwsClause : P := opt (seq (word "throws") (sep1 (seq gap (rule .type)) (mark ",")))

def typeParameters : P := opt (seq gap (rule .angles))

def creation : P := all [
  take (Scan.word "new".toList), typeParameters, many (seq gap (rule .marker)),
    seq gap (rule .type),
  parens, opt (rule .typeBody)]

def grammar : Rule → P
  | .file => all [many (any [rule .member, seq gap (node .error (take (Scan.one fun _ => true)))]),
      gap]
  | .member => any [
      mark ";",
      all [modifierList, gap, rule .typeDeclaration],
      all [modifierList, gap, node .method (all [typeParameters, many (seq gap (rule .marker)),
        rule .type,
        name, parameters, dimensions, throwsClause,
        any [block, mark ";", all [word "default", many (seq gap (rule .fieldElement)),
          mark ";"]]])],
      all [modifierList, gap, node .constructor (all
        [typeParameters, name, parameters, throwsClause, block])],
      all [modifierList, gap, node .compactConstructor (seq name block)],
      all [modifierList, gap, brackets "\x7b" "\x7d" (rule .element)],
      all [some1 (seq gap (rule .fieldElement)), opt (mark ";")]]
  | .typeDeclaration => any [
      all [take (Scan.first [Scan.word "class".toList, Scan.word "interface".toList,
          Scan.andThen (Scan.text ['@']) (Scan.word "interface".toList)]), name,
        many (seq gap headPart), rule .typeBody],
      all [take (Scan.word "enum".toList), name, many (seq gap headPart), rule .enumBody],
      all [take (Scan.word "record".toList), name, typeParameters, parens, many (seq gap headPart),
        rule .typeBody]]
  | .typeBody => all [mark "\x7b", many (rule .member), mark "\x7d"]
  | .enumBody => all [mark "\x7b",
      opt (sep1 (all [many (seq gap (rule .marker)), name, opt parens, opt (rule .typeBody)])
        (mark ",")),
      opt (mark ","), opt (seq (mark ";") (many (rule .member))), mark "\x7d"]
  | .element => any [string, creation,
      seq (modifierList) (seq gap (rule .typeDeclaration)),
      all [take (Scan.text ['.']), gap, take (Scan.word "class".toList)],
      rule .marker, parens, brackets "[" "]" (rule .element),
        brackets "\x7b" "\x7d" (rule .element), take plain]
  | .fieldElement => any [string, creation,
      all [take (Scan.text ['.']), gap, take (Scan.word "class".toList)],
      rule .marker, parens, brackets "[" "]" (rule .element),
        brackets "\x7b" "\x7d" (rule .element),
      seq (refuse (take (Scan.text [';']))) (take plain)]
  | .marker => all [take (Scan.text ['@']), refuse (take (Scan.word "interface".toList)), name,
      many (seq (mark ".") name), opt parens]
  | .type => all [sep1 (all [many (seq gap (rule .marker)), name, opt (seq gap (rule .angles))])
      (mark "."),
      many (all [many (seq gap (rule .marker)), mark "[", mark "]"])]
  | .angles => all [take (Scan.text ['<']), many (seq gap (any [rule .angles, rule .marker,
      brackets "[" "]" (rule .element), seq (refuse (take (Scan.one fun c => c == '>' || c == ';')))
        (take plain)])),
      mark ">"]
  | .interpolation => all [take (Scan.text ['\\', '{']), many (seq gap (rule .element)),
      mark "\x7d"]
where
  headPart : P := any [rule .angles, rule .marker,
    seq (refuse (take (Scan.one fun c => c == ';' || c == '='))) (take plain)]

def tree (text : List Char) : Tree :=
  match Grammar.tree? grammar .asIs .file text with
  | .ok t => t
  | .error _ => .node .file ⟨0, 0⟩ false []

end Synopsis.Grammar.Java
