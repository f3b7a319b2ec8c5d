import Synopsis.Syntax.Pattern
import Synopsis.Syntax.Scan
import Synopsis.Syntax.Comment
import Synopsis.Text.Blank

/-!
# The grammars of JavaScript, TypeScript and TSX

The three languages share one grammar, in which types and markup are allowed or not. Expressions are
read as operands with operators between them, without regard to precedence: what a synopsis needs
of an expression is where an operand may start, for there a slash starts a regular expression, a
brace an object and an angle bracket an element of markup.
-/

namespace Synopsis.Grammar.Script

open Synopsis.Syntax

structure Dialect where
  types : Bool
  markup : Bool
deriving DecidableEq, Repr

inductive Rule
  | file
  | statement
  | block
  | declaration
  | function
  | classDefinition
  | member
  | object
  | objectMember
  | params
  | param
  | returnType
  | exprs
  | expr
  | operand
  | suffix
  | arrow
  | string
  | template
  | element
  | type
  | typeOperand
  | typeArgs
  | typeParams
  | typeBody
  | templateType
  | decorator
deriving DecidableEq

abbrev P := Pattern Rule

open Pattern

def blank : List Char → Nat :=
  Comment.count (fun c => Text.isBlank c || c.toNat == 0xFEFF || c.toNat == 0x200B ||
    c.toNat == 0x2060) false

def gap : P := skip blank

def openBrace : String := "\x7b"
def closeBrace : String := "\x7d"

def marks : List (List Char) :=
  [">>>=", "...", "===", "!==", "**=", "<<=", ">>=", ">>>", "&&=", "||=", "??=", "=>", "==", "!=",
    "<=", ">=", "&&", "||", "??", "?.", "++", "--", "+=", "-=", "*=", "/=", "%=", "&=", "|=", "^=",
    "<<", ">>", "**", "+", "-", "*", "/", "%", "&", "|", "^", "!", "~", "<", ">", "=", "?", ":",
    ";", ",", ".", "(", ")", "[", "]", openBrace, closeBrace, "@", "#"].map String.toList

def binaryMarks : List (List Char) :=
  [">>>=", "===", "!==", "**=", "<<=", ">>=", ">>>", "&&=", "||=", "??=", "==", "!=", "<=", ">=",
    "&&", "||", "??", "+=", "-=", "*=", "/=", "%=", "&=", "|=", "^=", "<<", ">>", "**", "+", "-",
    "*", "/", "%", "&", "|", "^", "<", ">", "="].map String.toList

def prefixMarks : List (List Char) := ["++", "--", "+", "-", "!", "~", "..."].map String.toList

def reserved : List (List Char) :=
  ["case", "default", "else", "catch", "finally", "in", "instanceof", "extends", "const", "if",
    "for", "while", "do", "switch", "try", "return", "throw", "break", "continue", "var",
    "export", "with", "function", "class"].map String.toList

def isNameStart (c : Char) : Bool := Scan.isNameStart c || c == '$'

def isNamePart (c : Char) : Bool := Scan.isNamePart c || c == '$'

def nameEscape : List Char → Option Nat :=
  Scan.andThen (Scan.text ['\\', 'u']) (Scan.first [Scan.between Scan.isHex 4 4,
    Scan.andThen (Scan.text ['{']) (Scan.andThen (Scan.while1 Scan.isHex) (Scan.text ['}']))])

/-- How long a name goes on, with so many characters of an escape before it. -/
def nameLength : Nat → List Char → Nat
  | _, [] => 0
  | escaped + 1, _ :: rest => nameLength escaped rest + 1
  | 0, c :: rest =>
    if isNamePart c then nameLength 0 rest + 1
    else
      match nameEscape (c :: rest) with
      | some (escaped + 1) => nameLength escaped rest + 1
      | _ => 0

def anyName (rest : List Char) : Option Nat :=
  if rest.head?.any isNameStart || (nameEscape rest).isSome then some (nameLength 0 rest) else none

def nameScan (rest : List Char) : Option Nat :=
  (anyName rest).bind fun n => if reserved.contains (rest.take n) then none else some n

def wordScan (w : List Char) (rest : List Char) : Option Nat :=
  if Scan.startsWith w rest && !((rest.drop w.length).head?.any isNamePart) then some w.length
  else none

def sym (m : String) : P := seq gap (take (Scan.mark marks m.toList))

def word (w : String) : P := seq gap (take (wordScan w.toList))

/-- The mark behind a condition. A dot before a digit belongs to the number. -/
def conditionMark : P := seq gap (take fun rest =>
  match rest with
  | '?' :: '.' :: c :: _ => if c.isDigit then some 1 else none
  | _ => Scan.mark marks ['?'] rest)

def words (ws : List String) : P := seq gap (take (Scan.first (ws.map fun w => wordScan w.toList)))

def name : P := seq gap (take nameScan)

def label : P := seq gap (take anyName)

def sameLine : P := take fun rest => if (rest.take (blank rest)).contains '\n' then none else some 0

def escape : List Char → Option Nat :=
  Scan.andThen (Scan.one (· == '\\')) (Scan.most [
    Scan.one fun c => c != 'x' && c != 'u' && !Scan.isOctal c,
    Scan.between Scan.isOctal 1 3,
    Scan.andThen (Scan.one (· == 'x')) (Scan.between Scan.isHex 2 2),
    Scan.andThen (Scan.one (· == 'u')) (Scan.between Scan.isHex 4 4),
    Scan.andThen (Scan.text ['u', '{']) (Scan.andThen (Scan.while1 Scan.isHex) (Scan.text ['}'])),
    Scan.text ['\r', '\n']])

def number : List Char → Option Nat
  | c :: rest =>
    if c.isDigit then some (1 + tail rest)
    else if c == '.' && rest.head?.any Char.isDigit then some (1 + tail rest)
    else none
  | [] => none
where
  tail : List Char → Nat
    | 'e' :: s :: rest => if s == '+' || s == '-' then 2 + tail rest else 1 + tail (s :: rest)
    | 'E' :: s :: rest => if s == '+' || s == '-' then 2 + tail rest else 1 + tail (s :: rest)
    | c :: rest => if isNamePart c || c == '.' then 1 + tail rest else 0
    | [] => 0

def regex : List Char → Option Nat
  | '/' :: rest => (body false rest).map (1 + ·)
  | _ => none
where
  body (inClass : Bool) : List Char → Option Nat
    | [] => none
    | '\n' :: _ => none
    | '\\' :: c :: rest => if c == '\n' then none else (body inClass rest).map (2 + ·)
    | c :: rest =>
      if c == '/' && !inClass then some (1 + Scan.countWhile isNamePart rest)
      else (body (if c == '[' then true else if c == ']' then false else inClass) rest).map (1 + ·)

inductive Inside
  | code
  | quote (mark : Char)
  | line
  | comment

def behindBracket (rest : List Char) : Option (List Char) :=
  go 0 .code rest
where
  go (depth : Nat) : Inside → List Char → Option (List Char)
    | _, [] => none
    | .code, '/' :: '/' :: rest => go depth .line rest
    | .code, '/' :: '*' :: rest => go depth .comment rest
    | .code, c :: rest =>
      if c == '(' || c == '[' || c == '{' then go (depth + 1) .code rest
      else if c == ')' || c == ']' || c == '}' then
        match depth with
        | 0 => none
        | 1 => some rest
        | d + 1 => go d .code rest
      else if c == '"' || c == '\'' || c == '\x60' then go depth (.quote c) rest
      else go depth .code rest
    | .quote q, '\\' :: _ :: rest => go depth (.quote q) rest
    | .quote q, c :: rest => go depth (if c == q then .code else .quote q) rest
    | .line, c :: rest => go depth (if c == '\n' then .code else .line) rest
    | .comment, '*' :: '/' :: rest => go depth .code rest
    | .comment, _ :: rest => go depth .comment rest

/-- A bracket is ahead, and behind the one that closes it comes an arrow, or a colon where a type
may stand between bracket and arrow. -/
def arrowBehind (typed : Bool) : P := Pattern.ahead (seq gap (take fun rest =>
  match rest with
  | '(' :: _ =>
    (behindBracket rest).bind fun after =>
      let after := after.drop (blank after)
      if Scan.startsWith ['=', '>'] after || (typed && after.head? == some ':') then some 1
      else none
  | _ => none))

/-- A comment in the manner of markup, up to the end of its line. It is one only where no operand
comes before it. -/
def markupComment : P := seq gap (take fun rest =>
  (Scan.first [Scan.text "<!--".toList, Scan.text "-->".toList] rest).map fun n =>
    n + Scan.countWhile (fun c => c != '\n' && c.toNat != 0x2028 && c.toNat != 0x2029)
      (rest.drop n))

def commaSeparated (item : P) : P := many (any [sym ",", markupComment, item])

def quoted (q : Char) : P := node .string (all [
  take (Scan.text [q]),
  many (any [node .escape (take escape), take (Scan.while1 fun c => c != q && c != '\\' &&
    c != '\n' && c != '\r')]),
  take (Scan.text [q])])

/-- A string in an attribute of markup, in which characters are named and not escaped. -/
def attributeString (q : Char) : P := node .string (all [
  take (Scan.text [q]),
  many (any [
    node .reference (take (Scan.andThen (Scan.text ['&']) (Scan.andThen
      (Scan.while1 fun c => c.isAlphanum || c == '#') (Scan.text [';'])))),
    take (Scan.while1 fun c => c != q && c != '&'), take (Scan.text ['&'])]),
  take (Scan.text [q])])

def elementName : P :=
  seq gap (take (Scan.while1 fun c => isNamePart c || c == '-' || c == '.' || c == ':'))

def memberWords : List String :=
  ["static", "public", "private", "protected", "readonly", "abstract", "override", "declare",
    "accessor", "async", "get", "set"]

/-- What shows that a word before a member is its name. -/
def endsMemberName : P := any [
  any (["(", "=", ";", ":", "?", "!", "<", ",", closeBrace].map sym), seq gap atEnd]

def propertyName : P := any [
  seq gap (rule .string), seq gap (take number), label,
  seq gap (seq (take (Scan.text ['#'])) (take anyName)),
  all [sym "[", rule .exprs, sym "]"]]

def memberLead (ws : List String) : P :=
  many (either (seq (words ws) (refuse endsMemberName)) (sym "*"))

def bindingList : P :=
  all [sym openBrace, many (any [sym ",", seq gap (rule .string), label]), sym closeBrace]

def moduleName : P := all [seq gap (rule .string),
  opt (seq (words ["with", "assert"]) (rule .object))]

variable (d : Dialect)

def typed (p : P) : P := if d.types then p else refuse nothing

def annotation : P := opt (typed d (seq (sym ":") (rule .type)))

def genericArgs : P := opt (typed d (rule .typeArgs))

def binding : P := all [
  any [rule .object, all [sym "[", commaSeparated (rule .expr), sym "]"], name],
  opt (typed d (sym "!")), annotation d, opt (seq (sym "=") (rule .expr))]

/-- Declarations before the first semicolon, or parts that are told apart by what follows: keywords,
names and commas. -/
def forHeader : P := all [sym "(", many (any [
  all [words ["const", "let", "var", "using"], sep1 (binding d) (sym ","), sym ";"],
  sym ";", sym ",", words ["const", "let", "var", "await", "of", "in"], rule .exprs]), sym ")"]

def grammar : Rule → P
  | .file => all [
      opt (take fun rest => if Scan.startsWith ['#', '!'] rest then some (Scan.restOfLine rest)
        else none),
      many (any [markupComment, rule .statement,
        seq gap (node .error (take (Scan.one fun _ => true)))]), gap]
  | .block => all [sym openBrace, many (any [markupComment, rule .statement,
      seq (refuse (sym closeBrace))
        (seq gap (node .error (take (Scan.one fun c => !Scan.isBracket c))))]), sym closeBrace]
  | .statement => any [
      sym ";",
      rule .block,
      rule .declaration,
      seq (word "if") (all [parenthesized, rule .statement,
        opt (seq (word "else") (rule .statement))]),
      all [word "for", opt (word "await"), forHeader d, rule .statement],
      all [words ["while", "with"], parenthesized, rule .statement],
      all [word "do", rule .statement, word "while", parenthesized],
      all [word "switch", parenthesized, sym openBrace, many (any [
        all [word "case", rule .exprs, sym ":"], all [word "default", sym ":"], rule .statement]),
          sym closeBrace],
      all [word "try", rule .block, opt (all [word "catch", opt (all [sym "(", binding d, sym ")"]),
        rule .block]),
        opt (seq (word "finally") (rule .block))],
      all [words ["return", "throw"], opt (seq sameLine (rule .exprs)), opt (sym ";")],
      all [words ["break", "continue"], opt (seq sameLine name), opt (sym ";")],
      all [word "debugger", opt (sym ";")],
      all [name, sym ":", rule .statement],
      all [rule .exprs, opt (sym ";")]]
  | .declaration => any [
      seq gap (rule .function),
      seq gap (rule .classDefinition),
      all [words ["const", "let", "var", "using"], refuse (word "enum"), sep1 (binding d) (sym ","),
        opt (sym ";")],
      all [word "import", refuse (either (sym "(") (sym ".")), any [
        moduleName,
        all [opt (words ["type", "typeof", "defer"]),
          sep1 (any [bindingList, all [sym "*", word "as", label], label])
          (sym ","), word "from", moduleName],
        typed d (all [opt (word "type"), name, sym "=", rule .expr])], opt (sym ";")],
      all [word "export", any [
        all [opt (word "type"), sym "*", opt (seq (word "as")
          (either (seq gap (rule .string)) label)), word "from", moduleName],
        all [opt (word "type"), bindingList, opt (seq (word "from") moduleName)],
        all [word "default", either (rule .declaration) (rule .expr)],
        typed d (all [word "as", word "namespace", name]),
        typed d (seq (sym "=") (rule .expr)),
        rule .declaration], opt (sym ";")],
      some1 (rule .decorator) |> fun ds => seq ds (rule .declaration),
      typed d (any [
        all [word "declare", sameLine, any [all [word "global", rule .block], rule .declaration]],
        all [word "abstract", rule .declaration],
        all [word "interface", name, opt (rule .typeParams),
          opt (seq (word "extends") (sep1 (rule .type) (sym ","))),
          rule .typeBody],
        all [word "type", name, opt (rule .typeParams), sym "=", rule .type, opt (sym ";")],
        all [opt (word "const"), word "enum", name, sym openBrace,
          many (either (sym ",") (seq propertyName (opt (seq (sym "=") (rule .expr))))),
            sym closeBrace],
        all [words ["namespace", "module"], sameLine,
          either (seq gap (rule .string)) (sep1 name (sym ".")),
            either (rule .block) (opt (sym ";"))]])]
  | .function => node .function (all [
      opt (seq (take (wordScan "async".toList)) sameLine), word "function", opt (sym "*"), opt name,
      opt (typed d (rule .typeParams)), rule .params, rule .returnType,
      if d.types then either body (opt (sym ";")) else body])
  | .classDefinition => all [many (rule .decorator), opt (typed d (word "abstract")), word "class",
      opt (seq (refuse (words ["extends", "implements"])) name), opt (typed d (rule .typeParams)),
      many (any [
        all [word "extends", rule .operand, many (rule .suffix), genericArgs d,
          many (all [sym ",", rule .operand, many (rule .suffix), genericArgs d])],
        typed d (seq (word "implements") (sep1 (rule .type) (sym ",")))]),
      sym openBrace, many (rule .member), sym closeBrace]
  | .member => any [
      sym ";",
      markupComment,
      rule .decorator,
      all [word "static", rule .block],
      typed d (all [memberLead memberWords, sym "[", name, sym ":", rule .type, sym "]",
        annotation d, opt (sym ";")]),
      all [memberLead memberWords, gap, node .method (all [propertyName, optionalMark,
        opt (typed d (rule .typeParams)), rule .params, rule .returnType,
        if d.types then either body (opt (sym ";")) else body])],
      all [memberLead memberWords, propertyName, optionalMark, annotation d,
        opt (seq (sym "=") (rule .expr)),
        opt (sym ";")]]
  | .object => all [sym openBrace, commaSeparated (rule .objectMember), sym closeBrace]
  | .objectMember => any [
      seq (sym "...") (rule .expr),
      all [memberLead ["async", "get", "set"], gap,
        node .method (all [propertyName, opt (typed d (rule .typeParams)),
        rule .params, rule .returnType, body])],
      all [propertyName, sym ":", rule .expr],
      all [name, opt (seq (sym "=") (rule .expr))]]
  | .params => all [sym "(", commaSeparated (rule .param), sym ")"]
  | .param => all [many (rule .decorator),
      many (typed d (seq (words ["public", "private", "protected", "readonly", "override"])
        (refuse endsMemberName))),
      opt (sym "..."), any [rule .object, all [sym "[", commaSeparated (rule .expr), sym "]"],
        name],
      opt (typed d (sym "?")), annotation d, opt (seq (sym "=") (rule .expr))]
  | .returnType => annotation d
  | .exprs => sep1 (rule .expr) (sym ",")
  | .expr => all [
      many (any [markupComment, seq gap (take (Scan.oneOf marks prefixMarks)),
        all [refuse (seq (word "new") (sym ".")),
          words ["typeof", "void", "delete", "await", "yield", "new"], many (sym "*")]]),
      either (seq (rule .operand) (many (rule .suffix)))
        (Pattern.ahead (any ([")", "]", closeBrace, ",", ";", ":"].map sym))),
      opt (any [
        seq (either (seq gap (take (Scan.oneOf marks binaryMarks))) (words ["in", "instanceof"]))
          (rule .expr),
        all [conditionMark, rule .expr, sym ":", rule .expr],
        all [sym "=>", rule .expr]])]
  | .operand => any [
      seq gap (rule .arrow),
      seq gap (rule .function),
      seq gap (rule .classDefinition),
      seq gap (rule .string),
      seq gap (rule .template),
      seq gap (take number),
      seq gap (take regex),
      parenthesized,
      all [sym "[", commaSeparated (rule .expr), sym "]"],
      rule .object,
      seq gap (seq (take (Scan.text ['#'])) (take anyName)),
      if d.markup then seq gap (rule .element)
      else typed d (all [sym "<", rule .type, sym ">", rule .expr]),
      name]
  | .suffix => any [
      all [sym ".", any [label, seq gap (seq (take (Scan.text ['#'])) (take anyName))]],
      all [sym "?.", any [all [sym "[", rule .exprs, sym "]"], arguments,
        typed d (seq (rule .typeArgs) arguments), rule .template, label,
        seq gap (seq (take (Scan.text ['#'])) (take anyName))]],
      all [sym "[", rule .exprs, sym "]"],
      arguments,
      seq gap (rule .template),
      seq sameLine (either (sym "++") (sym "--")),
      typed d (any [
        seq sameLine (sym "!"),
        all [rule .typeArgs, Pattern.ahead (any [sym "(", seq gap (take (Scan.text ['\x60'])),
          sym ".", sym ",", sym ")", sym "]", sym ";", sym "?.", seq gap atEnd])],
        all [sameLine, words ["as", "satisfies"], rule .type]])]
  | .arrow => node .arrow (all [
      opt (all [take (wordScan "async".toList), sameLine, refuse (sym "=>")]),
      any [
        all [name, sym "=>"],
        all [opt (typed d (rule .typeParams)), arrowBehind d.types, rule .params, rule .returnType,
          sym "=>"]],
      either body (rule .expr)])
  | .string => either (quoted '"') (quoted '\'')
  | .template => node .template (all [take (Scan.text ['\x60']), many (any [
      node .interpolation (all [take (Scan.text ['$', '{']), rule .exprs, sym closeBrace]),
      node .escape (take escape),
      seq (refuse (take (Scan.first [Scan.text ['\x60'], Scan.text ['\\'], Scan.text ['$', '{']])))
        (seq (take (Scan.one fun _ => true)) (take fun rest =>
          some (Scan.countWhile (fun c => c != '\x60' && c != '\\' && c != '$') rest)))]),
      take (Scan.text ['\x60'])])
  | .element => seq (take (Scan.text ['<'])) (either
      (all [sym ">", children, sym "<", sym "/", sym ">"])
      (all [elementName, genericArgs d, many elementAttribute, either (all [sym "/", sym ">"])
        (all [sym ">", children, sym "<", sym "/", elementName, sym ">"])]))
  | .type => all [opt (either (sym "|") (sym "&")), rule .typeOperand, many (any [
      seq (either (sym "|") (sym "&")) (rule .typeOperand),
      all [word "extends", rule .type, sym "?", rule .type, sym ":", rule .type],
      all [sameLine, word "is", rule .type]])]
  | .typeOperand => all [
      many (seq (words ["keyof", "typeof", "readonly", "unique", "infer", "asserts", "abstract",
        "new"])
        (refuse (any ([",", ";", ")", "]", ">", "=", "|", "&", closeBrace].map sym)))),
      any [
        all [opt (rule .typeParams), arrowBehind false, rule .params, sym "=>", rule .type],
        all [sym "(", rule .type, sym ")"],
        rule .typeBody,
        all [sym "[", many (any [sym ",", sym "...",
          all [label, opt (sym "?"), sym ":", rule .type],
          seq (rule .type) (opt (sym "?"))]), sym "]"],
        seq gap (rule .string),
        seq gap (rule .templateType),
        all [opt (sym "-"), seq gap (take number)],
        all [word "import", arguments, many (seq (sym ".") label)],
        seq label (many (seq (sym ".") label))],
      many (any [seq sameLine (rule .typeArgs), all
        [sameLine, sym "[", opt (rule .type), sym "]"]]),
      opt (all [word "extends", rule .typeOperand, refuse (sym "?")])]
  | .typeArgs => all [sym "<", sep1 (rule .type) (sym ","), opt (sym ","), gap,
      take (Scan.text ['>'])]
  | .typeParams => all [sym "<", commaSeparated (all
      [many (seq (words ["const", "in", "out"]) (refuse endsMemberName)), name,
      opt (seq (word "extends") (rule .type)), opt (seq (sym "=") (rule .type))]), gap,
        take (Scan.text ['>'])]
  | .typeBody => all [sym openBrace, many (any [
      seq (sym ":") (rule .type), rule .params, rule .typeParams,
      all [sym "[", name, either (sym ":") (word "in"), rule .type,
        opt (seq (word "as") (rule .type)), sym "]"],
      propertyName, sym "?", sym "-", sym "+", sym ";", sym ","]), sym closeBrace]
  | .templateType => node .templateType (all [take (Scan.text ['\x60']), many (any [
      all [take (Scan.text ['$', '{']), rule .type, sym closeBrace],
      take (Scan.andThen (Scan.text ['\\']) (Scan.one fun _ => true)),
      seq (refuse (take (Scan.first [Scan.text ['\x60'], Scan.text ['$', '{']])))
        (take (Scan.one fun _ => true))]),
      take (Scan.text ['\x60'])])
  | .decorator => all [sym "@", either parenthesized
      (seq label (many (any [seq (sym ".") label, arguments])))]
where
  body : P := seq gap (node .block (rule .block))
  parenthesized : P := all [sym "(", rule .exprs, sym ")"]
  arguments : P := all [sym "(", commaSeparated (rule .expr), sym ")"]
  optionalMark : P := opt (typed d (either (sym "?") (sym "!")))
  elementAttribute : P := any [
    all [sym openBrace, rule .expr, sym closeBrace],
    all [elementName, opt (seq (sym "=") (any [
      seq gap (attributeString '"'), seq gap (attributeString '\''),
      all [sym openBrace, rule .exprs, sym closeBrace], seq gap (rule .element)]))]]
  children : P := many (any [
    take (Scan.while1 fun c => c != '{' && c != '<'),
    all [take (Scan.text ['{']), opt (rule .exprs), sym closeBrace],
    seq (refuse (seq (take (Scan.text ['<'])) (sym "/"))) (rule .element)])

def tree (text : List Char) : Tree :=
  match Grammar.tree? (grammar d) .asIs .file text with
  | .ok t => t
  | .error _ => .node .file ⟨0, 0⟩ false []

def javaScript : Dialect := ⟨false, true⟩
def typeScript : Dialect := ⟨true, false⟩
def tsx : Dialect := ⟨true, true⟩

end Synopsis.Grammar.Script
