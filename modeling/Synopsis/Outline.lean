import Synopsis.Language
import Synopsis.Plan
import Synopsis.Syntax.Tree
import Synopsis.Text.Blank

/-!
# Outlines

Which nodes of a syntax tree are bodies that may be left out and literals that may be shortened,
language by language, and the spans that follow from them.
-/

namespace Synopsis

open Syntax

namespace Language

def elides : Language → Kind → Bool
  | go, k => k == .function || k == .method
  | java, k => k == .method || k == .constructor
  | python, k => k == .function
  | javaScript, k | typeScript, k | tsx, k => k == .function || k == .method || k == .arrow
  | rust, k => k == .function

def shortens : Language → Kind → Bool
  | go, k | rust, k => k == .string || k == .rawString
  | java, k | python, k => k == .string
  | javaScript, k | typeScript, k | tsx, k => k == .string || k == .template

def atomKinds : Language → List Kind
  | go | java | rust => [.escape]
  | python | javaScript | typeScript | tsx => [.escape, .interpolation]

end Language

namespace Outline

def lineFrom (text : List Char) (offset : Nat) : List Char :=
  go text 0 text
where
  go (line : List Char) (pos : Nat) : List Char → List Char
    | [] => line
    | c :: rest =>
      if pos < offset then
        go (if c = '\n' then rest else line) (pos + c.utf8Size) rest
      else line

def lineIndent (text : List Char) (offset : Nat) : List Char :=
  (lineFrom text offset).takeWhile Text.isSpaceOrTab

def firstIndent : Bool → List Char → Option Char
  | _, [] => none
  | atStart, c :: rest =>
    if atStart && Text.isSpaceOrTab c then some c else firstIndent (c == '\n') rest

/-- One more level of indentation below a header: a tab where the header is indented by tabs, or,
if it is not indented, where the text's first indented line is; four spaces otherwise. -/
def indentStep (text header : List Char) : List Char :=
  let sample := if header.isEmpty then firstIndent true text else header.head?
  if sample == some '\t' then ['\t'] else [' ', ' ', ' ', ' ']

def bracedBody (text : List Char) (block : Tree) : Body :=
  let before := (Text.takeBytes? block.start text).getD []
  let padding := (before.reverse.takeWhile Text.isSpaceOrTab).length
  ⟨block.span, block.start - padding, none⟩

def isDocstring (statement : Tree) : Bool :=
  statement.kind == .expressionStatement &&
    match statement.namedChildren with
    | [only] => only.kind == .string || only.kind == .concatenation
    | _ => false

/-- A body of statements after a colon. A string that comes first stays. -/
def indentedBody? (text : List Char) (callable block : Tree) : Option Body :=
  let colons := callable.children.filter fun c => c.kind == .token ":" && c.stop ≤ block.start
  colons.getLast?.map fun colon =>
    let first := block.namedChildren.find? (·.kind != .comment)
    let sameLine (statement : Tree) : Bool :=
      (Text.position statement.start text).row == (Text.position colon.stop text).row
    let below :=
      let header := lineIndent text callable.start
      header ++ indentStep text header
    let indent :=
      match first with
      | some statement => if sameLine statement then below else lineIndent text statement.start
      | none => below
    let cutStart :=
      match first with
      | some statement => if isDocstring statement then statement.stop else colon.stop
      | none => colon.stop
    ⟨⟨colon.stop, block.stop⟩, cutStart, some indent⟩

def bodiesOf (language : Language) (text : List Char) (t : Tree) : List Body :=
  if language.elides t.kind then
    (t.children.filter (·.kind == .block)).filterMap fun block =>
      match language with
      | .python => indentedBody? text t block
      | _ => some (bracedBody text block)
  else []

mutual
/-- The spans of the nodes of the given kinds below a node, reached through named nodes and not
below each other. -/
def atomsBelow (kinds : List Kind) : Tree → List Span
  | .node _ _ _ cs => atomsAmong kinds cs
def atomsAmong (kinds : List Kind) : List Tree → List Span
  | [] => []
  | t :: ts =>
    (if t.named then if kinds.contains t.kind then [t.span] else atomsBelow kinds t else []) ++
      atomsAmong kinds ts
end

def delimited? (kinds : List Kind) (t : Tree) (lead quote : Nat) : Option Literal :=
  if t.hasError then none
  else if t.stop - t.start < lead + 2 * quote then none
  else some ⟨t.span, lead, quote, atomsBelow kinds t⟩

def childWidth? (kind : Kind) (t : Tree) : Option Nat :=
  (t.children.find? (·.kind == kind)).map fun c => c.stop - c.start

def literalOf? (language : Language) (text : List Char) (t : Tree) : Option Literal :=
  let delimited := delimited? language.atomKinds t
  match language with
  | .go | .javaScript | .typeScript | .tsx => delimited 0 1
  | .java =>
    (Text.slice? text t.span).bind fun source =>
      delimited 0 (if source.take 3 == ['"', '"', '"'] then 3 else 1)
  | .python =>
    (childWidth? .stringStart t).bind fun opening =>
      (childWidth? .stringEnd t).bind fun closing =>
        if closing = 0 ∨ opening < closing then none else delimited (opening - closing) closing
  | .rust =>
    (Text.slice? text t.span).bind fun source =>
      let lead := (source.takeWhile Char.isAlpha).length
      let hashes := ((source.drop lead).takeWhile (· == '#')).length
      delimited lead (if t.kind == .rawString then hashes + 1 else 1)

end Outline

structure Outline where
  bodies : List Body
  literals : List Literal
deriving DecidableEq, Repr

def Outline.ofTree (language : Language) (text : List Char) (tree : Tree) : Outline :=
  let nodes := tree.preorder
  { bodies := nodes.flatMap (Outline.bodiesOf language text)
    literals := (nodes.filter fun t => language.shortens t.kind).filterMap
      (Outline.literalOf? language text) }

end Synopsis
