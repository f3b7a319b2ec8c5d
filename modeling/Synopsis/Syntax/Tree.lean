import Synopsis.Span

/-!
# Syntax trees

The tree of a source text keeps the nodes that decide what a synopsis leaves out: callables and
their bodies, string literals and what stands inside them, and the places where the text could not
be read. Everything else is passed over.
-/

namespace Synopsis.Syntax

inductive Kind
  | file
  | function
  | method
  | constructor
  /-- a constructor that takes the parameters of its record -/
  | compactConstructor
  | functionLiteral
  | arrow
  /-- the braces or the indented statements of a callable -/
  | block
  | string
  | rawString
  | template
  | templateType
  | stringStart
  | stringEnd
  | escape
  /-- a doubled brace that stands for one -/
  | braceEscape
  | interpolation
  /-- a character named between `&` and `;` -/
  | reference
  | comment
  /-- a statement that is one expression or several with commas -/
  | expressionStatement
  | statement
  | concatenation
  /-- an expression that is no bare string -/
  | expression
  | token (text : String)
  | error
deriving DecidableEq, Repr

def Kind.named : Kind → Bool
  | .token _ => false
  | _ => true

/-- A node with its span; `missing` marks one that the reader had to make up. -/
inductive Tree
  | node (kind : Kind) (span : Span) (missing : Bool) (children : List Tree)
deriving Repr

namespace Tree

def kind : Tree → Kind | node k _ _ _ => k
def span : Tree → Span | node _ s _ _ => s
def missing : Tree → Bool | node _ _ m _ => m
def children : Tree → List Tree | node _ _ _ cs => cs

def start (t : Tree) : Nat := t.span.start
def stop (t : Tree) : Nat := t.span.stop
def named (t : Tree) : Bool := t.kind.named

def namedChildren (t : Tree) : List Tree := t.children.filter named

def faulty (t : Tree) : Bool := t.kind == .error || t.missing

mutual
def preorder : Tree → List Tree
  | node k s m cs => node k s m cs :: preorderAll cs
def preorderAll : List Tree → List Tree
  | [] => []
  | t :: ts => preorder t ++ preorderAll ts
end

mutual
def hasError : Tree → Bool
  | node k _ m cs => k == .error || m || anyHasError cs
def anyHasError : List Tree → Bool
  | [] => false
  | t :: ts => hasError t || anyHasError ts
end

mutual
/-- Where the first faulty node starts, looking only into nodes that have an error. -/
def firstError : Tree → Option Nat
  | node k s m cs =>
    if k == .error || m then some s.start
    else if anyHasError cs then firstErrorAmong cs
    else none
def firstErrorAmong : List Tree → Option Nat
  | [] => none
  | t :: ts => (firstError t).or (firstErrorAmong ts)
end

mutual
def WellNested : Tree → Prop
  | node _ s _ cs => s.start ≤ s.stop ∧ NestedWithin s.start s.stop cs
def NestedWithin (lo hi : Nat) : List Tree → Prop
  | [] => lo ≤ hi
  | t :: ts => lo ≤ t.start ∧ WellNested t ∧ NestedWithin t.stop hi ts
end

end Tree
end Synopsis.Syntax
