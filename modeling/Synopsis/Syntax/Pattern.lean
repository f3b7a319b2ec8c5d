import Synopsis.Syntax.Tree

/-!
# Patterns

A grammar is a pattern for every rule of a language. A pattern is tried at a place of the text; it
either moves the place forward, adding nodes to what was found, or is refused. Choices are ordered:
the second alternative is tried only where the first is refused.

Rules may call each other. The number of rules that may be open at once is bounded by an argument,
and since no rule of a sound grammar calls itself without moving forward, a bound in proportion to
the length of the text is never met.
-/

namespace Synopsis.Syntax

/-- What may be read at a place. The rules of the language are named by `ρ`. -/
inductive Pattern (ρ : Type)
  | nothing
  | take (scan : List Char → Option Nat)
  | skip (blank : List Char → Nat)
  /-- a token that may be made up where the text lacks it -/
  | supply (text : String)
  | seq (first second : Pattern ρ)
  | either (first second : Pattern ρ)
  | many (item : Pattern ρ)
  | ahead (item : Pattern ρ)
  | refuse (item : Pattern ρ)
  | node (kind : Kind) (inner : Pattern ρ)
  /-- what is read is left out of the tree -/
  | silent (inner : Pattern ρ)
  | rule (name : ρ)
  /-- the pattern of the rule that the characters ahead call for -/
  | given (choose : List Char → Option ρ)

/-- Departures from the text that let it be read: stretches passed over, and tokens made up. -/
structure Repair where
  skipped : List Span
  supplied : List (Nat × String)
deriving DecidableEq, Repr

def Repair.asIs : Repair := ⟨[], []⟩

/-- A place in the text, with the nodes found so far (the latest first) and the furthest offset at
which some pattern was refused. -/
structure Place where
  rest : List Char
  offset : Nat
  found : List Tree
  reach : Nat

abbrev Outcome := Except Nat Place

namespace Place

def start (text : List Char) : Place :=
  match text with
  | c :: rest => if c.toNat = 0xFEFF then ⟨rest, c.utf8Size, [], 0⟩ else ⟨text, 0, [], 0⟩
  | [] => ⟨[], 0, [], 0⟩

def advance : Nat → Place → Place
  | 0, p => p
  | n + 1, p =>
    match p.rest with
    | [] => p
    | c :: rest => advance n { p with rest, offset := p.offset + c.utf8Size }

def moveTo (offset : Nat) (p : Place) : Place :=
  go p.rest p
where
  go : List Char → Place → Place
    | [], p => p
    | c :: rest, p =>
      if p.offset < offset then go rest { p with rest, offset := p.offset + c.utf8Size } else p

def add (t : Tree) (p : Place) : Place := { p with found := t :: p.found }

def skip (blank : List Char → Nat) : List Span → Place → Place
  | [], p => p.advance (blank p.rest)
  | hole :: holes, p =>
    let p := p.advance (blank p.rest)
    if p.offset = hole.start then
      skip blank holes ((p.moveTo hole.stop).add (.node .error hole false []))
    else skip blank holes p

def refused (p : Place) : Outcome := .error (max p.reach p.offset)

end Place

namespace Pattern

def repeatStep (step : Place → Outcome) : Nat → Place → Outcome
  | 0, p => .ok p
  | n + 1, p =>
    match step p with
    | .ok q => if q.offset = p.offset then .ok p else repeatStep step n q
    | .error reach => .ok { p with reach := max p.reach reach }

def read {ρ : Type} (repair : Repair) (call : ρ → Place → Outcome) : Pattern ρ → Place → Outcome
  | nothing, p => .ok p
  | take scan, p =>
    match scan p.rest with
    | some n => .ok (p.advance n)
    | none => p.refused
  | skip blank, p => .ok (p.skip blank repair.skipped)
  | supply text, p =>
    if (p.offset, text) ∈ repair.supplied then
      .ok (p.add (.node (.token text) ⟨p.offset, p.offset⟩ true []))
    else p.refused
  | seq first second, p =>
    match first.read repair call p with
    | .ok q => second.read repair call q
    | .error reach => .error reach
  | either first second, p =>
    match first.read repair call p with
    | .ok q => .ok q
    | .error reach => second.read repair call { p with reach := max p.reach reach }
  | many item, p => repeatStep (item.read repair call) (p.rest.length + 1) p
  | ahead item, p =>
    match item.read repair call p with
    | .ok _ => .ok p
    | .error reach => .error reach
  | refuse item, p =>
    match item.read repair call p with
    | .ok _ => p.refused
    | .error _ => .ok p
  | node kind inner, p =>
    match inner.read repair call { p with found := [] } with
    | .ok q =>
      .ok { q with found := .node kind ⟨p.offset, q.offset⟩ false q.found.reverse :: p.found }
    | .error reach => .error reach
  | silent inner, p =>
    match inner.read repair call p with
    | .ok q => .ok { q with found := p.found }
    | .error reach => .error reach
  | rule name, p => call name p
  | given choose, p =>
    match choose p.rest with
    | some name => call name p
    | none => p.refused

def all {ρ : Type} : List (Pattern ρ) → Pattern ρ
  | [] => nothing
  | [p] => p
  | p :: ps => seq p (all ps)

def any {ρ : Type} : List (Pattern ρ) → Pattern ρ
  | [] => refuse nothing
  | [p] => p
  | p :: ps => either p (any ps)

def opt {ρ : Type} (p : Pattern ρ) : Pattern ρ := either p nothing

def some1 {ρ : Type} (p : Pattern ρ) : Pattern ρ := seq p (many p)

def sep1 {ρ : Type} (item mark : Pattern ρ) : Pattern ρ := seq item (many (seq mark item))

def atEnd {ρ : Type} : Pattern ρ := refuse (take fun rest => if rest.isEmpty then none else some 1)

end Pattern

abbrev Grammar (ρ : Type) := ρ → Pattern ρ

namespace Grammar

def read {ρ : Type} (g : Grammar ρ) (repair : Repair) : Nat → ρ → Place → Outcome
  | 0, _, p => p.refused
  | depth + 1, name, p => (g name).read repair (g.read repair depth) p

/-- A bound on the rules open at once that reading a text of this length never meets. -/
def depthFor (text : List Char) : Nat := 64 * (text.length + 2)

def tree? {ρ : Type} (g : Grammar ρ) (repair : Repair) (name : ρ) (text : List Char) :
    Except Nat Tree :=
  let start := Place.start text
  match g.read repair (depthFor text) name start with
  | .ok p => .ok (.node .file ⟨start.offset, p.offset⟩ false p.found.reverse)
  | .error reach => .error reach

end Grammar
end Synopsis.Syntax
