import Synopsis.Text.Slice
import Synopsis.Text.Utf8

/-!
# Planning cuts

Bodies and literals found in a text are turned into cuts: disjoint spans of the text, each with the
text that replaces it. Nested cuts collapse into the outermost one, and cuts that overlap without
nesting are a conflict.
-/

namespace Synopsis

structure Body where
  span : Span
  /-- the first byte that is left out: before the body if blanks go with it, after its start if the
  body begins with text that stays -/
  cutStart : Nat
  indent : Option (List Char)
deriving DecidableEq, Repr

structure Literal where
  span : Span
  lead : Nat
  quote : Nat
  /-- what a cut must not split: escape sequences and interpolations -/
  atoms : List Span
deriving DecidableEq, Repr

def Literal.content (l : Literal) : Span := ⟨l.span.start + l.lead + l.quote, l.span.stop - l.quote⟩

structure Cut where
  span : Span
  marker : List Char
deriving DecidableEq, Repr

structure Conflict where
  first : Span
  second : Span
deriving DecidableEq, Repr

def ellipsis : List Char := ['.', '.', '.']

def pullBack (atoms : List Span) (offset : Nat) : Nat :=
  match atoms.find? fun a => Span.StrictlyInside offset a with
  | some a => a.start
  | none => offset

namespace Literal

def truncation? (text : List Char) (limit : Nat) (l : Literal) : Option Cut :=
  (Text.slice? text l.content).bind fun content =>
    if limit < content.length then
      let kept := Text.byteLength (content.take limit)
      some ⟨⟨pullBack l.atoms (l.content.start + kept), l.content.stop⟩, ellipsis⟩
    else none

end Literal

namespace Body

def marker (placeholder : Option String) (b : Body) : List Char :=
  match placeholder with
  | none => []
  | some statement => '\n' :: (b.indent.getD [] ++ statement.toList)

def elision? (placeholder : Option String) (b : Body) : Option Cut :=
  if b.cutStart < b.span.stop then some ⟨⟨b.cutStart, b.span.stop⟩, b.marker placeholder⟩ else none

end Body

structure PlanOptions where
  limit : Nat
  placeholder : Option String
deriving DecidableEq, Repr

namespace Plan

/-- Every cut that bodies and literals ask for. Literals inside a body ask for none. -/
def candidates (text : List Char) (bodies : List Body) (literals : List Literal)
    (options : PlanOptions) : List Cut :=
  let outside := literals.filter fun l => !bodies.any fun b => b.span.Holds l.span
  outside.filterMap (·.truncation? text options.limit) ++
    bodies.filterMap (·.elision? options.placeholder)

def precedes (a b : Cut) : Bool :=
  a.span.start < b.span.start || (a.span.start == b.span.start && b.span.stop ≤ a.span.stop)

/-- Goes through cuts in order, keeping those that reach beyond the last one kept. -/
def sweep : Option Cut → List Cut → Except Conflict (List Cut)
  | _, [] => .ok []
  | none, c :: cs => (sweep (some c) cs).map (c :: ·)
  | some last, c :: cs =>
    if c.span.stop ≤ last.span.stop then sweep (some last) cs
    else if c.span.start < last.span.stop then .error ⟨last.span, c.span⟩
    else (sweep (some c) cs).map (c :: ·)

end Plan

def plan (text : List Char) (bodies : List Body) (literals : List Literal)
    (options : PlanOptions) : Except Conflict (List Cut) :=
  Plan.sweep none ((Plan.candidates text bodies literals options).mergeSort Plan.precedes)

end Synopsis
