import Synopsis.Syntax.Pattern

/-!
# Reading text that does not follow its grammar

Text that a grammar refuses is read with departures: stretches of tokens that are passed over and
become error nodes, and tokens that are made up and become missing nodes. Every departure costs
something, and the reading with the least cost is taken.
-/

namespace Synopsis.Syntax

def tokenSpans (blank : List Char → Nat) (token : List Char → Option Nat) (text : List Char) :
    List Span :=
  go (text.length + 1) (Place.start text)
where
  go : Nat → Place → List Span
    | 0, _ => []
    | n + 1, p =>
      let p := p.advance (blank p.rest)
      if p.rest.isEmpty then []
      else
        let q := p.advance (max 1 ((token p.rest).getD 1))
        ⟨p.offset, q.offset⟩ :: go n q

namespace Repair

/-- A departure under consideration: the numbers of the tokens passed over, in order, the tokens
made up, and the offset that a reading must get beyond to be of use. -/
structure Draft where
  skipped : List Nat
  supplied : List (Nat × String)
  beyond : Option Nat
  cost : Nat

def stretches : List Nat → List (Nat × Nat)
  | [] => []
  | n :: ns =>
    match stretches ns with
    | (a, b) :: rest => if n + 1 = a then (n, b) :: rest else (n, n) :: (a, b) :: rest
    | [] => [(n, n)]

variable (tokens : Array Span)

def stretchSpan (s : Nat × Nat) : Span :=
  ⟨(tokens.getD s.1 default).start, (tokens.getD s.2 default).stop⟩

def Draft.repair (d : Draft) : Repair :=
  ⟨(stretches d.skipped).map (stretchSpan tokens), d.supplied⟩

/-- A stretch costs 500, one more for each byte, 30 for each newline in it and 100 for each token. A
token that is made up costs 610. -/
def costOf (text : List Char) (skipped : List Nat) (supplied : List (Nat × String)) : Nat :=
  let stretch (s : Nat × Nat) : Nat :=
    let span := stretchSpan tokens s
    let inside := ((Place.start text).moveTo span.start).rest.take (span.stop - span.start)
    500 + (span.stop - span.start) + 30 * inside.count '\n' + 100 * (s.2 - s.1 + 1)
  (stretches skipped).foldr (fun s n => stretch s + n) (610 * supplied.length)

def enqueue (d : Draft) : List Draft → List Draft
  | [] => [d]
  | e :: es => if e.cost ≤ d.cost then e :: enqueue d es else d :: e :: es

def tokenAt (offset : Nat) : Nat :=
  (tokens.findIdx? fun s => offset ≤ s.start).getD tokens.size

def insertAll (new old : List Nat) : List Nat :=
  (new ++ old.filter (!new.contains ·)).mergeSort (· ≤ ·)

def before (skipped : List Nat) (i : Nat) : List Nat :=
  ((List.range i).filter (!skipped.contains ·)).reverse

/-- How a draft may go on when reading got stuck at an offset: pass over the token there, or over
some of the tokens before it, or make up a closing token. -/
def successors (text : List Char) (closers : List String) (d : Draft) (stuck : Nat) : List Draft :=
  let here := tokenAt tokens stuck
  let draft (new : List Nat) (supplied : List (Nat × String)) : Draft :=
    let skipped := insertAll new d.skipped
    ⟨skipped, supplied, some stuck, costOf tokens text skipped supplied⟩
  let forward := if here < tokens.size then [draft [here] d.supplied] else []
  let earlier := (before d.skipped here).take 48
  let backward := (List.range earlier.length).map fun k => draft (earlier.take (k + 1)) d.supplied
  let made := closers.map fun c => draft [] ((stuck, c) :: d.supplied)
  forward ++ backward ++ made

end Repair

namespace Grammar

open Repair

def search {ρ : Type} (g : Grammar ρ) (name : ρ) (text : List Char) (tokens : Array Span)
    (closers : List String) : Nat → List Draft → Option Tree
  | 0, _ => none
  | _ + 1, [] => none
  | n + 1, d :: queue =>
    match g.tree? (d.repair tokens) name text with
    | .ok t => some t
    | .error reach =>
      if d.beyond.all (· < reach) then
        search g name text tokens closers n
          ((successors tokens text closers d reach).foldl (fun q e => enqueue e q) queue)
      else search g name text tokens closers n queue

/-- Reads any text. What cannot be read even with departures is one error node. -/
def tree {ρ : Type} (g : Grammar ρ) (name : ρ) (blank : List Char → Nat)
    (token : List Char → Option Nat) (closers : List String) (text : List Char) : Tree :=
  match g.tree? .asIs name text with
  | .ok t => t
  | .error _ =>
    let tokens := (tokenSpans blank token text).toArray
    match search g name text tokens closers 2000 [⟨[], [], none, 0⟩] with
    | some t => t
    | none =>
      let span : Span := ⟨0, (tokens.back?.map Span.stop).getD 0⟩
      .node .file span false [.node .error span false []]

end Grammar
end Synopsis.Syntax
