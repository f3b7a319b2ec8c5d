/-!
# Blanks between tokens

Languages with braces agree on what stands between tokens: blank characters, comments from `//` to
the end of the line, and comments between `/*` and `*/`, which some languages let nest.
-/

namespace Synopsis.Syntax.Comment

inductive Mode
  | outside
  | line
  | block (depth : Nat)

/-- How many characters ahead are blank or comment; `none` if a comment is left open. A newline is
blank only if `space` says so, also the one that ends a comment. -/
def count? (space : Char → Bool) (nest : Bool) : Mode → List Char → Option Nat
  | .outside, '/' :: '/' :: rest => (count? space nest .line rest).map (· + 2)
  | .outside, '/' :: '*' :: rest =>
    match count? space nest (.block 0) rest with
    | some n => some (n + 2)
    | none => some 0
  | .outside, c :: rest =>
    if space c then (count? space nest .outside rest).map (· + 1) else some 0
  | .line, c :: rest =>
    if c = '\n' then
      if space c then (count? space nest .outside rest).map (· + 1) else some 0
    else (count? space nest .line rest).map (· + 1)
  | .block depth, '*' :: '/' :: rest =>
    match depth with
    | 0 => (count? space nest .outside rest).map (· + 2)
    | d + 1 => (count? space nest (.block d) rest).map (· + 2)
  | .block depth, '/' :: '*' :: rest =>
    if nest then (count? space nest (.block (depth + 1)) rest).map (· + 2)
    else (count? space nest (.block depth) ('*' :: rest)).map (· + 1)
  | .block depth, _ :: rest => (count? space nest (.block depth) rest).map (· + 1)
  | .block _, [] => none
  | _, [] => some 0

def count (space : Char → Bool) (nest : Bool) (rest : List Char) : Nat :=
  (count? space nest .outside rest).getD 0

end Synopsis.Syntax.Comment
