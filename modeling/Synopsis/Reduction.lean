import Synopsis.Number.Binary64
import Synopsis.Number.Grouped
import Synopsis.Text.Lines
import Synopsis.Text.Utf8

/-!
# What abridging saves

Counts of tokens and lines before and after abridging, and their report. The vocabularies by which
tokens are counted are not part of the model: tokens are counted by the estimate that serves where
no vocabulary can be loaded. What is said about sizes holds of any way of counting.
-/

namespace Synopsis

inductive Encoding
  | cl100kBase
  | o200kBase
deriving DecidableEq, Repr

namespace Encoding

def name : Encoding → String
  | cl100kBase => "cl100k_base"
  | o200kBase => "o200k_base"

def shortName : Encoding → String
  | cl100kBase => "cl100k"
  | o200kBase => "o200k"

def all : List Encoding := [cl100kBase, o200kBase]

def ofName? (name : List Char) : Option Encoding :=
  all.find? fun e =>
    name.map Char.toLower == e.name.toList || name.map Char.toLower == e.shortName.toList

def unknownMessage (name : List Char) : List Char := "unknown encoding: ".toList ++ name

/-- The estimate where the vocabulary cannot be loaded: one token for four bytes. -/
def countTokens (_ : Encoding) (text : List Char) : Nat := (Text.byteLength text + 3) / 4

end Encoding

structure Reduction where
  files : Nat
  sourceTokens : Nat
  mapTokens : Nat
  sourceLines : Nat
  mapLines : Nat
deriving DecidableEq, Repr

namespace Reduction

def zero : Reduction := ⟨0, 0, 0, 0, 0⟩

def add (a b : Reduction) : Reduction :=
  ⟨a.files + b.files, a.sourceTokens + b.sourceTokens, a.mapTokens + b.mapTokens,
    a.sourceLines + b.sourceLines, a.mapLines + b.mapLines⟩

instance : Add Reduction := ⟨add⟩

def sum (rs : List Reduction) : Reduction := rs.foldl add zero

def runningTotals (rs : List Reduction) : List Reduction :=
  go zero rs
where
  go (total : Reduction) : List Reduction → List Reduction
    | [] => []
    | r :: rs => add total r :: go (add total r) rs

def measure (count : List Char → Nat) (source map : List Char) : Reduction :=
  ⟨1, count source, count map, Text.countLines source, Text.countLines map⟩

def savedRatio (r : Reduction) : Number.Binary64 :=
  if r.sourceTokens = 0 ∨ r.sourceTokens ≤ r.mapTokens then .zero
  else (Number.Binary64.ofNat (r.sourceTokens - r.mapTokens)).div (.ofNat r.sourceTokens)

def render (r : Reduction) : List Char :=
  Number.grouped r.files ++ " files: ".toList ++ Number.grouped r.sourceTokens ++ " -> ".toList ++
    Number.grouped r.mapTokens ++ " tokens, ".toList ++ Number.grouped r.sourceLines ++
    " -> ".toList ++ Number.grouped r.mapLines ++ " lines (".toList ++
    (r.savedRatio.mul (.ofNat 100)).tenths ++ "% fewer tokens)".toList

def renderLines (r : Reduction) : List Char :=
  Number.grouped r.files ++ " files: ".toList ++ Number.grouped r.sourceLines ++ " -> ".toList ++
    Number.grouped r.mapLines ++ " lines".toList

end Reduction
end Synopsis
