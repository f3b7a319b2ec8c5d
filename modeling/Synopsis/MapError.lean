import Synopsis.Language
import Synopsis.Span
import Synopsis.Text.Slice

/-!
# Why a file could not be abridged

The first three failures are those of a parser that cannot be set up or gives no tree. The grammars
here are always there and every text has a tree, so nothing comes to these; they have their messages
and their weight among the others.
-/

namespace Synopsis

inductive MapError
  /-- the grammar of a language is not there -/
  | setup (language : Language)
  /-- the patterns of a language do not fit its grammar -/
  | query (language : Language) (kind message : List Char)
  /-- a text has no tree -/
  | parse (path message : List Char)
  | conflict (path : List Char) (first second : Span)
  | format (path : List Char) (language : Language) (message : List Char)
  | readFailed (path : List Char) (cause : List Char)
deriving DecidableEq, Repr

namespace MapError

def showSpan (s : Span) : List Char :=
  Nat.toDigits 10 s.start ++ ['.', '.'] ++ Nat.toDigits 10 s.stop

def overlapMessage (first second : Span) : List Char :=
  "overlapping cut ranges ".toList ++ showSpan first ++ " and ".toList ++ showSpan second

/-- The complaint about abridged text that cannot be read, with lines and columns from one. -/
def unreadableMessage (p : Text.Position) : List Char :=
  "rewritten source does not parse (line ".toList ++ Nat.toDigits 10 (p.row + 1) ++
    ", column ".toList ++ Nat.toDigits 10 (p.column + 1) ++ [')']

def message : MapError → List Char
  | setup language => "failed to load the ".toList ++ language.name.toList ++ " grammar".toList
  | query language kind message =>
    "invalid ".toList ++ kind ++ " query for ".toList ++ language.name.toList ++ ": ".toList ++
      message
  | parse path message => "parse error in ".toList ++ path ++ ": ".toList ++ message
  | conflict path first second => path ++ ": ".toList ++ overlapMessage first second
  | format path language message =>
    path ++ ": ".toList ++ language.name.toList ++ " formatting failed: ".toList ++ message
  | readFailed path _ => "failed to read file: ".toList ++ path

/-- The failure would meet every file of its language. -/
def fatal : MapError → Bool
  | setup _ | query _ _ _ => true
  | _ => false

def path? : MapError → Option (List Char)
  | setup _ | query _ _ _ => none
  | parse path _ | conflict path _ _ | format path _ _ | readFailed path _ => some path

end MapError
end Synopsis
