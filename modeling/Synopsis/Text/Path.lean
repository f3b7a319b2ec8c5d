import Synopsis.Text.Utf8

/-!
# Paths

A path is text with `/` between its parts. Its components leave out empty parts and parts that are a
lone dot, except a dot that the path starts with.
-/

namespace Synopsis.Path

def parts (path : List Char) : List (List Char) :=
  match path with
  | [] => [[]]
  | '/' :: rest => [] :: parts rest
  | c :: rest =>
    match parts rest with
    | p :: ps => (c :: p) :: ps
    | [] => [[c]]

def isAbsolute (path : List Char) : Bool := path.head? == some '/'

/-- The components of a path. An absolute path has the root as its first component. -/
def components (path : List Char) : List (List Char) :=
  let ps := parts path
  let inner := ps.filter fun p => !p.isEmpty && p != ['.']
  if isAbsolute path then ['/'] :: inner
  else if ps.head? == some ['.'] then ['.'] :: inner
  else inner

def fileName? (path : List Char) : Option (List Char) :=
  match (components path).getLast? with
  | some name => if name == ['/'] || name == ['.'] || name == ['.', '.'] then none else some name
  | none => none

def extension? (path : List Char) : Option (List Char) :=
  (fileName? path).bind fun name =>
    let tail := name.reverse.takeWhile (· != '.')
    match name.reverse.drop tail.length with
    | '.' :: before => if before.isEmpty then none else some tail.reverse
    | _ => none

/-- Drops separators, and parts that are a lone dot, from the end of a path written backwards. -/
def dropTrailing : List Char → List Char
  | ['/'] => ['/']
  | '/' :: rest => dropTrailing rest
  | '.' :: '/' :: rest => dropTrailing ('/' :: rest)
  | path => path

def parent? (path : List Char) : Option (List Char) :=
  match components path with
  | [] => none
  | [['/']] => none
  | _ => some (dropTrailing ((dropTrailing path.reverse).dropWhile (· != '/'))).reverse

def join (base path : List Char) : List Char :=
  if isAbsolute path then path
  else if base.isEmpty then path
  else if base.getLast? == some '/' then base ++ path
  else base ++ '/' :: path

def below? (base path : List Char) : Option (List Char) :=
  if (components base).isPrefixOf (components path) then
    some (['/'].intercalate ((components path).drop (components base).length))
  else none

def le (a b : List Char) : Bool := decide (Text.encode a ≤ Text.encode b)

end Synopsis.Path
