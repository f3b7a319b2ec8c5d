import Synopsis.FileTree
import Synopsis.Ignore.Rule

/-!
# Ignore rules of folders

Every folder may bring rules for what is below it: its `.ignore` file, and inside a repository its
`.gitignore` file and the rules that the repository keeps for itself. Rules of nearer folders win
over those of folders above, and above a repository its rules do not reach.
-/

namespace Synopsis.Walk

open Ignore

structure Level where
  ignoreRules : List Rule
  gitRules : List Rule
  repositoryRules : List Rule
  isRepository : Bool

def fileBelow? (tree : FileTree) (place : Place) (names : List Name) : Option (List UInt8) :=
  match tree.follow false FileTree.linkLimit place names with
  | .ok place =>
    match tree.get? place with
    | some (.file bytes) => some bytes
    | _ => none
  | .error _ => none

def existsBelow (tree : FileTree) (place : Place) (names : List Name) : Bool :=
  match tree.follow false FileTree.linkLimit place names with
  | .ok _ => true
  | .error _ => false

def firstLine? (bytes : List UInt8) : Option (List Char) :=
  (byteLines bytes).head?.bind Text.decode?

/-- The file with the rules of a repository whose `.git` is a file that names another folder, in
which a further file names the folder shared by all working copies. -/
def sharedRules? (tree : FileTree) (pointer : List UInt8) : Option (List UInt8) := do
  let line ← firstLine? pointer
  let mark := "gitdir: ".toList
  if !mark.isPrefixOf line then none
  let folder := line.drop mark.length
  let shared ← (tree.read (Path.join folder "commondir".toList)).toOption.bind firstLine?
  let shared := if shared.head? == some '.' then Path.join folder shared else shared
  (tree.read (Path.join shared "info/exclude".toList)).toOption

def repositoryFile? (tree : FileTree) (place : Place) : Option (List UInt8) :=
  match fileBelow? tree place [".git".toList] with
  | some pointer => sharedRules? tree pointer
  | none => fileBelow? tree place [".git".toList, "info".toList, "exclude".toList]

def Level.read (tree : FileTree) (respectGit : Bool) (place : Place) : Level :=
  let rules (file : Option (List UInt8)) := (file.map rulesOf).getD []
  let git (file : Option (List UInt8)) := if respectGit then rules file else []
  ⟨rules (fileBelow? tree place [".ignore".toList]),
    git (fileBelow? tree place [".gitignore".toList]),
    git (repositoryFile? tree place),
    respectGit &&
      (existsBelow tree place [".git".toList] || existsBelow tree place [".jj".toList])⟩

/-- The rules that reach a folder, nearest first, each with the names that lead to the folder from
the one that brings them. -/
abbrev Chain := List (Level × List Name)

namespace Chain

def descend (chain : Chain) (name : Name) (level : Level) : Chain :=
  (level, []) :: chain.map fun c => (c.1, c.2 ++ [name])

def above (tree : FileTree) (respectGit : Bool) (place : Place) : Chain :=
  (List.range place.length).reverse.map fun n =>
    (Level.read tree respectGit (place.take n), place.drop n)

/-- The part of the chain up to the top of the innermost repository, or nothing outside one. -/
def inRepository (chain : Chain) : Chain :=
  match chain.span fun c => !c.1.isRepository with
  | (inner, top :: _) => inner ++ [top]
  | (_, []) => []

def verdict? (chain : Chain) (rules : Level → List Rule) (name : Name) (isFolder : Bool) :
    Option Verdict :=
  chain.findSome? fun c =>
    Ignore.verdict? (rules c.1) (Text.encode (['/'].intercalate (c.2 ++ [name]))) isFolder

/-- What all rules say about a name in the folder: plain ignore files first, then those of the
repository, then the rules that it keeps for itself. -/
def decide? (chain : Chain) (name : Name) (isFolder : Bool) : Option Verdict :=
  (chain.verdict? Level.ignoreRules name isFolder).or <|
    (chain.inRepository.verdict? Level.gitRules name isFolder).or <|
      chain.inRepository.verdict? Level.repositoryRules name isFolder

end Chain
end Synopsis.Walk
