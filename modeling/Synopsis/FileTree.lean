import Synopsis.Text.Path

/-!
# File trees

A snapshot of a file system. A place is the list of the names that lead to it from the top; a path
is text, and following it leads to a place unless a name is missing, a name is no folder where one
is needed, or too many links come one after the other.
-/

namespace Synopsis

abbrev Name := List Char

abbrev Place := List Name

inductive Node
  | file (bytes : List UInt8)
  | folder
  | link (target : List Char)
deriving DecidableEq, Repr

inductive AccessError
  | missing
  | notFolder
  | isFolder
  | tooManyLinks
deriving DecidableEq, Repr

def AccessError.message : AccessError → String
  | missing => "No such file or directory (os error 2)"
  | notFolder => "Not a directory (os error 20)"
  | isFolder => "Is a directory (os error 21)"
  | tooManyLinks => "Too many levels of symbolic links (os error 40)"

/-- The nodes of a tree below its top, and the place that relative paths start from. -/
structure FileTree where
  nodes : List (Place × Node)
  current : Place
deriving DecidableEq, Repr

namespace FileTree

def linkLimit : Nat := 40

def empty : FileTree := ⟨[], []⟩

def get? (tree : FileTree) (place : Place) : Option Node :=
  if place = [] then some .folder else tree.nodes.lookup place

def put (tree : FileTree) (place : Place) (node : Node) : FileTree :=
  { tree with nodes := tree.nodes.filter (fun n => n.1 != place) ++ [(place, node)] }

def isFolderAt (tree : FileTree) (place : Place) : Bool :=
  match tree.get? place with
  | some .folder => true
  | _ => false

def names (tree : FileTree) (place : Place) : List Name :=
  tree.nodes.filterMap fun n =>
    match n.1.getLast? with
    | some name => if n.1.dropLast = place then some name else none
    | none => none

/-- Follows the parts of a path from a place up to the first link, from where `onLink` goes on. With
`create`, the last name need not be there. -/
def followParts (tree : FileTree) (create : Bool)
    (onLink : Place → List Name → Except AccessError Place) (place : Place) :
    List Name → Except AccessError Place
  | [] => .ok place
  | part :: rest =>
    if !tree.isFolderAt place then .error .notFolder
    else if part = [] ∨ part = ['.'] then tree.followParts create onLink place rest
    else if part = ['.', '.'] then tree.followParts create onLink place.dropLast rest
    else
      match tree.get? (place ++ [part]) with
      | none => if create && rest.isEmpty then .ok (place ++ [part]) else .error .missing
      | some (.link target) =>
        onLink (if Path.isAbsolute target then [] else place) (Path.parts target ++ rest)
      | some _ => tree.followParts create onLink (place ++ [part]) rest

/-- Follows the parts of a path from a place, through at most so many links. -/
def follow (tree : FileTree) (create : Bool) : Nat → Place → List Name → Except AccessError Place
  | 0 => tree.followParts create fun _ _ => .error .tooManyLinks
  | links + 1 => tree.followParts create (tree.follow create links)

section Follow

variable (tree : FileTree) (create : Bool)

theorem follow_nil (links : Nat) (place : Place) :
    tree.follow create links place [] = .ok place := by
  cases links <;> rfl

theorem follow_cons (links : Nat) (place : Place) (part : Name) (rest : List Name) :
    tree.follow create links place (part :: rest) =
      if !tree.isFolderAt place then .error .notFolder
      else if part = [] ∨ part = ['.'] then tree.follow create links place rest
      else if part = ['.', '.'] then tree.follow create links place.dropLast rest
      else
        match tree.get? (place ++ [part]), links with
        | none, _ => if create && rest.isEmpty then .ok (place ++ [part]) else .error .missing
        | some (.link _), 0 => .error .tooManyLinks
        | some (.link target), links + 1 =>
          tree.follow create links (if Path.isAbsolute target then [] else place)
            (Path.parts target ++ rest)
        | some _, _ => tree.follow create links (place ++ [part]) rest := by
  cases links with
  | zero =>
    rw [follow, followParts]
    cases tree.get? (place ++ [part]) with
    | none => rfl
    | some node => cases node <;> rfl
  | succ links =>
    rw [follow, followParts]
    cases tree.get? (place ++ [part]) with
    | none => rfl
    | some node => cases node <;> rfl

end Follow

def startOf (tree : FileTree) (path : List Char) : Place :=
  if Path.isAbsolute path then [] else tree.current

def locate (tree : FileTree) (path : List Char) : Except AccessError Place :=
  if path = [] then .error .missing
  else tree.follow false linkLimit (tree.startOf path) (Path.parts path)

def stat (tree : FileTree) (path : List Char) : Except AccessError Node :=
  match tree.locate path with
  | .ok place =>
    match tree.get? place with
    | some node => .ok node
    | none => .error .missing
  | .error e => .error e

def pathExists (tree : FileTree) (path : List Char) : Bool :=
  match tree.stat path with
  | .ok _ => true
  | .error _ => false

def isFile (tree : FileTree) (path : List Char) : Bool :=
  match tree.stat path with
  | .ok (.file _) => true
  | _ => false

def read (tree : FileTree) (path : List Char) : Except AccessError (List UInt8) :=
  match tree.stat path with
  | .ok (.file bytes) => .ok bytes
  | .ok _ => .error .isFolder
  | .error e => .error e

/-- The place that a file is written to. A path that ends in a separator cannot be one. -/
def target (tree : FileTree) (path : List Char) : Except AccessError Place :=
  if path = [] then .error .missing
  else if path.getLast? = some '/' then
    match tree.follow false linkLimit (tree.startOf path)
      (Path.parts ((Path.parent? path).getD [])) with
    | .ok place => .error (if tree.isFolderAt place then .isFolder else .notFolder)
    | .error e => .error e
  else
    match tree.follow true linkLimit (tree.startOf path) (Path.parts path) with
    | .ok place => if tree.isFolderAt place then .error .isFolder else .ok place
    | .error e => .error e

def bytesAt (tree : FileTree) (place : Place) : List UInt8 :=
  match tree.get? place with
  | some (.file bytes) => bytes
  | _ => []

def create (tree : FileTree) (path : List Char) : Except AccessError (Place × FileTree) :=
  match tree.target path with
  | .ok place => .ok (place, tree.put place (.file []))
  | .error e => .error e

def write (tree : FileTree) (path : List Char) (bytes : List UInt8) : Except AccessError FileTree :=
  match tree.target path with
  | .ok place => .ok (tree.put place (.file bytes))
  | .error e => .error e

def addFolders (tree : FileTree) (place : Place) : List Name → FileTree
  | [] => tree
  | part :: rest =>
    match tree.follow true linkLimit place [part] with
    | .ok next =>
      match tree.get? next with
      | none => (tree.put next .folder).addFolders next rest
      | some _ => tree.addFolders next rest
    | .error _ => tree

def addFolder (tree : FileTree) (path : List Char) : FileTree :=
  tree.addFolders (tree.startOf path) (Path.parts path)

def addParent (tree : FileTree) (path : List Char) : FileTree :=
  match Path.parent? path with
  | some parent => tree.addFolder parent
  | none => tree

def addFile (tree : FileTree) (path : List Char) (bytes : List UInt8) : FileTree :=
  match (tree.addParent path).write path bytes with
  | .ok tree => tree
  | .error _ => tree

def addLink (tree : FileTree) (path target : List Char) : FileTree :=
  let tree := tree.addParent path
  match tree.follow false linkLimit (tree.startOf path) (Path.parts ((Path.parent? path).getD [])),
      Path.fileName? path with
  | .ok place, some name => tree.put (place ++ [name]) (.link target)
  | _, _ => tree

end FileTree
end Synopsis
