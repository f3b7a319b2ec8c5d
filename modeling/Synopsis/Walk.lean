import Synopsis.Config
import Synopsis.Walk.Level

/-!
# Listing the files below a root

A walk visits what is below a folder, except what ignore rules, or a dot at the start of a name,
leave out. The listing keeps the files that no exclude pattern matches, in the order of their paths.
-/

namespace Synopsis

structure FileEntry where
  path : List Char
  relative : List Char
deriving DecidableEq, Repr

namespace Walk

/-- Rules for the root alone are kept in a file of this name. -/
def ignoreFile : List Char := ".condenseignore".toList

structure Options where
  maxDepth : Option Nat := none
  followLinks : Bool := false
  includeHidden : Bool := false
  respectGit : Bool := true
  exclude : List Exclude.Pattern := []
deriving DecidableEq, Repr

inductive Kind
  | file
  | folder
  | link
deriving DecidableEq, Repr

structure Visit where
  entry : FileEntry
  kind : Kind
deriving DecidableEq, Repr

def dropDot : List Char → List Char
  | '.' :: '/' :: path => path
  | path => path

structure Folder where
  entry : FileEntry
  place : Place
  depth : Nat
  chain : Chain
  ancestors : List Place

namespace Folder

def child (folder : Folder) (name : Name) : FileEntry :=
  ⟨Path.join folder.entry.path name, Path.join folder.entry.relative name⟩

/-- What a name in the folder stands for, and at which place. A link that leads back to a folder
above makes a loop. -/
def kindOf (tree : FileTree) (options : Options) (folder : Folder) (name : Name) :
    Except AccessError (Kind × Place) :=
  let place := folder.place ++ [name]
  match tree.get? place with
  | some (.file _) => .ok (.file, place)
  | some .folder => .ok (.folder, place)
  | some (.link _) =>
    if options.followLinks then
      match tree.follow false FileTree.linkLimit folder.place [name] with
      | .ok target =>
        if !tree.isFolderAt target then .ok (.file, target)
        else if folder.ancestors.contains target then .error .tooManyLinks
        else .ok (.folder, target)
      | .error e => .error e
    else .ok (.link, place)
  | none => .error .missing

/-- The name is left out. The root's own rules come last, and match the whole path. -/
def skips (options : Options) (rootRules : List Ignore.Rule) (folder : Folder) (name : Name)
    (isFolder : Bool) : Bool :=
  let path := Text.encode (dropDot (dropDot (folder.child name).path))
  match (folder.chain.decide? name isFolder).or (Ignore.verdict? rootRules path isFolder) with
  | some .ignore => true
  | some .keep => false
  | none => !options.includeHidden && name.head? == some '.'

def descend (tree : FileTree) (options : Options) (folder : Folder) (name : Name) (place : Place) :
    Folder :=
  ⟨folder.child name, place, folder.depth + 1,
    folder.chain.descend name (Level.read tree options.respectGit place),
    place :: folder.ancestors⟩

end Folder

def visit (tree : FileTree) (options : Options) (rootRules : List Ignore.Rule) :
    Nat → Folder → List (Except AccessError Visit)
  | 0, _ => []
  | fuel + 1, folder =>
    if options.maxDepth.any (· ≤ folder.depth) then []
    else
      (tree.names folder.place).flatMap fun name =>
        match folder.kindOf tree options name with
        | .error e => [.error e]
        | .ok (kind, place) =>
          if folder.skips options rootRules name (kind == .folder) then []
          else
            .ok ⟨folder.child name, kind⟩ ::
              if kind == .folder then
                visit tree options rootRules fuel (folder.descend tree options name place)
              else []

/-- No walk goes deeper: a link is followed to each folder at most once, and from there at most as
many folders down as there are. -/
def depthBound (tree : FileTree) : Nat := (tree.nodes.length + 2) * (tree.nodes.length + 2)

def visits (tree : FileTree) (options : Options) (root : List Char) (place : Place) :
    List (Except AccessError Visit) :=
  let rootRules := ((tree.read (Path.join root ignoreFile)).toOption.map Ignore.rulesOf).getD []
  let chain := (Level.read tree options.respectGit place, []) ::
    Chain.above tree options.respectGit place
  visit tree options rootRules (depthBound tree) ⟨⟨root, []⟩, place, 0, chain, [place]⟩

/-- The file belongs into a listing. The settings and the rules of the root do not. -/
def lists (exclude : List Exclude.Pattern) (relative : List Char) : Bool :=
  relative != ignoreFile && relative != Config.fileName && !Exclude.excludes exclude relative

def listing (exclude : List Exclude.Pattern) (found : List (Except AccessError Visit)) :
    List FileEntry :=
  let files := found.filterMap fun v =>
    match v with
    | .ok ⟨entry, .file⟩ => if lists exclude entry.relative then some entry else none
    | _ => none
  files.mergeSort fun a b => Path.le a.relative b.relative

/-- What a walk tells of: the path of something that it came to and its kind, or a failure. -/
abbrev Sighting := Except AccessError (List Char × Kind)

def located (root : List Char) (seen : List Char × Kind) : Visit :=
  ⟨⟨seen.1, (Path.below? root seen.1).getD seen.1⟩, seen.2⟩

def collect (root : List Char) (exclude : List Exclude.Pattern) (found : List Sighting) :
    List FileEntry :=
  listing exclude (found.map (Except.map (located root)))

def rootError (root : List Char) : AccessError → WalkError
  | .missing => .notFound root
  | e => .io root e.message.toList

def files (tree : FileTree) (options : Options) (root : List Char) :
    Except WalkError (List FileEntry) :=
  match tree.locate root with
  | .error e => .error (rootError root e)
  | .ok place =>
    if tree.isFolderAt place then .ok (listing options.exclude (visits tree options root place))
    else .ok [⟨root, (Path.fileName? root).getD root⟩]

end Walk
end Synopsis
