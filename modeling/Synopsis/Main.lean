import Synopsis.Command

/-!
# The program

Takes a snapshot of the files that a command line is about, does what it asks for, and carries the
effect out.
-/

namespace Synopsis.Main

open Command

def placeOf (current : Place) (path : List Char) : Place :=
  (Path.parts path).foldl
    (fun place part =>
      if part = [] ∨ part = ['.'] then place
      else if part = ['.', '.'] then place.dropLast
      else place ++ [part])
    (if Path.isAbsolute path then [] else current)

def pathOf (place : Place) : String := String.ofList ('/' :: ['/'].intercalate place)

/-- The node at a place alone. Links that lead somewhere are taken for what they lead to. -/
def nodeAt (place : Place) : IO (List (Place × Node)) := do
  try
    let path ← IO.FS.realPath (pathOf place)
    if ← path.isDir then return [(place, .folder)]
    return [(place, .file (← IO.FS.readBinFile path).toList)]
  catch _ => return []

partial def nodesBelow (place : Place) : IO (List (Place × Node)) := do
  match ← nodeAt place with
  | [(_, .folder)] =>
    let mut nodes := [(place, Node.folder)]
    for entry in ← (← IO.FS.realPath (pathOf place)).readDir do
      if (← entry.path.symlinkMetadata).type != .symlink then
        nodes := nodes ++ (← nodesBelow (place ++ [entry.fileName.toList]))
    return nodes
  | nodes => return nodes

def ruleFiles : List (List Name) :=
  [[".ignore".toList], [".gitignore".toList], [".jj".toList], [".git".toList],
    [".git".toList, "info".toList], [".git".toList, "info".toList, "exclude".toList]]

def nodesAbove (place : Place) : IO (List (Place × Node)) := do
  let mut nodes := []
  for n in List.range place.length do
    let folder := place.take n
    unless n = 0 do nodes := nodes ++ (← nodeAt folder)
    for names in ruleFiles do
      nodes := nodes ++ (← nodeAt (folder ++ names))
  return nodes

def outside (root : Place) (nodes : List (Place × Node)) : List (Place × Node) :=
  nodes.foldl
    (fun kept n => if root.isPrefixOf n.1 || kept.any (·.1 == n.1) then kept else kept ++ [n]) []

def snapshot (current : Place) : Request → IO FileTree
  | .map args => do
    let root := placeOf current args.root
    let mut around := ← nodesAbove (current ++ [[]])
    for path in args.config.toList ++ args.output.toList ++
        [args.root, Path.join ((Path.parent? args.root).getD []) Config.fileName] do
      let place := placeOf current path
      around := around ++ (← nodesAbove place) ++ (← nodeAt place)
    return ⟨outside root around ++ (← nodesBelow root), current⟩
  | _ => return ⟨[], current⟩

def carryOut (request : Request) (effect : Effect) : IO Unit := do
  match request with
  | .map args =>
    if let some path := args.output then
      if let .ok bytes := effect.tree.read path then
        IO.FS.writeBinFile (String.ofList path) ⟨bytes.toArray⟩
  | _ => pure ()
  IO.print (String.ofList effect.printed)
  if let some reduction := effect.reduction then
    IO.eprintln ("condensed " ++ String.ofList reduction.render)

def run (args : List (List Char)) : IO UInt32 := do
  let current := placeOf [] (← IO.currentDir).toString.toList
  let tree ← match Request.ofArgs args with
    | .ok request => snapshot current request
    | .error _ => pure FileTree.empty
  match Request.ofArgs args, execute tree args with
  | .ok request, .ok effect =>
    carryOut request effect
    return 0
  | _, .error complaint =>
    match complaint.message? with
    | some message => IO.eprintln ("error: " ++ String.ofList message)
    | none => IO.eprint (String.ofList helpText)
    return complaint.exitCode.toUInt32
  | _, _ => return 2

end Synopsis.Main

def main (args : List String) : IO UInt32 := Synopsis.Main.run (args.map String.toList)
