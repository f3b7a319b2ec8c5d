import Synopsis.Failure
import Synopsis.FileTree

/-!
# Actions on files

What a command does, part by part. A part that looks at the files sees what the parts before it have
made of them, and a part that fails ends the command but undoes nothing.
-/

namespace Synopsis.Command

/-- Gives a value or fails, and in either case leaves the files in some state. -/
abbrev Action := ExceptT Failure (StateM FileTree)

namespace Action

def on (action : Action α) (tree : FileTree) : Except Failure α × FileTree :=
  Id.run (StateT.run (ExceptT.run action) tree)

@[simp] theorem on_mk (f : FileTree → Except Failure α × FileTree) (tree : FileTree) :
    on (ExceptT.mk f) tree = f tree := rfl

@[simp] theorem on_pure (a : α) (tree : FileTree) :
    (pure a : Action α).on tree = (.ok a, tree) := rfl

theorem on_bind (action : Action α) (next : α → Action β) (tree : FileTree) :
    (action >>= next).on tree = match action.on tree with
      | (.ok a, tree) => (next a).on tree
      | (.error e, tree) => (.error e, tree) := by
  change (ExceptT.bindCont next (action.on tree).1).run (action.on tree).2 = _
  cases action.on tree with
  | mk result tree => cases result <;> rfl

def look (f : FileTree → Except Failure α) : Action α := ExceptT.mk fun tree => (f tree, tree)

@[simp] theorem on_look (f : FileTree → Except Failure α) (tree : FileTree) :
    (look f).on tree = (f tree, tree) := rfl

theorem on_look_bind (f : FileTree → Except Failure α) (next : α → Action β) (tree : FileTree) :
    (look f >>= next).on tree = match f tree with
      | .ok a => (next a).on tree
      | .error e => (.error e, tree) := by
  rw [on_bind, on_look]
  cases f tree <;> rfl

def create (path : List Char) : Action Place :=
  ExceptT.mk fun tree =>
    match tree.create path with
    | .ok (place, tree) => (.ok place, tree)
    | .error e => (.error (.io e.message.toList), tree)

theorem on_create (path : List Char) (tree : FileTree) :
    (create path).on tree = match tree.target path with
      | .ok place => (.ok place, tree.put place (.file []))
      | .error e => (.error (.io e.message.toList), tree) := by
  rw [create, on_mk, FileTree.create]
  cases tree.target path <;> rfl

def fullMessage : String := "No space left on device (os error 28)"

def fits (room : Option Nat) (bytes : List UInt8) : Bool := room.all (bytes.length ≤ ·)

def kept (room : Option Nat) (bytes : List UInt8) : List UInt8 :=
  match room with
  | none => bytes
  | some n => bytes.take n

/-- Writes bytes to the end of the file at a place. What the device has no room for is lost. -/
def append (room : Option Nat) (place : Place) (bytes : List UInt8) : Action Unit :=
  ExceptT.mk fun tree =>
    let bytes := tree.bytesAt place ++ bytes
    (if fits room bytes then .ok () else .error (.output fullMessage.toList),
      tree.put place (.file (kept room bytes)))

end Action
end Synopsis.Command
