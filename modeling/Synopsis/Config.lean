import Synopsis.FileTree
import Synopsis.Failure
import Synopsis.Toml.Reader

/-!
# Settings

The settings of a run as they are kept in a file. A setting that is not given has its default.
-/

namespace Synopsis

structure Config where
  limit : Nat := 100
  reformat : Bool := true
  includeHidden : Bool := false
  exclude : List (List Char) := []
  languages : List Language := []
  keepGoing : Bool := false
deriving DecidableEq, Repr

namespace Config

open Toml

def fileName : List Char := "condense.toml".toList

def boolean? : Value → Option Bool
  | .boolean b => some b
  | _ => none

def natural? : Value → Option Nat
  | .integer n => if 0 ≤ n then some n.toNat else none
  | _ => none

def text? : Value → Option (List Char)
  | .string text => some text
  | _ => none

def array? (item? : Value → Option α) : Value → Option (List α)
  | .array values => values.mapM item?
  | _ => none

/-- A language is given by its name, alone or as the key of a table with an empty value. -/
def language? : Value → Option Language
  | .string name => Language.ofExactName? name
  | .table [(name, .array [])] | .table [(name, .table [])] => Language.ofExactName? name
  | _ => none

def set? (config : Config) (key : List Char) (value : Value) : Option Config :=
  match String.ofList key with
  | "max_literal_len" => (natural? value).map fun n => { config with limit := n }
  | "reformat" => (boolean? value).map fun b => { config with reformat := b }
  | "include_hidden" => (boolean? value).map fun b => { config with includeHidden := b }
  | "exclude" => (array? text? value).map fun texts => { config with exclude := texts }
  | "languages" => (array? language? value).map fun ls => { config with languages := ls }
  | "keep_going" => (boolean? value).map fun b => { config with keepGoing := b }
  | _ => none

def ofText? (text : List Char) : Option Config :=
  (Toml.read? text).bind fun settings => settings.foldlM (fun c s => c.set? s.1 s.2) {}

def defaultPath (tree : FileTree) (root : List Char) : List Char :=
  Path.join (if tree.isFile root then (Path.parent? root).getD root else root) fileName

def load (tree : FileTree) (path : List Char) : Except ConfigError (Option Config) :=
  if !tree.pathExists path then .ok none
  else
    match tree.read path with
    | .error e => .error (.read path e.message.toList)
    | .ok bytes =>
      match Text.decode? bytes with
      | none => .error (.read path "stream did not contain valid UTF-8".toList)
      | some text =>
        match ofText? text with
        | none => .error (.parse path "not a valid setting".toList)
        | some config => .ok (some config)

end Config
end Synopsis
