import Synopsis.Filter
import Synopsis.MapError

/-!
# Why a run failed

Every failure has a message and a code that the program exits with.
-/

namespace Synopsis

inductive WalkError
  | notFound (path : List Char)
  | permissionDenied (path : List Char)
  | io (path cause : List Char)
deriving DecidableEq, Repr

def WalkError.message : WalkError → List Char
  | notFound path => "path not found: ".toList ++ path
  | permissionDenied path => "permission denied: ".toList ++ path
  | io path cause => "IO error at ".toList ++ path ++ ": ".toList ++ cause

inductive ConfigError
  | read (path cause : List Char)
  | parse (path cause : List Char)
deriving DecidableEq, Repr

def ConfigError.message : ConfigError → List Char
  | read path cause => "failed to read config ".toList ++ path ++ ": ".toList ++ cause
  | parse path cause => "invalid config ".toList ++ path ++ ": ".toList ++ cause

inductive Failure
  | pathNotFound (path : List Char)
  | noFilesFound (path : List Char)
  | io (cause : List Char)
  | walk (error : WalkError)
  | filter (error : FilterError)
  | config (error : ConfigError)
  | map (error : MapError)
  | output (cause : List Char)
deriving DecidableEq, Repr

namespace Failure

def message : Failure → List Char
  | pathNotFound path => "path not found: ".toList ++ path
  | noFilesFound path => "no files found in ".toList ++ path
  | io cause => "IO error: ".toList ++ cause
  | walk error => "walk error: ".toList ++ error.message
  | filter error => "filter error: ".toList ++ error.message
  | config error => "config error: ".toList ++ error.message
  | map error => "codemap error: ".toList ++ error.message
  | output cause => "output error: IO error: ".toList ++ cause

def exitCode : Failure → Nat
  | pathNotFound _ => 3
  | noFilesFound _ => 5
  | io _ => 1
  | walk (.notFound _) => 3
  | walk (.permissionDenied _) => 4
  | walk (.io _ _) => 2
  | filter _ => 2
  | config _ => 2
  | map error => if error.fatal then 70 else 1
  | output _ => 1

end Failure
end Synopsis
