import Synopsis.Abridge
import Synopsis.Content
import Synopsis.Reduction
import Synopsis.Walk

/-!
# Abridging the files below a root

The files below a root that belong to the languages asked for are abridged one by one. Files that
hold no text are left out, and files that cannot be abridged either end the run or are left out.
-/

namespace Synopsis

inductive ErrorPolicy
  | abort
  | skip
deriving DecidableEq, Repr

structure SkippedFile where
  path : List Char
  reason : List Char
deriving DecidableEq, Repr

structure Report where
  files : List FileMap
  skipped : List SkippedFile
  reduction : Option Reduction
deriving DecidableEq, Repr

namespace Report

def render (report : Report) : List Char := Document.render report.files

/-- The abridged file of a path. Paths with the same components are the same. -/
def file? (report : Report) (path : List Char) : Option FileMap :=
  report.files.find? fun f => Path.components f.path == Path.components path

end Report

inductive Outcome
  | mapped (file : FileMap) (sizes : Option Reduction)
  | skipped (file : SkippedFile)
deriving DecidableEq, Repr

namespace Outcome

def file? : Outcome → Option FileMap
  | mapped file _ => some file
  | skipped _ => none

def skipped? : Outcome → Option SkippedFile
  | mapped _ _ => none
  | skipped file => some file

def sizes? : Outcome → Option Reduction
  | mapped _ sizes => sizes
  | skipped _ => none

end Outcome

structure Job where
  root : List Char
  map : MapOptions := {}
  walk : Walk.Options := {}
  /-- the languages asked for; none stand for all files -/
  languages : List Language := []
  policy : ErrorPolicy := .abort
  encoding : Option Encoding := none
deriving DecidableEq, Repr

namespace Job

def ofConfig (root : List Char) (config : Config) : Except FilterError Job :=
  match Exclude.compileAll config.exclude with
  | .error e => .error e
  | .ok patterns =>
    .ok {
      root := root
      map := ⟨config.limit, config.reformat⟩
      walk := { includeHidden := config.includeHidden, exclude := patterns }
      languages := config.languages
      policy := if config.keepGoing then .skip else .abort }

def mapText (job : Job) (path text : List Char) : Except MapError Outcome :=
  (Abridge.fileMap job.map path text).map fun file =>
    .mapped file (job.encoding.map fun e => Reduction.measure e.countTokens text file.content)

def attempt (job : Job) (tree : FileTree) (entry : FileEntry) : Except MapError Outcome :=
  match tree.read entry.path with
  | .error e => .error (.readFailed entry.relative e.message.toList)
  | .ok bytes =>
    match Content.text bytes with
    | .error reason => .ok (.skipped ⟨entry.relative, reason.message.toList⟩)
    | .ok text => job.mapText entry.relative text

/-- Deals with one file. A failure that is the file's own may leave it out. -/
def process (job : Job) (tree : FileTree) (entry : FileEntry) : Except MapError Outcome :=
  match job.attempt tree entry with
  | .ok outcome => .ok outcome
  | .error e =>
    if job.policy = .skip ∧ !e.fatal then .ok (.skipped ⟨entry.relative, e.message⟩) else .error e

def report (job : Job) (outcomes : List Outcome) : Report :=
  ⟨outcomes.filterMap Outcome.file?, outcomes.filterMap Outcome.skipped?,
    job.encoding.map fun _ => Reduction.sum (outcomes.filterMap Outcome.sizes?)⟩

def entries (job : Job) (tree : FileTree) : Except WalkError (List FileEntry) :=
  (Walk.files tree job.walk job.root).map fun found =>
    found.filter fun e => Language.admits job.languages e.relative

def run (job : Job) (tree : FileTree) : Except Failure Report :=
  if !tree.pathExists job.root then .error (.pathNotFound job.root)
  else
    match job.entries tree with
    | .error e => .error (.walk e)
    | .ok [] => .error (.noFilesFound job.root)
    | .ok entries =>
      match entries.mapM (job.process tree) with
      | .error e => .error (.map e)
      | .ok outcomes => .ok (job.report outcomes)

end Job
end Synopsis
