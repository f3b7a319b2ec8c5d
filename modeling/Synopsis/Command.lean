import Synopsis.Command.Action
import Synopsis.Command.Request
import Synopsis.Job

/-!
# The commands of the program

Each command is an action on the files. Only the writing of a document to a file changes them, and
it comes after everything else went well.
-/

namespace Synopsis.Command

structure Output where
  printed : List Char
  reduction : Option Reduction := none
deriving DecidableEq, Repr

structure Effect extends Output where
  tree : FileTree
deriving DecidableEq, Repr

namespace MapArgs

def root (args : MapArgs) : List Char := args.path.getD ['.']

def override (args : MapArgs) (config : Config) : Config where
  limit := args.limit.getD config.limit
  reformat := config.reformat && !args.noFormat
  includeHidden := config.includeHidden || args.includeHidden
  exclude := config.exclude ++ args.exclude
  languages := if args.languages.isEmpty then config.languages else args.languages
  keepGoing := config.keepGoing || args.keepGoing

def configPath (args : MapArgs) (tree : FileTree) : Except Failure (List Char) :=
  match args.config with
  | none => .ok (Config.defaultPath tree args.root)
  | some path => if tree.pathExists path then .ok path else .error (.pathNotFound path)

def resolve (args : MapArgs) (tree : FileTree) : Except Failure Config := do
  let path ← args.configPath tree
  match Config.load tree path with
  | .ok config => .ok (args.override (config.getD {}))
  | .error e => .error (.config e)

def job (args : MapArgs) (config : Config) : Except Failure Job :=
  match Job.ofConfig args.root config with
  | .ok job =>
    .ok { job with encoding := if args.stats then some (args.encoding.getD .cl100kBase) else none }
  | .error e => .error (.filter e)

def checkRoot (args : MapArgs) (tree : FileTree) : Except Failure Unit :=
  if tree.pathExists args.root then .ok () else .error (.pathNotFound args.root)

/-- Writes the document to where it was asked for. A file is made empty first. -/
def deliver (args : MapArgs) (room : Option Nat) (report : Report) : Action Output := do
  let pieces := Document.pieces report.files
  match args.output with
  | none => return ⟨pieces.flatten, report.reduction⟩
  | some path =>
    let place ← Action.create path
    forM pieces fun piece => Action.append room place (Text.encode piece)
    return ⟨[], report.reduction⟩

/-- Abridges the files below a path and writes the document, on a device that may have room for only
so many bytes. -/
def perform (args : MapArgs) (room : Option Nat) : Action Output := do
  Action.look args.checkRoot
  let config ← Action.look args.resolve
  let job ← Action.look fun _ => args.job config
  let report ← Action.look job.run
  args.deliver room report

end MapArgs

def padded (width : Nat) (text : String) : List Char :=
  text.toList ++ List.replicate (width - text.length) ' '

def languageLine (l : Language) : List Char :=
  "  ".toList ++ padded 12 l.name ++ [' '] ++
    ", ".toList.intercalate (l.extensions.map fun e => '.' :: e.toList) ++ ['\n']

def languageList : List Char :=
  "Supported languages:\n".toList ++ Language.all.flatMap languageLine ++
    "Other text files are included unchanged.\n".toList

def completionScript (shell : Shell) : List Char :=
  let words := " ".toList.intercalate (commandNames.map String.toList)
  match shell with
  | .bash => "complete -W '".toList ++ words ++ "' condense\n".toList
  | .elvish =>
    "set edit:completion:arg-completer[condense] = [@words]\x7b all [".toList ++ words ++
      "] \x7d\n".toList
  | .fish => "complete -c condense -f -a '".toList ++ words ++ "'\n".toList
  | .powershell =>
    "Register-ArgumentCompleter -Native -CommandName condense -ScriptBlock \x7b '".toList ++
      words ++
      "' -split ' ' \x7d\n".toList
  | .zsh => "#compdef condense\ncompadd ".toList ++ words ++ ['\n']

def helpText : List Char :=
  ("Generate condensed code maps for LLM context\n\n" ++
    "Usage: condense [OPTIONS] <COMMAND>\n\n" ++
    "Commands:\n" ++
    "  map          Write the code map of a directory or file\n" ++
    "  languages    Show supported languages\n" ++
    "  completions  Generate shell completions\n" ++
    "  help         Print this message\n").toList

def versionText : List Char := "condense 0.1.0\n".toList

def Request.perform (room : Option Nat) : Request → Action Output
  | .map args => args.perform room
  | .languages => return ⟨languageList, none⟩
  | .completions shell => return ⟨completionScript shell, none⟩
  | .help => return ⟨helpText, none⟩
  | .version => return ⟨versionText, none⟩

inductive Complaint
  | refused (refusal : Refusal)
  | failed (failure : Failure)
deriving DecidableEq, Repr

def Complaint.exitCode : Complaint → Nat
  | refused _ => 2
  | failed failure => failure.exitCode

def Complaint.message? : Complaint → Option (List Char)
  | refused .usage => some "invalid arguments".toList
  | refused .empty => none
  | failed failure => some failure.message

def execute (tree : FileTree) (args : List (List Char)) : Except Complaint Effect :=
  match Request.ofArgs args with
  | .error refusal => .error (.refused refusal)
  | .ok request =>
    match (request.perform none).on tree with
    | (.ok output, tree) => .ok ⟨output, tree⟩
    | (.error failure, _) => .error (.failed failure)

end Synopsis.Command
