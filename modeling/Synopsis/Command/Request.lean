import Synopsis.Command.Argument
import Synopsis.Language
import Synopsis.Reduction

/-!
# What a command line asks for
-/

namespace Synopsis.Command

structure MapArgs where
  path : Option (List Char) := none
  output : Option (List Char) := none
  limit : Option Nat := none
  noFormat : Bool := false
  exclude : List (List Char) := []
  includeHidden : Bool := false
  languages : List Language := []
  config : Option (List Char) := none
  keepGoing : Bool := false
  stats : Bool := false
  encoding : Option Encoding := none
deriving DecidableEq, Repr

inductive Shell
  | bash
  | elvish
  | fish
  | powershell
  | zsh
deriving DecidableEq, Repr

namespace Shell

def all : List Shell := [bash, elvish, fish, powershell, zsh]

def name : Shell → String
  | bash => "bash"
  | elvish => "elvish"
  | fish => "fish"
  | powershell => "powershell"
  | zsh => "zsh"

def ofName? (name : List Char) : Option Shell := all.find? fun s => s.name.toList == name

end Shell

inductive Request
  | map (args : MapArgs)
  | languages
  | completions (shell : Shell)
  | help
  | version
deriving DecidableEq, Repr

inductive Refusal
  | usage
  | empty
deriving DecidableEq, Repr

/-- A count: decimal digits, with an optional plus sign, of at most 64 bits. -/
def count? (text : List Char) : Option Nat :=
  let digits := match text with
    | '+' :: rest => rest
    | _ => text
  if digits.isEmpty || !digits.all Char.isDigit then none
  else
    let n := digits.foldl (fun n d => 10 * n + (d.toNat - '0'.toNat)) 0
    if n < UInt64.size then some n else none

def path? (text : List Char) : Option (List Char) := if text.isEmpty then none else some text

def splitCommas : List Char → List (List Char)
  | [] => [[]]
  | ',' :: rest => [] :: splitCommas rest
  | c :: rest =>
    match splitCommas rest with
    | p :: ps => (c :: p) :: ps
    | [] => [[c]]

def encoding? (text : List Char) : Option Encoding :=
  Encoding.all.find? fun e => e.shortName.toList == text

def once (old new : Option α) : Option (Option α) :=
  match old, new with
  | none, some a => some (some a)
  | _, _ => none

def switch (old : Bool) : Option Bool := if old then none else some true

namespace MapArgs

def set? (args : MapArgs) (value : List Char) : Flag → Option MapArgs
  | .output => (once args.output (path? value)).map fun v => { args with output := v }
  | .maxLiteralLen => (once args.limit (count? value)).map fun v => { args with limit := v }
  | .noFormat => (switch args.noFormat).map fun v => { args with noFormat := v }
  | .exclude => some { args with exclude := args.exclude ++ [value] }
  | .includeHidden => (switch args.includeHidden).map fun v => { args with includeHidden := v }
  | .lang => ((splitCommas value).mapM Language.ofExactName?).map fun v =>
      { args with languages := args.languages ++ v }
  | .config => (once args.config (path? value)).map fun v => { args with config := v }
  | .keepGoing => (switch args.keepGoing).map fun v => { args with keepGoing := v }
  | .stats => (switch args.stats).map fun v => { args with stats := v }
  | .encoding => (once args.encoding (encoding? value)).map fun v => { args with encoding := v }
  | .verbose => some args
  | .help | .version => none

def read (args : MapArgs) : List Argument → Except Refusal Request
  | [] => .ok (.map args)
  | .flag .help _ :: _ => .ok .help
  | .flag flag value :: rest =>
    match args.set? value flag with
    | some args => args.read rest
    | none => .error .usage
  | .positional text :: rest =>
    match once args.path (path? text) with
    | some path => { args with path := path }.read rest
    | none => .error .usage
  | .refused :: _ => .error .usage

end MapArgs

def mapFlags : List Flag :=
  [.output, .maxLiteralLen, .noFormat, .exclude, .includeHidden, .lang, .config, .keepGoing, .stats,
    .encoding, .verbose, .help]

def plainFlags : List Flag := [.verbose, .help]

def readPlain (one : Option (List Char) → Option Request) (seen : Option (List Char)) :
    List Argument → Except Refusal Request
  | [] =>
    match one seen with
    | some request => .ok request
    | none => .error .usage
  | .flag .help _ :: _ => .ok .help
  | .flag _ _ :: rest => readPlain one seen rest
  | .positional text :: rest =>
    if seen.isNone && (one (some text)).isSome then readPlain one (some text) rest
    else .error .usage
  | .refused :: _ => .error .usage

def languagesRequest? : Option (List Char) → Option Request
  | none => some .languages
  | some _ => none

def completionsRequest? : Option (List Char) → Option Request
  | none => none
  | some shell => (Shell.ofName? shell).map .completions

def commandNames : List String := ["map", "languages", "completions", "help"]

def readCommand (name : List Char) (rest : List (List Char)) : Except Refusal Request :=
  if name = "map".toList then MapArgs.read {} (readAll mapFlags rest)
  else if name = "languages".toList then readPlain languagesRequest? none (readAll plainFlags rest)
  else if name = "completions".toList then readPlain completionsRequest? none
    (readAll plainFlags rest)
  else if name = "help".toList then
    match rest with
    | [] => .ok .help
    | [topic] => if commandNames.any (·.toList == topic) then .ok .help else .error .usage
    | _ => .error .usage
  else .error .usage

/-- The first of the options before the command that asks for something of its own. -/
def outerRequest? : List Argument → Option (Except Refusal Request)
  | [] => none
  | .flag .help _ :: _ => some (.ok .help)
  | .flag .version _ :: _ => some (.ok .version)
  | .flag _ _ :: rest => outerRequest? rest
  | _ :: _ => some (.error .usage)

def readOuter : List (List Char) → Except Refusal Request
  | [] => .error .usage
  | arg :: rest =>
    if arg = ['-', '-'] then .error .usage
    else if looksLikeFlag arg then
      match outerRequest? (readOne [.verbose, .help, .version] arg).1 with
      | some request => request
      | none => readOuter rest
    else readCommand arg rest

def Request.ofArgs (args : List (List Char)) : Except Refusal Request :=
  if args.isEmpty then .error .empty else readOuter args

end Synopsis.Command
