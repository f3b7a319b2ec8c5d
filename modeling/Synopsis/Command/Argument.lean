/-!
# Arguments of a command line

Arguments are read from left to right. `--name` and a single letter after a dash give an option,
letters may share a dash, and a value follows after an equals sign, after its letter, or as the next
argument, which then must not look like an option. After `--` nothing is an option.
-/

namespace Synopsis.Command

inductive Flag
  | output
  | maxLiteralLen
  | noFormat
  | exclude
  | includeHidden
  | lang
  | config
  | keepGoing
  | stats
  | encoding
  | verbose
  | help
  | version
deriving DecidableEq, Repr

namespace Flag

def name : Flag → String
  | output => "output"
  | maxLiteralLen => "max-literal-len"
  | noFormat => "no-format"
  | exclude => "exclude"
  | includeHidden => "include-hidden"
  | lang => "lang"
  | config => "config"
  | keepGoing => "keep-going"
  | stats => "stats"
  | encoding => "encoding"
  | verbose => "verbose"
  | help => "help"
  | version => "version"

def letter? : Flag → Option Char
  | output => some 'o'
  | verbose => some 'v'
  | help => some 'h'
  | version => some 'V'
  | _ => none

def takesValue : Flag → Bool
  | output | maxLiteralLen | exclude | lang | config | encoding => true
  | _ => false

end Flag

inductive Argument
  | flag (flag : Flag) (value : List Char)
  | positional (text : List Char)
  /-- no option of this name, no value where one is needed, or a value where none is taken -/
  | refused
deriving DecidableEq, Repr

def looksLikeFlag (arg : List Char) : Bool := arg.head? == some '-' && arg != ['-']

/-- The options that letters after a dash stand for, and an option whose value is still to come. The
rest of the letters is the value of an option that takes one. -/
def letters (scope : List Flag) : List Char → List Argument × Option Flag
  | [] => ([], none)
  | c :: rest =>
    match scope.find? fun f => f.letter? == some c with
    | none => ([.refused], none)
    | some f =>
      if f.takesValue then
        match rest with
        | [] => ([], some f)
        | '=' :: value => ([.flag f value], none)
        | value => ([.flag f value], none)
      else
        let (more, open?) := letters scope rest
        (.flag f [] :: more, open?)

def named (scope : List Flag) (text : List Char) : List Argument × Option Flag :=
  let name := text.takeWhile (· != '=')
  match scope.find? fun f => f.name.toList == name, text.drop name.length with
  | none, _ => ([.refused], none)
  | some f, [] => if f.takesValue then ([], some f) else ([.flag f []], none)
  | some f, _ :: value => if f.takesValue then ([.flag f value], none) else ([.refused], none)

def readOne (scope : List Flag) (arg : List Char) : List Argument × Option Flag :=
  match arg with
  | '-' :: '-' :: text => named scope text
  | ['-'] => ([.positional arg], none)
  | '-' :: text => letters scope text
  | _ => ([.positional arg], none)

def readAll (scope : List Flag) : List (List Char) → List Argument
  | [] => []
  | ['-', '-'] :: rest => rest.map .positional
  | arg :: rest =>
    match readOne scope arg with
    | (found, none) => found ++ readAll scope rest
    | (found, some f) =>
      match rest with
      | [] => found ++ [.refused]
      | value :: rest =>
        if looksLikeFlag value then found ++ [.refused]
        else found ++ .flag f value :: readAll scope rest

end Synopsis.Command
