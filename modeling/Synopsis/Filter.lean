import Synopsis.Exclude
import Synopsis.Language
import Synopsis.Text.Quoted

/-!
# Settings that choose files

Names of languages and exclude patterns as they are asked for, and what may be wrong with them.
-/

namespace Synopsis

inductive FilterError
  | unknownLanguage (name : List Char)
  | invalidPattern (pattern : List Char) (cause : Exclude.PatternError)
deriving DecidableEq, Repr

def FilterError.message : FilterError → List Char
  | unknownLanguage name => "unknown language: ".toList ++ name
  | invalidPattern pattern cause =>
    "invalid exclude pattern ".toList ++ Text.quoted pattern ++ ": ".toList ++ cause.message

def Language.ofName (name : List Char) : Except FilterError Language :=
  match ofName? name with
  | some language => .ok language
  | none => .error (.unknownLanguage name)

def Language.ofNames (names : List (List Char)) : Except FilterError (List Language) :=
  names.mapM ofName

def Exclude.compile (text : List Char) : Except FilterError Exclude.Pattern :=
  match Pattern.ofText text with
  | .ok pattern => .ok pattern
  | .error cause => .error (.invalidPattern text cause)

def Exclude.compileAll (texts : List (List Char)) : Except FilterError (List Exclude.Pattern) :=
  texts.mapM compile

end Synopsis
