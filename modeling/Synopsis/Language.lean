import Synopsis.Text.Path

/-!
# Languages

The languages whose texts can be abridged, their names and the file extensions that belong to them.
-/

namespace Synopsis

inductive Language
  | go
  | java
  | python
  | javaScript
  | typeScript
  | tsx
  | rust
deriving DecidableEq, Repr

namespace Language

def all : List Language := [go, java, python, javaScript, typeScript, tsx, rust]

def name : Language → String
  | go => "go"
  | java => "java"
  | python => "python"
  | javaScript => "javascript"
  | typeScript => "typescript"
  | tsx => "tsx"
  | rust => "rust"

def extensions : Language → List String
  | go => ["go"]
  | java => ["java"]
  | python => ["py", "pyi"]
  | javaScript => ["js", "jsx", "mjs", "cjs"]
  | typeScript => ["ts", "mts", "cts"]
  | tsx => ["tsx"]
  | rust => ["rs"]

def aliases : Language → List String
  | go => ["go", "golang"]
  | java => ["java"]
  | python => ["python", "py"]
  | javaScript => ["javascript", "js", "jsx"]
  | typeScript => ["typescript", "ts"]
  | tsx => ["tsx"]
  | rust => ["rust", "rs"]

def lower (text : List Char) : List Char := text.map Char.toLower

def ofExtension? (extension : List Char) : Option Language :=
  all.find? fun l => l.extensions.any fun e => e.toList == lower extension

def ofName? (name : List Char) : Option Language :=
  all.find? fun l => l.aliases.any fun a => a.toList == lower name

def ofExactName? (name : List Char) : Option Language := all.find? fun l => l.name.toList == name

def ofPath? (path : List Char) : Option Language := (Path.extension? path).bind ofExtension?

/-- The path belongs to one of the languages; no languages stand for all paths. -/
def admits (allowed : List Language) (path : List Char) : Bool :=
  allowed.isEmpty || (ofPath? path).any allowed.contains

/-- The statement that stands in for a body that is left out, where the language needs one. -/
def placeholder? : Language → Option String
  | python => some "pass"
  | _ => none

theorem placeholder?_eq_none {language : Language} (h : language ≠ .python) :
    language.placeholder? = none := by
  cases language with
  | python => exact absurd rfl h
  | _ => rfl

def hasLayout : Language → Bool
  | go => true
  | _ => false

end Language
end Synopsis
