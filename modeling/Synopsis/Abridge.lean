import Synopsis.Outline
import Synopsis.Splice
import Synopsis.Layout
import Synopsis.MapError
import Synopsis.Document
import Synopsis.Grammar.Go
import Synopsis.Grammar.Java
import Synopsis.Grammar.Python
import Synopsis.Grammar.Rust
import Synopsis.Grammar.Script

/-!
# Abridging a text

A text is read, the bodies and literals in its tree are planned into cuts, and the cuts are made.
Where the language has a normal layout, the result is read again and laid out.
-/

namespace Synopsis

open Syntax

def Language.tree : Language → List Char → Tree
  | .go, text => Grammar.Go.tree text
  | .java, text => Grammar.Java.tree text
  | .python, text => Grammar.Python.tree text
  | .javaScript, text => Grammar.Script.tree Grammar.Script.javaScript text
  | .typeScript, text => Grammar.Script.tree Grammar.Script.typeScript text
  | .tsx, text => Grammar.Script.tree Grammar.Script.tsx text
  | .rust, text => Grammar.Rust.tree text

def Language.outline (language : Language) (text : List Char) : Outline :=
  .ofTree language text (language.tree text)

structure MapOptions where
  /-- the number of characters that a literal may keep -/
  limit : Nat := 100
  reformat : Bool := true
deriving DecidableEq, Repr

namespace Abridge

def protectedSpans (language : Language) (text : List Char) (tree : Tree) : List Span :=
  ((tree.preorder.filter fun t => language.shortens t.kind).map Tree.span).filter fun s =>
    (Text.slice? text s).any (·.contains '\n')

def layoutTree (language : Language) (path text : List Char) (tree : Tree) :
    Except MapError (List Char) :=
  if tree.hasError then
    let place := Text.position (tree.firstError.getD tree.start) text
    .error (.format path language (MapError.unreadableMessage place))
  else .ok (Layout.normalize text (protectedSpans language text tree))

def layout (language : Language) (path text : List Char) : Except MapError (List Char) :=
  let text := text ++ ['\n']
  layoutTree language path text (language.tree text)

def withOutline (language : Language) (path text : List Char) (options : MapOptions)
    (outline : Outline) : Except MapError (List Char) :=
  match plan text outline.bodies outline.literals ⟨options.limit, language.placeholder?⟩ with
  | .error c => .error (.conflict path c.first c.second)
  | .ok cuts =>
    let result := Splice.apply text cuts
    if options.reformat && language.hasLayout then layout language path result else .ok result

def source (language : Language) (path text : List Char) (options : MapOptions) :
    Except MapError (List Char) :=
  withOutline language path text options (language.outline text)

def file (path text : List Char) (options : MapOptions) : Except MapError (List Char) :=
  match Language.ofPath? path with
  | some language => source language path text options
  | none => .ok text

def fileMap (options : MapOptions) (path text : List Char) : Except MapError FileMap :=
  (file path text options).map fun content => ⟨path, Language.ofPath? path, content⟩

/-- The maps of some texts with their paths, in the order of the paths. Texts with the same path
stay in the order in which they are given. -/
def sources (options : MapOptions) (texts : List (List Char × List Char)) :
    Except MapError (List FileMap) :=
  (texts.mapM fun t => fileMap options t.1 t.2).map fun files =>
    files.mergeSort fun a b => Path.le a.path b.path

end Abridge
end Synopsis
