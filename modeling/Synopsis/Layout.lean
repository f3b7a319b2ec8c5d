import Synopsis.Span
import Synopsis.Text.Blank
import Synopsis.Text.Utf8

/-!
# Normal layout

Spaces and tabs at the ends of lines go, and of several blank lines in a row one stays. Lines whose
newline lies inside a protected span are left alone.
-/

namespace Synopsis.Layout

structure Line where
  content : List Char
  newline : Bool
deriving DecidableEq, Repr

/-- The lines of a text; only the last may lack its newline, and is then not empty. -/
def lines : List Char → List Line
  | [] => []
  | '\n' :: rest => ⟨[], true⟩ :: lines rest
  | c :: rest =>
    match lines rest with
    | ⟨content, newline⟩ :: ls => ⟨c :: content, newline⟩ :: ls
    | [] => [⟨[c], false⟩]

def Line.text (l : Line) : List Char := if l.newline then l.content ++ ['\n'] else l.content

def isProtected (spans : List Span) (lineEnd : Nat) : Bool :=
  spans.any fun s => Span.StrictlyInside lineEnd s

/-- Goes through lines from an offset; `afterBlank` says that the last line written was blank. -/
def tidy (spans : List Span) : Nat → Bool → List Line → List Char
  | _, _, [] => []
  | offset, afterBlank, l :: ls =>
    let lineEnd := offset + Text.byteLength l.content
    let next := if l.newline then lineEnd + 1 else lineEnd
    if isProtected spans lineEnd then l.text ++ tidy spans next false ls
    else
      let content := Text.dropEndWhile Text.isSpaceOrTab l.content
      if content.isEmpty && afterBlank then tidy spans next true ls
      else Line.text { l with content } ++ tidy spans next content.isEmpty ls

def normalize (text : List Char) (spans : List Span) : List Char :=
  Text.trim (tidy spans 0 false (lines text))

end Synopsis.Layout
