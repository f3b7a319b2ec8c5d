import Synopsis.Span

/-!
# Cutting a text by byte offsets

A text is a list of characters, and offsets count the bytes of its encoding. An offset that falls
inside a character, or past the end, is no place to cut.
-/

namespace Synopsis.Text

def dropBytes? : Nat → List Char → Option (List Char)
  | 0, text => some text
  | _ + 1, [] => none
  | n + 1, c :: text => if c.utf8Size ≤ n + 1 then dropBytes? (n + 1 - c.utf8Size) text else none

def takeBytes? : Nat → List Char → Option (List Char)
  | 0, _ => some []
  | _ + 1, [] => none
  | n + 1, c :: text =>
    if c.utf8Size ≤ n + 1 then (takeBytes? (n + 1 - c.utf8Size) text).map (c :: ·) else none

def slice? (text : List Char) (span : Span) : Option (List Char) :=
  if span.start ≤ span.stop then
    (dropBytes? span.start text).bind (takeBytes? (span.stop - span.start))
  else none

/-- A place in a text: lines and bytes of the line, both counted from zero. -/
structure Position where
  row : Nat
  column : Nat
deriving DecidableEq, Repr

def position (offset : Nat) : List Char → Position
  | [] => ⟨0, offset⟩
  | c :: text =>
    if offset < c.utf8Size then ⟨0, offset⟩
    else
      let p := position (offset - c.utf8Size) text
      if c = '\n' then ⟨p.row + 1, p.column⟩
      else if p.row = 0 then ⟨0, p.column + c.utf8Size⟩ else p

end Synopsis.Text
