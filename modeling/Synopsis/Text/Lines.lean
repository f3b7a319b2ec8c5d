/-!
# Counting lines
-/

namespace Synopsis.Text

/-- The number of lines, counting a last line that has no newline. -/
def countLines (text : List Char) : Nat :=
  let newlines := text.count '\n'
  if text.isEmpty || text.getLast? == some '\n' then newlines else newlines + 1

end Synopsis.Text
