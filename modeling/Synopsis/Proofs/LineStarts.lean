import Synopsis.Outline
import Synopsis.Proofs.Text.Boundary

/-!
# The line on which an offset lies

The row of an offset counts the newlines before it, and its line begins behind the last of them. So
both are known from the text before the offset.
-/

namespace Synopsis

namespace Text

def lastLine (text : List Char) : List Char := (text.reverse.takeWhile (· != '\n')).reverse

section LastLine

variable {a b : List Char}

theorem newline_not_mem_lastLine (text : List Char) : '\n' ∉ lastLine text := by
  intro h
  have hall := List.all_eq_true.mp List.all_takeWhile '\n' (List.mem_reverse.mp h)
  simp at hall

theorem takeWhile_reverse_append (h : '\n' ∉ a) (rest : List Char) :
    (a.reverse ++ rest).takeWhile (· != '\n') = a.reverse ++ rest.takeWhile (· != '\n') := by
  apply List.takeWhile_append_of_pos
  intro c hc
  have hne : c ≠ '\n' := fun he => h (he ▸ List.mem_reverse.mp hc)
  simpa using hne

theorem lastLine_of_not_mem (h : '\n' ∉ a) : lastLine a = a := by
  have hall := takeWhile_reverse_append h []
  rw [List.append_nil] at hall
  rw [lastLine, hall]
  simp

theorem lastLine_append_newline (hb : '\n' ∉ b) : lastLine (a ++ '\n' :: b) = b := by
  rw [lastLine, List.reverse_append, List.reverse_cons, List.append_assoc,
    takeWhile_reverse_append hb]
  simp

theorem exists_lastLine (h : '\n' ∈ a) : ∃ front, a = front ++ '\n' :: lastLine a := by
  obtain ⟨back, front, hsplit, hback⟩ := List.eq_append_cons_of_mem (List.mem_reverse.mpr h)
  have ha : a = front.reverse ++ '\n' :: back.reverse := by
    rw [← List.reverse_reverse a, hsplit]
    simp
  have hline : lastLine (front.reverse ++ '\n' :: back.reverse) = back.reverse :=
    lastLine_append_newline (by simpa using hback)
  exact ⟨front.reverse, by rw [ha, hline]⟩

theorem lastLine_append_of_mem (h : '\n' ∈ b) : lastLine (a ++ b) = lastLine b := by
  obtain ⟨front, hb⟩ := exists_lastLine h
  have hnot := newline_not_mem_lastLine b
  generalize lastLine b = line at hb hnot
  subst hb
  rw [← List.append_assoc, lastLine_append_newline hnot]

theorem lastLine_cons_of_mem (c : Char) (h : '\n' ∈ b) : lastLine (c :: b) = lastLine b :=
  lastLine_append_of_mem (a := [c]) h

theorem lastLine_append_of_not_mem (h : '\n' ∉ b) : lastLine (a ++ b) = lastLine a ++ b := by
  by_cases ha : '\n' ∈ a
  · obtain ⟨front, hsplit⟩ := exists_lastLine ha
    have hnot := newline_not_mem_lastLine a
    generalize lastLine a = line at hsplit hnot
    subst hsplit
    rw [List.append_assoc, List.cons_append, lastLine_append_newline]
    simp [hnot, h]
  · rw [lastLine_of_not_mem ha, lastLine_of_not_mem]
    simp [ha, h]

end LastLine

theorem position_row (before after : List Char) :
    (position (byteLength before) (before ++ after)).row = before.count '\n' := by
  induction before with
  | nil =>
    cases after with
    | nil => rfl
    | cons c after =>
      have hpos := c.utf8Size_pos
      simp [position, hpos]
  | cons c before ih =>
    have hge : ¬c.utf8Size + byteLength before < c.utf8Size := by omega
    have hrest : c.utf8Size + byteLength before - c.utf8Size = byteLength before := by omega
    rw [List.cons_append, byteLength_cons, position, if_neg hge, hrest]
    by_cases hc : c = '\n'
    · simp [hc, ih]
    · by_cases hrow : (position (byteLength before) (before ++ after)).row = 0
      · have hcount : before.count '\n' = 0 := by rw [← ih, hrow]
        simp [hc, hrow, hcount]
      · rw [if_neg hc, if_neg hrow, ih, List.count_cons_of_ne hc]

end Text

namespace Outline

theorem lineFrom_go (line : List Char) (pos : Nat) (before after : List Char) :
    lineFrom.go (pos + Text.byteLength before) line pos (before ++ after) =
      if '\n' ∈ before then Text.lastLine before ++ after else line := by
  induction before generalizing line pos with
  | nil =>
    cases after with
    | nil => rfl
    | cons c after => simp [lineFrom.go]
  | cons c before ih =>
    have hpos := c.utf8Size_pos
    have hlt : pos < pos + Text.byteLength (c :: before) := by
      rw [Text.byteLength_cons]
      omega
    have hstop : pos + Text.byteLength (c :: before) =
        pos + c.utf8Size + Text.byteLength before := by
      rw [Text.byteLength_cons, Nat.add_assoc]
    rw [List.cons_append, lineFrom.go, if_pos hlt, hstop, ih]
    by_cases hmem : '\n' ∈ before
    · simp [hmem, Text.lastLine_cons_of_mem c hmem]
    · by_cases hc : c = '\n'
      · have hline := Text.lastLine_append_newline (a := []) hmem
        simp only [List.nil_append] at hline
        simp [hmem, hc, hline]
      · simp [hmem, hc, Ne.symm hc]

theorem lineFrom_eq (before after : List Char) :
    lineFrom (before ++ after) (Text.byteLength before) = Text.lastLine before ++ after := by
  have hgo := lineFrom_go (before ++ after) 0 before after
  rw [Nat.zero_add] at hgo
  rw [lineFrom, hgo]
  split
  case isTrue => rfl
  case isFalse h => rw [Text.lastLine_of_not_mem h]

theorem lineIndent_eq {before after : List Char}
    (hline : ∀ c ∈ Text.lastLine before, Text.isSpaceOrTab c = true)
    (hafter : ∀ c ∈ after.head?, Text.isSpaceOrTab c = false) :
    lineIndent (before ++ after) (Text.byteLength before) = Text.lastLine before := by
  rw [lineIndent, lineFrom_eq, List.takeWhile_append_of_pos hline]
  cases after with
  | nil => simp
  | cons c after => simp [hafter c rfl]

end Outline

end Synopsis
