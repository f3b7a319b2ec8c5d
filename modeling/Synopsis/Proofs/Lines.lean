import Synopsis.Layout

/-!
# The lines of a text

A text is empty, a last line without a newline, or a line with its newline and a text behind it.
What is to be shown of all texts line by line is shown for these three.
-/

namespace Synopsis.Layout

section Lines

variable {content : List Char} (h : '\n' ∉ content)

include h

theorem lines_append_newline (rest : List Char) :
    lines (content ++ '\n' :: rest) = ⟨content, true⟩ :: lines rest := by
  induction content with
  | nil => rw [List.nil_append, lines]
  | cons c content ih =>
    obtain ⟨hc, hcontent⟩ := List.ne_and_not_mem_of_not_mem_cons h
    rw [List.cons_append, lines, ih hcontent]
    exact fun he => hc he.symm

theorem lines_of_not_mem (hne : content ≠ []) : lines content = [⟨content, false⟩] := by
  induction content with
  | nil => exact absurd rfl hne
  | cons c content ih =>
    obtain ⟨hc, hcontent⟩ := List.ne_and_not_mem_of_not_mem_cons h
    rw [lines]
    · by_cases hnil : content = []
      · simp [hnil, lines]
      · rw [ih hcontent hnil]
    · exact fun he => hc he.symm

end Lines

@[elab_as_elim]
theorem lines_induction {motive : List Char → Prop} (nil : motive [])
    (last : ∀ content, '\n' ∉ content → content ≠ [] → motive content)
    (line : ∀ content rest, '\n' ∉ content → motive rest → motive (content ++ '\n' :: rest))
    (text : List Char) : motive text := by
  by_cases h : '\n' ∈ text
  · obtain ⟨content, rest, htext, hnot⟩ := List.eq_append_cons_of_mem h
    rw [htext]
    exact line content rest hnot (lines_induction nil last line rest)
  · by_cases hnil : text = []
    · exact hnil ▸ nil
    · exact last text h hnil
termination_by text.length
decreasing_by
  simp only [htext, List.length_append, List.length_cons]
  omega

end Synopsis.Layout
