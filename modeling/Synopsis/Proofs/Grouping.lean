import Synopsis.Number.Grouped

/-!
# Groups of three digits

Where a comma stands depends on how many digits are still to come. Written from the front, the
digits fall into groups whose first has the length that remains modulo three, so all others have
three digits. Without its commas a grouped number is the number, which can be read back.
-/

namespace Synopsis.Number

section Digits

variable {ds : List Char}

theorem groupDigits_cons (d : Char) (ds : List Char) :
    (ds.length % 3 = 0 ∧ ds ≠ [] ∧ groupDigits (d :: ds) = d :: ',' :: groupDigits ds) ∨
    ((ds.length % 3 ≠ 0 ∨ ds = []) ∧ groupDigits (d :: ds) = d :: groupDigits ds) := by
  by_cases h : ds.length % 3 = 0 ∧ ds ≠ []
  · refine .inl ⟨h.1, h.2, ?_⟩
    rw [groupDigits, if_pos h]
  · refine .inr ⟨?_, ?_⟩
    · by_cases hds : ds = []
      · exact .inr hds
      · exact .inl fun hmod => h ⟨hmod, hds⟩
    · rw [groupDigits, if_neg h]

theorem filter_groupDigits (h : ',' ∉ ds) : (groupDigits ds).filter (· ≠ ',') = ds := by
  induction ds with
  | nil => rfl
  | cons d ds ih =>
    have hd : d ≠ ',' := (List.ne_of_not_mem_cons h).symm
    have hrest := ih (List.not_mem_of_not_mem_cons h)
    rcases groupDigits_cons d ds with ⟨-, -, he⟩ | ⟨-, he⟩
    · rw [he, List.filter_cons_of_pos (by simpa using hd), List.filter_cons_of_neg (by simp),
        hrest]
    · rw [he, List.filter_cons_of_pos (by simpa using hd), hrest]

theorem head?_groupDigits (ds : List Char) : (groupDigits ds).head? = ds.head? := by
  cases ds with
  | nil => rfl
  | cons d ds =>
    rcases groupDigits_cons d ds with ⟨-, -, he⟩ | ⟨-, he⟩ <;> rw [he] <;> rfl

theorem getLast?_groupDigits (ds : List Char) : (groupDigits ds).getLast? = ds.getLast? := by
  induction ds with
  | nil => rfl
  | cons d ds ih =>
    rcases groupDigits_cons d ds with ⟨-, hne, he⟩ | ⟨-, he⟩
    · obtain ⟨last, hlast⟩ := Option.isSome_iff_exists.mp (List.getLast?_isSome.mpr hne)
      rw [he, List.getLast?_cons, List.getLast?_cons, List.getLast?_cons, ih, hlast]
      rfl
    · rw [he, List.getLast?_cons, List.getLast?_cons, ih]

theorem not_doubled_groupDigits (h : ',' ∉ ds) : ¬[',', ','] <:+: groupDigits ds := by
  induction ds with
  | nil => simp [groupDigits]
  | cons d ds ih =>
    have hd : ',' ≠ d := List.ne_of_not_mem_cons h
    have hds : ',' ∉ ds := List.not_mem_of_not_mem_cons h
    have hhead : (groupDigits ds).head? ≠ some ',' := by
      rw [head?_groupDigits]
      exact fun he => hds (List.mem_of_head? he)
    have hcomma : ¬[','] <+: groupDigits ds := by
      rintro ⟨rest, hrest⟩
      rw [← hrest] at hhead
      exact hhead rfl
    rcases groupDigits_cons d ds with ⟨-, -, he⟩ | ⟨-, he⟩
    · rw [he]
      simp only [List.infix_cons_iff, List.cons_prefix_cons]
      rintro (⟨hfirst, -⟩ | ⟨-, hnext⟩ | hin)
      · exact hd hfirst
      · exact hcomma hnext
      · exact ih hds hin
    · rw [he, List.infix_cons_iff, List.cons_prefix_cons]
      rintro (⟨hfirst, -⟩ | hin)
      · exact hd hfirst
      · exact ih hds hin

structure InThrees (ds first : List Char) (rest : List (List Char)) : Prop where
  digits : first ++ rest.flatten = ds
  -- what remains modulo three is the length of the first group
  remaining : first.length % 3 = ds.length % 3
  nonempty : first ≠ []
  atMost : first.length ≤ 3
  threes : ∀ g ∈ rest, g.length = 3

theorem InThrees.cons_comma {first : List Char} {rest : List (List Char)}
    (h : InThrees ds first rest) (hmod : ds.length % 3 = 0) (d : Char) :
    InThrees (d :: ds) [d] (first :: rest) where
  digits := by simp [← h.digits]
  remaining := by
    simp only [List.length_cons, List.length_nil]
    omega
  nonempty := by simp
  atMost := by simp
  threes g hg := by
    rcases List.mem_cons.mp hg with rfl | hg
    · have hpos := List.length_pos_iff.mpr h.nonempty
      have hmod' := h.remaining
      have hle := h.atMost
      omega
    · exact h.threes g hg

theorem InThrees.cons {first : List Char} {rest : List (List Char)} (h : InThrees ds first rest)
    (hmod : ds.length % 3 ≠ 0) (d : Char) : InThrees (d :: ds) (d :: first) rest where
  digits := by simp [← h.digits]
  remaining := by
    have hrem := h.remaining
    simp only [List.length_cons]
    omega
  nonempty := by simp
  atMost := by
    have hrem := h.remaining
    have hle := h.atMost
    simp only [List.length_cons]
    omega
  threes := h.threes

theorem exists_inThrees (h : ds ≠ []) :
    ∃ first rest, InThrees ds first rest ∧ groupDigits ds = [','].intercalate (first :: rest) := by
  induction ds with
  | nil => exact absurd rfl h
  | cons d ds ih =>
    by_cases hds : ds = []
    · subst hds
      exact ⟨[d], [], ⟨rfl, rfl, by simp, by simp, by simp⟩, by simp [groupDigits]⟩
    · obtain ⟨first, rest, hthrees, heq⟩ := ih hds
      rcases groupDigits_cons d ds with ⟨hmod, -, he⟩ | ⟨hmod, he⟩
      · refine ⟨[d], first :: rest, hthrees.cons_comma hmod d, ?_⟩
        rw [he, heq, List.intercalate_cons_cons]
        rfl
      · refine ⟨d :: first, rest, hthrees.cons (hmod.resolve_right hds) d, ?_⟩
        rw [he, heq]
        cases rest with
        | nil => simp
        | cons g rest => rw [List.intercalate_cons_cons, List.intercalate_cons_cons]; rfl

theorem splitOn_groupDigits (hne : ds ≠ []) (h : ',' ∉ ds) :
    ∃ first rest, InThrees ds first rest ∧ (groupDigits ds).splitOn ',' = first :: rest := by
  obtain ⟨first, rest, hthrees, heq⟩ := exists_inThrees hne
  refine ⟨first, rest, hthrees, ?_⟩
  rw [heq]
  refine List.splitOn_intercalate ',' (fun g hg hcomma => h ?_) (by simp)
  rw [← hthrees.digits, ← List.flatten_cons]
  exact List.mem_flatten.mpr ⟨g, hg, hcomma⟩

end Digits

theorem comma_not_mem_toDigits (n : Nat) : ',' ∉ Nat.toDigits 10 n := by
  intro h
  have hdigit := Nat.isDigit_of_mem_toDigits (by decide) (by decide) h
  exact absurd hdigit (by decide)

/-- A number without its commas is the number in decimal digits, from which it can be read back, so
different numbers look different. Split at its commas it gives a first group of one to three digits
and further groups of three. No comma stands first, last or beside another one. -/
theorem grouped_in_threes (n : Nat) :
    (grouped n).filter (· ≠ ',') = (toString n).toList ∧
    Nat.ofDigitChars 10 ((grouped n).filter (· ≠ ',')) 0 = n ∧
    (∀ m, grouped m = grouped n → m = n) ∧
    (∃ first rest, (grouped n).splitOn ',' = first :: rest ∧
      1 ≤ first.length ∧ first.length ≤ 3 ∧ (∀ g ∈ rest, g.length = 3) ∧
      ∀ g ∈ first :: rest, ∀ c ∈ g, c.isDigit = true) ∧
    (grouped n).head? ≠ some ',' ∧ (grouped n).getLast? ≠ some ',' ∧
    ¬[',', ','] <:+: grouped n := by
  have hcomma := comma_not_mem_toDigits n
  have hdigits : ∀ m, (grouped m).filter (· ≠ ',') = Nat.toDigits 10 m :=
    fun m => filter_groupDigits (comma_not_mem_toDigits m)
  have hread : ∀ m, Nat.ofDigitChars 10 ((grouped m).filter (· ≠ ',')) 0 = m := by
    intro m
    rw [hdigits]
    exact Nat.ofDigitChars_ten_toDigits
  refine ⟨?_, hread n, fun m h => ?_, ?_, ?_, ?_, not_doubled_groupDigits hcomma⟩
  · rw [hdigits, Nat.toString_eq_repr, Nat.toList_repr]
  · rw [← hread m, h, hread n]
  · obtain ⟨first, rest, hthrees, hsplit⟩ := splitOn_groupDigits Nat.toDigits_ne_nil hcomma
    refine ⟨first, rest, hsplit, List.length_pos_iff.mpr hthrees.nonempty, hthrees.atMost,
      hthrees.threes, fun g hg c hc => ?_⟩
    have hmem : c ∈ Nat.toDigits 10 n := by
      rw [← hthrees.digits, ← List.flatten_cons]
      exact List.mem_flatten.mpr ⟨g, hg, hc⟩
    exact Nat.isDigit_of_mem_toDigits (by decide) (by decide) hmem
  · rw [grouped, head?_groupDigits]
    exact fun h => hcomma (List.mem_of_head? h)
  · rw [grouped, getLast?_groupDigits]
    exact fun h => hcomma (List.mem_of_getLast? h)

example : grouped 1234567 = "1,234,567".toList := by decide

end Synopsis.Number
