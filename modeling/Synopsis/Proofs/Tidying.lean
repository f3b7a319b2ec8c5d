import Synopsis.Proofs.Lines
import Synopsis.Proofs.Tracing

/-!
# What normal layout deletes

Laying out a text takes characters away from it and adds none. Which ones may go can be seen from
the line on which they stand: blanks up to the end of their line, and the newline of a blank line,
as long as the line does not end inside a protected span. A span that begins and ends with other
characters than blanks then loses none of them, two words on one line keep the blanks between them,
and two words on different lines keep the newline behind the first.
-/

namespace Synopsis.Layout

open Synopsis.Span Synopsis.Splice

inductive Removable (spans : List Span) (before : List Char) (c : Char) (rest : List Char) : Prop
  | trailing (blanks after : List Char) (hrest : rest = blanks ++ after)
      (hc : Text.isSpaceOrTab c = true) (hblanks : ∀ d ∈ blanks, Text.isSpaceOrTab d = true)
      (hend : ∀ d ∈ after.head?, d = '\n')
      (hloose : isProtected spans (Text.byteLength (before ++ c :: blanks)) = false)
  | blankLine (earlier blanks : List Char) (hbefore : before = earlier ++ blanks) (hc : c = '\n')
      (hstart : ∀ d ∈ earlier.getLast?, d = '\n')
      (hblanks : ∀ d ∈ blanks, Text.isSpaceOrTab d = true)
      (hloose : isProtected spans (Text.byteLength before) = false)

inductive Tidies (spans : List Span) :
    List Char → List Char → List (Char × Option Nat) → Prop
  | nil {before : List Char} : Tidies spans before [] []
  | keep {before rest : List Char} {c : Char} {kept : List (Char × Option Nat)}
      (h : Tidies spans (before ++ [c]) rest kept) :
      Tidies spans before (c :: rest) ((c, some (Text.byteLength before)) :: kept)
  | remove {before rest : List Char} {c : Char} {kept : List (Char × Option Nat)}
      (hc : Removable spans before c rest) (h : Tidies spans (before ++ [c]) rest kept) :
      Tidies spans before (c :: rest) kept

/-- What going through the lines of a text behind a part of it keeps, line by line: a line that ends
in a protected span stays, a blank line behind a blank line goes, and any other line loses the
blanks at its end. -/
inductive Laid (spans : List Span) :
    List Char → Bool → List Char → List (Char × Option Nat) → Prop
  | nil {before : List Char} {afterBlank : Bool} : Laid spans before afterBlank [] []
  | heldLast {before content : List Char} {afterBlank : Bool} (hnot : '\n' ∉ content)
      (hheld : isProtected spans (Text.byteLength (before ++ content)) = true) :
      Laid spans before afterBlank content (placed (Text.byteLength before) content)
  | looseLast {before content : List Char} {afterBlank : Bool} (hnot : '\n' ∉ content)
      (hloose : isProtected spans (Text.byteLength (before ++ content)) = false) :
      Laid spans before afterBlank content
        (placed (Text.byteLength before) (Text.dropEndWhile Text.isSpaceOrTab content))
  | held {before content rest : List Char} {afterBlank : Bool} {kept : List (Char × Option Nat)}
      (hnot : '\n' ∉ content)
      (hheld : isProtected spans (Text.byteLength (before ++ content)) = true)
      (h : Laid spans (before ++ content ++ ['\n']) false rest kept) :
      Laid spans before afterBlank (content ++ '\n' :: rest)
        (placed (Text.byteLength before) content ++
          ('\n', some (Text.byteLength (before ++ content))) :: kept)
  | dropped {before content rest : List Char} {kept : List (Char × Option Nat)}
      (hstart : ∀ d ∈ before.getLast?, d = '\n')
      (hblanks : ∀ d ∈ content, Text.isSpaceOrTab d = true)
      (hloose : isProtected spans (Text.byteLength (before ++ content)) = false)
      (h : Laid spans (before ++ content ++ ['\n']) true rest kept) :
      Laid spans before true (content ++ '\n' :: rest) kept
  | stripped {before content rest : List Char} {afterBlank : Bool}
      {kept : List (Char × Option Nat)} (hnot : '\n' ∉ content)
      (hloose : isProtected spans (Text.byteLength (before ++ content)) = false)
      (hfirst : afterBlank = true → Text.dropEndWhile Text.isSpaceOrTab content ≠ [])
      (h : Laid spans (before ++ content ++ ['\n'])
        (Text.dropEndWhile Text.isSpaceOrTab content).isEmpty rest kept) :
      Laid spans before afterBlank (content ++ '\n' :: rest)
        (placed (Text.byteLength before) (Text.dropEndWhile Text.isSpaceOrTab content) ++
          ('\n', some (Text.byteLength (before ++ content))) :: kept)

theorem isBlank_of_isSpaceOrTab {c : Char} (h : Text.isSpaceOrTab c = true) :
    Text.isBlank c = true := by
  simp only [Text.isSpaceOrTab, Bool.or_eq_true, beq_iff_eq] at h
  rcases h with rfl | rfl <;> decide

section Split

variable {α : Type} {front back a b : List α} {x : α}

theorem split_behind_of_not_mem (h : front ++ back = a ++ x :: b) (hx : x ∉ front) :
    ∃ m, a = front ++ m ∧ back = m ++ x :: b := by
  rcases List.append_eq_append_iff.mp h with hin | ⟨m, hfront, hm⟩
  · exact hin
  · cases m with
    | nil => exact ⟨[], by simpa using hfront.symm, by simpa using hm.symm⟩
    | cons y m =>
      obtain ⟨rfl, -⟩ := List.cons.inj hm
      exact absurd (by simp [hfront]) hx

theorem split_before_of_not_mem (h : front ++ back = a ++ x :: b) (hx : x ∉ back) :
    ∃ m, front = a ++ x :: m ∧ b = m ++ back := by
  rcases List.append_eq_append_iff.mp h with ⟨m, -, hm⟩ | ⟨m, hfront, hm⟩
  · exact absurd (by simp [hm]) hx
  · cases m with
    | nil =>
      rw [List.nil_append] at hm
      exact absurd (by simp [← hm]) hx
    | cons y m =>
      obtain ⟨rfl, rfl⟩ := List.cons.inj hm
      exact ⟨m, hfront, rfl⟩

end Split

section Removable

variable {spans : List Span} {before rest : List Char} {c : Char}

theorem Removable.cases_char (h : Removable spans before c rest) :
    c = ' ' ∨ c = '\t' ∨ c = '\n' := by
  cases h with
  | trailing _ _ _ hc _ _ _ =>
    simp only [Text.isSpaceOrTab, Bool.or_eq_true, beq_iff_eq] at hc
    exact or_assoc.mp (.inl hc)
  | blankLine _ _ _ hc _ _ _ => exact .inr (.inr hc)

theorem Removable.isBlank (h : Removable spans before c rest) : Text.isBlank c = true := by
  rcases h.cases_char with rfl | rfl | rfl <;> decide

theorem not_isSpaceOrTab {x : Char} (h : Text.isBlank x = false) :
    ¬Text.isSpaceOrTab x = true := by
  intro hx
  rw [isBlank_of_isSpaceOrTab hx] at h
  cases h

theorem not_removable_before {gap after : List Char} {y : Char} (hc : c ≠ '\n')
    (hgap : '\n' ∉ gap) (hy : Text.isBlank y = false) :
    ¬Removable spans before c (gap ++ y :: after) := by
  intro h
  cases h with
  | blankLine _ _ _ hnewline _ _ _ => exact hc hnewline
  | trailing blanks line hrest _ hblanks hend _ =>
    -- the blanks end before the word, so the line would end in the gap
    obtain ⟨m, rfl, rfl⟩ := split_behind_of_not_mem hrest.symm fun hmem =>
      not_isSpaceOrTab hy (hblanks y hmem)
    cases m with
    | nil => exact absurd hy (by rw [hend y (by simp)]; decide)
    | cons d m => exact hgap (by simp [hend d (by simp)])

theorem not_removable_behind {gap : List Char} {x : Char} (hx : Text.isBlank x = false)
    (hgap : '\n' ∉ gap) : ¬Removable spans (before ++ x :: gap) '\n' rest := by
  intro h
  cases h with
  | trailing _ _ _ hc _ _ _ => exact absurd hc (by decide)
  | blankLine earlier blanks hbefore _ hstart hblanks _ =>
    -- the blanks begin behind the word, so the line before would end in the gap
    obtain ⟨m, rfl, rfl⟩ := split_before_of_not_mem hbefore.symm fun hmem =>
      not_isSpaceOrTab hx (hblanks x hmem)
    rcases List.eq_nil_or_concat m with rfl | ⟨m, d, rfl⟩
    · exact absurd hx (by rw [hstart x (by simp)]; decide)
    · refine hgap ?_
      rw [← hstart d (by simp [List.getLast?_cons])]
      simp

/-- The span holds a part of the text that begins and ends with other characters than blanks. -/
def Inked (text : List Char) (s : Span) : Prop :=
  ∃ slice, Text.slice? text s = some slice ∧ slice ≠ [] ∧
    (∀ d ∈ slice.head?, Text.isBlank d = false) ∧ ∀ d ∈ slice.getLast?, Text.isBlank d = false

theorem Inked.start_ne {s : Span} (h : Inked (before ++ c :: rest) s)
    (hc : Text.isBlank c = true) : s.start ≠ Text.byteLength before := by
  intro hstart
  obtain ⟨slice, hslice, hne, hhead, -⟩ := h
  obtain ⟨p, q, htext, hp, -⟩ := Text.slice?_eq_some_iff.mp hslice
  rw [List.append_assoc] at htext
  obtain ⟨-, htail⟩ := Text.append_inj_of_byteLength_eq htext (by omega)
  cases slice with
  | nil => exact hne rfl
  | cons d slice =>
    obtain ⟨rfl, -⟩ := List.cons.inj htail
    have hd := hhead c (by simp)
    rw [hc] at hd
    cases hd

theorem not_strictlyInside {lineEnd : Nat} (h : isProtected spans lineEnd = false) {s : Span}
    (hs : s ∈ spans) : ¬StrictlyInside lineEnd s := by
  rw [isProtected, List.any_eq_false] at h
  simpa using h s hs

theorem mem_of_covered {p slice m a tail : List Char} {d : Char}
    (h : p ++ (slice ++ [d]) ++ m = a ++ tail)
    (hlt : Text.byteLength a < Text.byteLength (p ++ (slice ++ [d]))) : d ∈ tail := by
  have hsplit : p ++ slice ++ d :: m = a ++ tail := by simpa using h
  rcases List.append_eq_append_iff.mp hsplit with ⟨n, rfl, htail⟩ | ⟨n, -, htail⟩
  · cases n with
    | nil =>
      rw [List.nil_append] at htail
      simp [← htail]
    | cons e n =>
      obtain ⟨rfl, -⟩ := List.cons.inj htail
      simp only [Text.byteLength_append, Text.byteLength_cons, Text.byteLength_nil] at hlt
      omega
  · simp [htail]

theorem Removable.not_covers (h : Removable spans before c rest) {s : Span} (hs : s ∈ spans)
    (hink : Inked (before ++ c :: rest) s) : ¬s.Covers (Text.byteLength before) := by
  rintro ⟨hstart, hstop⟩
  cases h with
  | trailing blanks after hrest hc hblanks hend hloose =>
    obtain ⟨slice, hslice, hne, -, hlast⟩ := hink
    obtain ⟨p, q, htext, hp, hq⟩ := Text.slice?_eq_some_iff.mp hslice
    -- the line ends behind the span, so the span ends with one of the blanks
    have hinside := not_strictlyInside hloose hs
    simp only [StrictlyInside, Text.byteLength_append, Text.byteLength_cons] at hinside
    have hpos := c.utf8Size_pos
    have hline : p ++ slice ++ q = before ++ c :: blanks ++ after := by
      rw [← htext, hrest, List.append_assoc, List.cons_append]
    obtain ⟨m, hm, -⟩ := Text.append_split_of_le hline (by
      simp only [Text.byteLength_append, Text.byteLength_cons]
      omega)
    obtain ⟨slice, d, hslice⟩ := (List.eq_nil_or_concat slice).resolve_left hne
    rw [List.concat_eq_append] at hslice
    subst hslice
    have hmem : d ∈ c :: blanks := mem_of_covered hm.symm (by
      rw [Text.byteLength_append]
      omega)
    have hd : Text.isSpaceOrTab d = true := by
      rcases List.mem_cons.mp hmem with rfl | hd
      · exact hc
      · exact hblanks d hd
    exact not_isSpaceOrTab (hlast d (by simp)) hd
  | blankLine earlier blanks hbefore hc hline hblanks hloose =>
    -- the span would begin at the newline
    have hinside := not_strictlyInside hloose hs
    simp only [StrictlyInside] at hinside
    exact hink.start_ne (by rw [hc]; decide) (by omega)

end Removable

section Tidies

variable {spans : List Span} {before rest : List Char} {kept : List (Char × Option Nat)}

theorem Tidies.sublist (h : Tidies spans before rest kept) :
    kept.Sublist (placed (Text.byteLength before) rest) := by
  induction h with
  | nil => exact .slnil
  | keep h ih => simpa [placed] using ih
  | remove hc h ih => exact .cons _ (by simpa using ih)

theorem Tidies.removable (h : Tidies spans before rest kept) {a b : List Char} {c : Char}
    (hrest : rest = a ++ c :: b) (hc : (c, some (Text.byteLength (before ++ a))) ∉ kept) :
    Removable spans (before ++ a) c b := by
  induction h generalizing a with
  | nil => simp at hrest
  | @keep before rest d kept h ih =>
    cases a with
    | nil =>
      obtain ⟨rfl, rfl⟩ := List.cons.inj hrest
      exact absurd (by simp) hc
    | cons e a =>
      obtain ⟨rfl, rfl⟩ := List.cons.inj hrest
      simpa using ih rfl (by simpa using fun hmem => hc (List.mem_cons_of_mem _ hmem))
  | @remove before rest d kept hd h ih =>
    cases a with
    | nil =>
      obtain ⟨rfl, rfl⟩ := List.cons.inj hrest
      simpa using hd
    | cons e a =>
      obtain ⟨rfl, rfl⟩ := List.cons.inj hrest
      simpa using ih rfl (by simpa using hc)

theorem Tidies.split {a : List Char} (h : Tidies spans before (a ++ rest) kept) :
    ∃ front back, kept = front ++ back ∧ front.Sublist (placed (Text.byteLength before) a) ∧
      Tidies spans (before ++ a) rest back := by
  induction a generalizing before kept with
  | nil => exact ⟨[], kept, rfl, .slnil, by simpa using h⟩
  | cons c a ih =>
    cases h with
    | keep h =>
      obtain ⟨front, back, rfl, hfront, hback⟩ := ih h
      exact ⟨_ :: front, back, rfl, by simpa [placed] using hfront, by simpa using hback⟩
    | remove hc h =>
      obtain ⟨front, back, rfl, hfront, hback⟩ := ih h
      exact ⟨front, back, rfl, .cons _ (by simpa using hfront), by simpa using hback⟩

theorem Tidies.split_whole {a : List Char} (h : Tidies spans before (a ++ rest) kept)
    (ha : ∀ p c q, a = p ++ c :: q → ¬Removable spans (before ++ p) c (q ++ rest)) :
    ∃ back, kept = placed (Text.byteLength before) a ++ back ∧
      Tidies spans (before ++ a) rest back := by
  induction a generalizing before kept with
  | nil => exact ⟨kept, rfl, by simpa using h⟩
  | cons c a ih =>
    cases h with
    | keep h =>
      obtain ⟨back, rfl, hback⟩ := ih h fun p d q hq => by
        simpa [hq] using ha (c :: p) d q (by simp [hq])
      exact ⟨back, by simp [placed], by simpa using hback⟩
    | remove hc h => exact absurd (by simpa using hc) (ha [] c a rfl)

theorem Tidies.keep_append (a : List Char) (h : Tidies spans (before ++ a) rest kept) :
    Tidies spans before (a ++ rest) (placed (Text.byteLength before) a ++ kept) := by
  induction a generalizing before with
  | nil => simpa [placed] using h
  | cons c a ih =>
    have htail := @ih (before ++ [c]) (by simpa using h)
    exact .keep (by simpa using htail)

theorem Tidies.remove_append (blanks : List Char)
    (hblanks : ∀ d ∈ blanks, Text.isSpaceOrTab d = true) (hend : ∀ d ∈ rest.head?, d = '\n')
    (hloose : isProtected spans (Text.byteLength (before ++ blanks)) = false)
    (h : Tidies spans (before ++ blanks) rest kept) :
    Tidies spans before (blanks ++ rest) kept := by
  induction blanks generalizing before with
  | nil => simpa using h
  | cons c blanks ih =>
    have htail : Tidies spans (before ++ [c]) (blanks ++ rest) kept := by
      apply ih
      · exact fun d hd => hblanks d (by simp [hd])
      · simpa using hloose
      · simpa using h
    refine .remove (.trailing blanks rest rfl (hblanks c (by simp)) ?_ hend hloose) htail
    exact fun d hd => hblanks d (by simp [hd])

theorem Tidies.strip (content : List Char) (hend : ∀ d ∈ rest.head?, d = '\n')
    (hloose : isProtected spans (Text.byteLength (before ++ content)) = false)
    (h : Tidies spans (before ++ content) rest kept) :
    Tidies spans before (content ++ rest)
      (placed (Text.byteLength before) (Text.dropEndWhile Text.isSpaceOrTab content) ++ kept) := by
  obtain ⟨blanks, hsplit, hblanks⟩ := exists_dropEndWhile Text.isSpaceOrTab content
  generalize Text.dropEndWhile Text.isSpaceOrTab content = front at hsplit ⊢
  subst hsplit
  rw [← List.append_assoc] at h hloose
  rw [List.append_assoc]
  exact .keep_append front (.remove_append blanks hblanks hend hloose h)

theorem exists_laid (spans : List Span) (text : List Char) :
    ∀ before afterBlank, (∀ d ∈ before.getLast?, d = '\n') → ∃ kept,
      kept.map Prod.fst = tidy spans (Text.byteLength before) afterBlank (lines text) ∧
        Laid spans before afterBlank text kept := by
  induction text using lines_induction with
  | nil => exact fun before afterBlank _ => ⟨[], rfl, .nil⟩
  | last content hnot hne =>
    intro before afterBlank _
    rw [lines_of_not_mem hnot hne]
    simp only [tidy, Line.text, Bool.false_eq_true, if_false, List.append_nil]
    by_cases hheld : isProtected spans (Text.byteLength before + Text.byteLength content) = true
    · exact ⟨_, by simp [hheld], .heldLast hnot (by simpa using hheld)⟩
    · rw [Bool.not_eq_true] at hheld
      refine ⟨_, ?_, .looseLast hnot (by simpa using hheld)⟩
      simp only [hheld, Bool.false_eq_true, if_false, map_fst_placed]
      split
      case isTrue hblank => exact List.isEmpty_iff.mp (Bool.and_eq_true_iff.mp hblank).1
      case isFalse => rfl
  | line content rest hnot ih =>
    intro before afterBlank hstart
    have hnext : Text.byteLength before + Text.byteLength content + 1 =
        Text.byteLength (before ++ content ++ ['\n']) := by
      simp only [Text.byteLength_append, Text.byteLength_cons, Text.byteLength_nil]
      rfl
    rw [lines_append_newline hnot]
    simp only [tidy, Line.text, if_true]
    by_cases hheld : isProtected spans (Text.byteLength before + Text.byteLength content) = true
    · obtain ⟨kept, hkept, hlaid⟩ := ih (before ++ content ++ ['\n']) false (by simp)
      exact ⟨_, by simp [hheld, hnext, hkept], .held hnot (by simpa using hheld) hlaid⟩
    · rw [Bool.not_eq_true] at hheld
      have hloose : isProtected spans (Text.byteLength (before ++ content)) = false := by
        simpa using hheld
      simp only [hheld, Bool.false_eq_true, if_false, hnext]
      split
      case isTrue hblank =>
        obtain ⟨kept, hkept, hlaid⟩ := ih (before ++ content ++ ['\n']) true (by simp)
        obtain ⟨hempty, rfl⟩ := Bool.and_eq_true_iff.mp hblank
        obtain ⟨blanks, hsplit, hblanks⟩ := exists_dropEndWhile Text.isSpaceOrTab content
        rw [List.isEmpty_iff.mp hempty, List.nil_append] at hsplit
        exact ⟨kept, hkept, .dropped hstart (hsplit ▸ hblanks) hloose hlaid⟩
      case isFalse hblank =>
        obtain ⟨kept, hkept, hlaid⟩ := ih (before ++ content ++ ['\n'])
          (Text.dropEndWhile Text.isSpaceOrTab content).isEmpty (by simp)
        refine ⟨_, by simp [hkept], .stripped hnot hloose ?_ hlaid⟩
        intro hafter hnil
        exact hblank (by simp [hafter, hnil])

theorem Laid.tidies {afterBlank : Bool} (h : Laid spans before afterBlank rest kept) :
    Tidies spans before rest kept := by
  induction h with
  | nil => exact .nil
  | @heldLast before content =>
    have hdone : Tidies spans (before ++ content) [] [] := .nil
    simpa using Tidies.keep_append content hdone
  | @looseLast before content _ _ hloose =>
    have hdone : Tidies spans (before ++ content) [] [] := .nil
    simpa using Tidies.strip content (by simp) hloose hdone
  | held _ _ _ ih => exact .keep_append _ (.keep ih)
  | dropped hstart hblanks hloose _ ih =>
    -- a blank line goes with its newline
    refine .remove_append _ hblanks (by simp) hloose ?_
    exact .remove (.blankLine _ _ rfl rfl hstart hblanks hloose) ih
  | stripped _ hloose _ _ ih => exact .strip _ (by simp) hloose (.keep ih)

theorem exists_tidies (spans : List Span) (text : List Char) :
    ∃ kept, kept.map Prod.fst = tidy spans 0 false (lines text) ∧ Tidies spans [] text kept := by
  obtain ⟨kept, hkept, hlaid⟩ := exists_laid spans text [] false (by simp)
  exact ⟨kept, hkept, hlaid.tidies⟩

end Tidies

/-- Deleting characters from a text, first some spaces, tabs and newlines, then the blanks at the
ends: what is left has every span as it was, and between two characters that are not blank and had
blanks between them a blank, which is a newline if there was one. -/
structure Cleaned (text : List Char) (spans : List Span) (tidied kept : List (Char × Option Nat)) :
    Prop where
  sublist : tidied.Sublist (placed 0 text)
  removed : ∀ a c b, text = a ++ c :: b → (c, some (Text.byteLength a)) ∉ tidied →
    c = ' ' ∨ c = '\t' ∨ c = '\n'
  trimmed : kept = trimBy (fun x => Text.isBlank x.1) tidied
  deleted : ∀ a c b, text = a ++ c :: b → (c, some (Text.byteLength a)) ∉ kept →
    Text.isBlank c = true ∧ ∀ s ∈ spans, ¬s.Covers (Text.byteLength a)
  spared : ∀ s ∈ spans, ∀ slice, Text.slice? text s = some slice → placed s.start slice <:+: kept
  spaced : ∀ before gap after x y, text = before ++ x :: (gap ++ y :: after) →
    Text.isBlank x = false → Text.isBlank y = false → (∀ c ∈ gap, Text.isBlank c = true) →
    ∃ rest, (x, some (Text.byteLength before)) ::
        (rest ++ [(y, some (Text.byteLength (before ++ x :: gap)))]) <:+: kept ∧
      rest.Sublist (placed (Text.byteLength (before ++ [x])) gap) ∧ (gap ≠ [] → rest ≠ []) ∧
      ('\n' ∈ gap → '\n' ∈ rest.map Prod.fst)

section Cleaned

variable {spans : List Span} {text before rest : List Char} {tidied : List (Char × Option Nat)}

theorem Tidies.split_word {x : Char} {kept : List (Char × Option Nat)}
    (h : Tidies spans before (x :: rest) kept) (hx : ¬Removable spans before x rest) :
    ∃ back, kept = (x, some (Text.byteLength before)) :: back ∧
      Tidies spans (before ++ [x]) rest back := by
  cases h with
  | keep h => exact ⟨_, rfl, h⟩
  | remove hc h => exact absurd hc hx

theorem not_removable_of_not_blank {x : Char} (hx : Text.isBlank x = false) :
    ¬Removable spans before x rest := by
  intro h
  rw [h.isBlank] at hx
  cases hx

-- Without a newline the whole gap is kept; with one, the first newline is.
theorem Tidies.split_gap {x y : Char} {gap after : List Char} {kept : List (Char × Option Nat)}
    (h : Tidies spans (before ++ [x]) (gap ++ y :: after) kept) (hx : Text.isBlank x = false)
    (hy : Text.isBlank y = false) :
    ∃ between back, kept = between ++ back ∧
      Tidies spans (before ++ x :: gap) (y :: after) back ∧
      between.Sublist (placed (Text.byteLength (before ++ [x])) gap) ∧
      (gap ≠ [] → between ≠ []) ∧ ('\n' ∈ gap → '\n' ∈ between.map Prod.fst) := by
  by_cases hgap : '\n' ∈ gap
  · obtain ⟨line, others, rfl, hline⟩ := List.eq_append_cons_of_mem hgap
    rw [List.append_assoc, List.cons_append] at h
    obtain ⟨front, _, rfl, hfront, hnewline⟩ := h.split
    obtain ⟨_, rfl, hothers⟩ := hnewline.split_word (by
      rw [List.append_assoc]
      exact not_removable_behind hx hline)
    obtain ⟨middle, back, rfl, hmiddle, hback⟩ := hothers.split
    refine ⟨front ++ ('\n', some (Text.byteLength (before ++ [x] ++ line))) :: middle, back,
      by simp, by simpa using hback, ?_, by simp, by simp⟩
    rw [placed_append]
    refine hfront.append ?_
    simpa [placed, Nat.add_assoc] using hmiddle
  · obtain ⟨back, rfl, hback⟩ := h.split_whole fun p c q hsplit => by
      simp only [hsplit, List.mem_append, List.mem_cons, not_or] at hgap
      exact not_removable_before (fun hc => hgap.2.1 hc.symm) hgap.2.2 hy
    refine ⟨_, back, rfl, by simpa using hback, .refl _, ?_, fun hmem => absurd hmem hgap⟩
    cases gap with
    | nil => simp
    | cons c gap => simp [placed]

theorem head_placed {offset : Nat} {x : Char × Option Nat}
    (hx : x ∈ (placed offset text).head?) : x.1 ∈ text.head? := by
  have hmap : ((placed offset text).map Prod.fst).head? = some x.1 := by
    rw [List.head?_map, hx]
    rfl
  simpa using hmap

theorem getLast_placed {offset : Nat} {x : Char × Option Nat}
    (hx : x ∈ (placed offset text).getLast?) : x.1 ∈ text.getLast? := by
  have hmap : ((placed offset text).map Prod.fst).getLast? = some x.1 := by
    rw [List.getLast?_map, hx]
    rfl
  simpa using hmap

theorem mem_placed_of_covers {s : Span} {slice a b : List Char} {c : Char}
    (hslice : Text.slice? (a ++ c :: b) s = some slice) (hcov : s.Covers (Text.byteLength a)) :
    (c, some (Text.byteLength a)) ∈ placed s.start slice := by
  obtain ⟨p, q, htext, hstart, hstop⟩ := Text.slice?_eq_some_iff.mp hslice
  rw [List.append_assoc] at htext
  obtain ⟨m, rfl, hm⟩ := Text.append_split_of_le htext.symm (by rw [hstart]; exact hcov.1)
  have hlt := hcov.2
  rw [Text.byteLength_append] at hlt ⊢
  rcases List.append_eq_append_iff.mp hm with ⟨n, rfl, -⟩ | ⟨n, rfl, hn⟩
  · rw [Text.byteLength_append] at hlt
    omega
  · cases n with
    | nil =>
      rw [List.append_nil] at hstop
      omega
    | cons d n =>
      obtain ⟨rfl, -⟩ := List.cons.inj hn
      rw [placed_append, hstart]
      simp [placed]

theorem Tidies.mem_of_not_blank (h : Tidies spans [] text tidied) {a b : List Char} {c : Char}
    (htext : text = a ++ c :: b) (hc : Text.isBlank c = false) :
    (c, some (Text.byteLength a)) ∈ trimBy (fun x => Text.isBlank x.1) tidied := by
  subst htext
  obtain ⟨front, _, rfl, -, hword⟩ := h.split
  obtain ⟨back, rfl, -⟩ := hword.split_word (not_removable_of_not_blank hc)
  have hinfix : [(c, some (Text.byteLength a))] <:+:
      front ++ (c, some (Text.byteLength ([] ++ a))) :: back := ⟨front, back, by simp⟩
  exact (infix_trimBy hinfix (by simp) (by simpa using hc) (by simpa using hc)).mem (by simp)

theorem Tidies.split_span (h : Tidies spans [] text tidied) {s : Span} (hs : s ∈ spans)
    (hink : Inked text s) {p slice q : List Char} (htext : text = p ++ slice ++ q)
    (hp : Text.byteLength p = s.start) (hq : Text.byteLength p + Text.byteLength slice = s.stop) :
    ∃ front back, tidied = front ++ placed s.start slice ++ back ∧
      front.Sublist (placed 0 p) ∧ Tidies spans (p ++ slice) q back := by
  subst htext
  rw [List.append_assoc] at h
  obtain ⟨front, _, rfl, hfront, hslice⟩ := h.split
  obtain ⟨back, rfl, hback⟩ := hslice.split_whole fun a c b hsplit hrem => by
    -- a character of the span is covered by it
    have hlen := congrArg Text.byteLength hsplit
    have hpos := c.utf8Size_pos
    simp only [Text.byteLength_append, Text.byteLength_cons] at hlen
    refine hrem.not_covers hs ?_ ⟨?_, ?_⟩
    · have htext : p ++ slice ++ q = p ++ a ++ c :: (b ++ q) := by simp [hsplit]
      rw [List.nil_append, ← htext]
      exact hink
    · simp only [List.nil_append, Text.byteLength_append]
      omega
    · simp only [List.nil_append, Text.byteLength_append]
      omega
  rw [List.nil_append] at hback ⊢
  exact ⟨front, back, by rw [hp, List.append_assoc], hfront, hback⟩

theorem Tidies.spared (h : Tidies spans [] text tidied) {s : Span} (hs : s ∈ spans)
    (hink : Inked text s) {slice : List Char} (hslice : Text.slice? text s = some slice) :
    placed s.start slice <:+: trimBy (fun x => Text.isBlank x.1) tidied := by
  obtain ⟨p, q, htext, hp, hq⟩ := Text.slice?_eq_some_iff.mp hslice
  obtain ⟨front, back, rfl, -⟩ := h.split_span hs hink htext hp hq
  obtain ⟨inked, hinked, hne, hhead, hlast⟩ := hink
  obtain rfl : slice = inked := Option.some.inj (hslice.symm.trans hinked)
  refine infix_trimBy ⟨front, back, rfl⟩ ?_ ?_ ?_
  · cases slice with
    | nil => exact absurd rfl hne
    | cons c slice => simp [placed]
  · exact fun x hx => hhead _ (head_placed hx)
  · exact fun x hx => hlast _ (getLast_placed hx)

theorem Tidies.spaced (h : Tidies spans [] text tidied) {gap after : List Char} {x y : Char}
    (htext : text = before ++ x :: (gap ++ y :: after)) (hx : Text.isBlank x = false)
    (hy : Text.isBlank y = false) :
    ∃ between, (x, some (Text.byteLength before)) ::
        (between ++ [(y, some (Text.byteLength (before ++ x :: gap)))]) <:+:
          trimBy (fun x => Text.isBlank x.1) tidied ∧
      between.Sublist (placed (Text.byteLength (before ++ [x])) gap) ∧
      (gap ≠ [] → between ≠ []) ∧ ('\n' ∈ gap → '\n' ∈ between.map Prod.fst) := by
  subst htext
  obtain ⟨front, _, rfl, -, hfirst⟩ := h.split
  obtain ⟨_, rfl, hgap⟩ := hfirst.split_word (not_removable_of_not_blank hx)
  obtain ⟨between, _, rfl, hsecond, hbetween⟩ := hgap.split_gap hx hy
  obtain ⟨back, rfl, -⟩ := hsecond.split_word (not_removable_of_not_blank hy)
  refine ⟨between, infix_trimBy ⟨front, back, by simp⟩ (by simp) (by simpa using hx) ?_, ?_⟩
  · simpa [List.getLast?_cons] using hy
  · simpa using hbetween

theorem normalize_cleaned (hink : ∀ s ∈ spans, Inked text s) :
    ∃ tidied kept, kept.map Prod.fst = normalize text spans ∧ Cleaned text spans tidied kept := by
  obtain ⟨tidied, hmap, h⟩ := exists_tidies spans text
  refine ⟨tidied, trimBy (fun x => Text.isBlank x.1) tidied, ?_, h.sublist, ?_, rfl, ?_, ?_, ?_⟩
  · rw [map_fst_trimBy, hmap]
    rfl
  · exact fun a c b htext hc => (h.removable htext hc).cases_char
  · intro a c b htext hc
    refine ⟨?_, fun s hs hcov => ?_⟩
    · rw [← Bool.not_eq_false]
      exact fun hblank => hc (h.mem_of_not_blank htext hblank)
    · obtain ⟨slice, hslice, -⟩ := hink s hs
      refine hc ((h.spared hs (hink s hs) hslice).mem ?_)
      rw [htext] at hslice
      exact mem_placed_of_covers hslice hcov
  · exact fun s hs slice hslice => h.spared hs (hink s hs) hslice
  · exact fun before gap after x y htext hx hy _ => h.spaced htext hx hy

end Cleaned

end Synopsis.Layout
