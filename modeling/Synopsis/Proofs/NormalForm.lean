import Mathlib.Data.List.Basic
import Synopsis.Proofs.Tidying

/-!
# Normal layout is a normal form

A text is normal if it neither begins nor ends with a blank and, protected spans apart, has no
blanks at the ends of lines and no blank lines side by side. Laying out a normal text leaves it as
it is, and what comes out of laying out any text is normal, with the protected spans where they
stand then. So laying out a text twice is laying it out once.

Laying out moves what is not blank but keeps its order, so the place of a span in the result is
found by counting: the span begins with the same inked character, counted from the start.
-/

namespace Synopsis.Layout

open Synopsis.Span Synopsis.Splice

def Outside (spans : List Span) (offset : Nat) : Prop := ∀ s ∈ spans, ¬s.Covers offset

/-- The text has no blanks at its ends, and where newlines are outside the spans no line ends with a
space or a tab and no two lines in a row have only spaces and tabs. -/
structure Normal (text : List Char) (spans : List Span) : Prop where
  head : ∀ c ∈ text.head?, Text.isBlank c = false
  last : ∀ c ∈ text.getLast?, Text.isBlank c = false
  stripped : ∀ line rest, text = line ++ '\n' :: rest → Outside spans (Text.byteLength line) →
    ∀ c ∈ line.getLast?, Text.isSpaceOrTab c = false
  single : ∀ before first second after,
    text = before ++ first ++ '\n' :: (second ++ '\n' :: after) →
    (∀ c ∈ before.getLast?, c = '\n') → Outside spans (Text.byteLength (before ++ first)) →
    Outside spans (Text.byteLength (before ++ first ++ '\n' :: second)) →
    ¬((∀ c ∈ first, Text.isSpaceOrTab c = true) ∧ ∀ c ∈ second, Text.isSpaceOrTab c = true)

/-- Where a text has the character that is not blank and has so many of these before it. -/
def inkOffset : Nat → List Char → Nat
  | _, [] => 0
  | count, c :: text =>
    if Text.isBlank c then c.utf8Size + inkOffset count text
    else
      match count with
      | 0 => 0
      | count + 1 => c.utf8Size + inkOffset count text

def inkCount (text : List Char) : Nat := text.countP (!Text.isBlank ·)

def shift (text result : List Char) (s : Span) : Span :=
  let start := inkOffset (inkCount ((Text.takeBytes? s.start text).getD [])) result
  ⟨start, start + (s.stop - s.start)⟩

def KeepsSpans (text result : List Char) (spans : List Span) : Prop :=
  ∃ kept, kept.map Prod.fst = result ∧ kept.Sublist (placed 0 text) ∧
    ∀ s ∈ spans, ∃ front slice back, Text.slice? text s = some slice ∧
      kept = front ++ placed s.start slice ++ back ∧
      shift text result s = ⟨Text.byteLength (front.map Prod.fst),
        Text.byteLength (front.map Prod.fst) + Text.byteLength slice⟩

section Ink

variable {spans : List Span} {text before rest : List Char} {kept : List (Char × Option Nat)}

theorem inkCount_append (a b : List Char) : inkCount (a ++ b) = inkCount a + inkCount b :=
  List.countP_append

theorem inkOffset_append {c : Char} (hc : Text.isBlank c = false) (front rest : List Char) :
    inkOffset (inkCount front) (front ++ c :: rest) = Text.byteLength front := by
  induction front with
  | nil => simp [inkCount, inkOffset, hc]
  | cons d front ih =>
    rw [List.cons_append, Text.byteLength_cons]
    by_cases hd : Text.isBlank d = true
    · have hcount : inkCount (d :: front) = inkCount front :=
        List.countP_cons_of_neg (by simp [hd])
      rw [hcount, inkOffset.eq_def]
      simp only [hd, if_true, ih]
    · have hcount : inkCount (d :: front) = inkCount front + 1 :=
        List.countP_cons_of_pos (by simp [hd])
      rw [hcount, inkOffset.eq_def]
      simp only [hd, Bool.false_eq_true, if_false, ih]

theorem shift_eq {s : Span} {p slice q f b : List Char} (hp : Text.byteLength p = s.start)
    (hstop : Text.byteLength p + Text.byteLength slice = s.stop) (hne : slice ≠ [])
    (hhead : ∀ c ∈ slice.head?, Text.isBlank c = false) (hcount : inkCount f = inkCount p) :
    shift (p ++ slice ++ q) (f ++ slice ++ b) s =
      ⟨Text.byteLength f, Text.byteLength f + Text.byteLength slice⟩ := by
  have htake : Text.takeBytes? s.start (p ++ slice ++ q) = some p := by
    rw [← hp, List.append_assoc]
    exact Text.takeBytes?_append p _
  have hwidth : s.stop - s.start = Text.byteLength slice := by omega
  have hstart : inkOffset (inkCount p) (f ++ slice ++ b) = Text.byteLength f := by
    cases slice with
    | nil => exact absurd rfl hne
    | cons c slice =>
      rw [← hcount, List.append_assoc, List.cons_append]
      exact inkOffset_append (hhead c rfl) f _
  simp only [shift, htake, Option.getD_some, hstart, hwidth]

theorem shift_self {s : Span} (h : Inked text s) : shift text text s = s := by
  obtain ⟨slice, hslice, hne, hhead, -⟩ := h
  obtain ⟨p, q, rfl, hp, hstop⟩ := Text.slice?_eq_some_iff.mp hslice
  rw [shift_eq hp hstop hne hhead rfl, hstop, hp]

theorem Tidies.inkCount_eq (h : Tidies spans before rest kept) :
    inkCount (kept.map Prod.fst) = inkCount rest := by
  induction h with
  | nil => rfl
  | @keep before rest c kept h ih =>
    rw [List.map_cons, ← List.singleton_append, inkCount_append, ih, ← inkCount_append,
      List.singleton_append]
  | @remove before rest c kept hc h ih =>
    rw [ih]
    exact (List.countP_cons_of_neg (by simp [hc.isBlank])).symm

theorem inkCount_dropWhile (front : List (Char × Option Nat)) :
    inkCount ((front.dropWhile fun x => Text.isBlank x.1).map Prod.fst) =
      inkCount (front.map Prod.fst) := by
  induction front with
  | nil => rfl
  | cons x front ih =>
    by_cases hx : Text.isBlank x.1 = true
    · have hdrop : (x :: front).dropWhile (fun x => Text.isBlank x.1) =
          front.dropWhile fun x => Text.isBlank x.1 := List.dropWhile_cons_of_pos hx
      rw [hdrop, ih]
      exact (List.countP_cons_of_neg (by simp [hx])).symm
    · have hdrop : (x :: front).dropWhile (fun x => Text.isBlank x.1) = x :: front :=
        List.dropWhile_cons_of_neg hx
      rw [hdrop]

end Ink

section Located

variable {spans : List Span} {text : List Char} {tidied kept : List (Char × Option Nat)} {s : Span}

theorem mem_placed {offset : Nat} {x : Char × Option Nat} (h : x ∈ placed offset text) :
    ∃ p, x.2 = some p ∧ offset ≤ p ∧ p < offset + Text.byteLength text := by
  induction text generalizing offset with
  | nil => cases h
  | cons c text ih =>
    have hpos := c.utf8Size_pos
    rw [Text.byteLength_cons]
    rcases List.mem_cons.mp h with rfl | h
    · exact ⟨offset, rfl, Nat.le_refl _, by omega⟩
    · obtain ⟨p, hp, hle, hlt⟩ := ih h
      exact ⟨p, hp, by omega, by omega⟩

theorem fst_mem_of_mem_placed {offset : Nat} {x : Char × Option Nat} (h : x ∈ placed offset text) :
    x.1 ∈ text := by
  have hmem := List.mem_map_of_mem h (f := Prod.fst)
  rwa [map_fst_placed] at hmem

structure Located (kept : List (Char × Option Nat)) (s : Span)
    (front : List (Char × Option Nat)) (slice : List Char) (back : List (Char × Option Nat)) :
    Prop where
  split : kept = front ++ placed s.start slice ++ back
  before : ∀ x ∈ front, ∀ p, x.2 = some p → p < s.start
  behind : ∀ x ∈ back, ∀ p, x.2 = some p → s.stop ≤ p

theorem Located.covers {front back : List (Char × Option Nat)} {slice : List Char}
    (h : Located kept s front slice back) {a b : List (Char × Option Nat)} {c : Char} {p : Nat}
    (hkept : kept = a ++ (c, some p) :: b) (hcov : s.Covers p) :
    Span.Covers ⟨Text.byteLength (front.map Prod.fst),
      Text.byteLength (front.map Prod.fst) + Text.byteLength slice⟩
        (Text.byteLength (a.map Prod.fst)) := by
  have hsplit : front ++ (placed s.start slice ++ back) = a ++ (c, some p) :: b := by
    rw [← hkept, h.split, List.append_assoc]
  -- the character is none of those before the span, and none of those behind it
  have hfront : (c, some p) ∉ front := fun hmem => by
    have hlt := h.before _ hmem p rfl
    have hge := hcov.1
    omega
  have hback : (c, some p) ∉ back := fun hmem => by
    have hge := h.behind _ hmem p rfl
    have hlt := hcov.2
    omega
  obtain ⟨m, rfl, hm⟩ := split_behind_of_not_mem hsplit hfront
  obtain ⟨n, hn, -⟩ := split_before_of_not_mem hm hback
  have hslice := congrArg (fun l => Text.byteLength (l.map Prod.fst)) hn
  have hpos := c.utf8Size_pos
  simp only [map_fst_placed, List.map_append, List.map_cons, Text.byteLength_append,
    Text.byteLength_cons] at hslice
  rw [List.map_append, Text.byteLength_append]
  exact ⟨Nat.le_add_right _ _, by
    change _ < Text.byteLength (front.map Prod.fst) + Text.byteLength slice
    omega⟩

theorem Tidies.exists_located (h : Tidies spans [] text tidied) (hs : s ∈ spans)
    (hink : Inked text s) :
    ∃ front slice back, Text.slice? text s = some slice ∧
      Located (trimBy (fun x => Text.isBlank x.1) tidied) s front slice back ∧
      shift text ((trimBy (fun x => Text.isBlank x.1) tidied).map Prod.fst) s =
        ⟨Text.byteLength (front.map Prod.fst),
          Text.byteLength (front.map Prod.fst) + Text.byteLength slice⟩ := by
  obtain ⟨slice, hslice, hne, hhead, hlast⟩ := id hink
  obtain ⟨p, q, rfl, hp, hstop⟩ := Text.slice?_eq_some_iff.mp hslice
  obtain ⟨front, back, rfl, hfront, hback⟩ := h.split_span hs hink rfl hp hstop
  have htrim : trimBy (fun x => Text.isBlank x.1) (front ++ placed s.start slice ++ back) =
      front.dropWhile (fun x => Text.isBlank x.1) ++ placed s.start slice ++
        (back.reverse.dropWhile fun x => Text.isBlank x.1).reverse := by
    refine trimBy_append ?_ (fun x hx => hhead _ (head_placed hx))
      (fun x hx => hlast _ (getLast_placed hx))
    cases slice with
    | nil => exact absurd rfl hne
    | cons c slice => simp [placed]
  have hcount : inkCount ((front.dropWhile fun x => Text.isBlank x.1).map Prod.fst) =
      inkCount p := by
    have hwhole := h.inkCount_eq
    have hrest := hback.inkCount_eq
    simp only [List.map_append, inkCount_append, map_fst_placed] at hwhole
    rw [inkCount_dropWhile]
    omega
  refine ⟨_, slice, _, hslice, ⟨htrim, ?_, ?_⟩, ?_⟩
  · intro x hx i hi
    obtain ⟨j, hj, -, hlt⟩ := mem_placed (hfront.mem ((List.dropWhile_sublist _).mem hx))
    rw [hi] at hj
    obtain rfl := Option.some.inj hj
    omega
  · intro x hx i hi
    have hmem := (List.dropWhile_sublist _).mem (List.mem_reverse.mp hx)
    obtain ⟨j, hj, hle, -⟩ := mem_placed (hback.sublist.mem (List.mem_reverse.mp hmem))
    rw [hi] at hj
    obtain rfl := Option.some.inj hj
    rw [Text.byteLength_append] at hle
    omega
  · rw [htrim, List.map_append, List.map_append, map_fst_placed]
    exact shift_eq hp hstop hne hhead hcount

end Located

/-- What is kept of a text has no blank at the end of a line and no blank line behind a blank line,
unless the line ends in a protected span. -/
def Neat (spans : List Span) (kept : List (Char × Option Nat)) : Prop :=
  ∀ a p b, kept = a ++ ('\n', some p) :: b → isProtected spans p = false →
    (∀ x ∈ a.getLast?, Text.isSpaceOrTab x.1 = false) ∧
    ((∀ x ∈ a.getLast?, x.1 = '\n') → ∀ q, b.head? = some ('\n', some q) →
      isProtected spans q = true)

section Neat

variable {spans : List Span} {content before rest : List Char} {kept : List (Char × Option Nat)}
  {offset : Nat}

theorem neat_placed (hnot : '\n' ∉ content) : Neat spans (placed offset content) := by
  intro a p b hsplit
  exact absurd (fst_mem_of_mem_placed (hsplit ▸ List.mem_append_right _ List.mem_cons_self)) hnot

theorem head_placed_ne (hnot : '\n' ∉ content) (q : Nat) :
    (placed offset content).head? ≠ some ('\n', some q) := by
  intro hhead
  exact hnot (fst_mem_of_mem_placed (List.mem_of_head? hhead))

theorem split_at_newline {a b : List (Char × Option Nat)} {p₀ p : Nat} (hnot : '\n' ∉ content)
    (h : placed offset content ++ ('\n', some p₀) :: kept = a ++ ('\n', some p) :: b) :
    (a = placed offset content ∧ p = p₀ ∧ b = kept) ∨
      ∃ later, a = placed offset content ++ ('\n', some p₀) :: later ∧
        kept = later ++ ('\n', some p) :: b := by
  obtain ⟨m, rfl, hm⟩ := split_behind_of_not_mem h fun hmem => hnot (fst_mem_of_mem_placed hmem)
  cases m with
  | nil =>
    obtain ⟨hp, rfl⟩ := List.cons.inj hm
    exact .inl ⟨by simp, by simpa using hp.symm, rfl⟩
  | cons x m =>
    obtain ⟨rfl, hkept⟩ := List.cons.inj hm
    exact .inr ⟨m, rfl, hkept⟩

theorem Neat.line {p₀ : Nat} (hnot : '\n' ∉ content) (h : Neat spans kept)
    (hend : isProtected spans p₀ = false → (∀ c ∈ content.getLast?, Text.isSpaceOrTab c = false) ∧
      (content = [] → ∀ q, kept.head? = some ('\n', some q) → isProtected spans q = true)) :
    Neat spans (placed offset content ++ ('\n', some p₀) :: kept) := by
  intro a p b hsplit hloose
  rcases split_at_newline hnot hsplit with ⟨rfl, rfl, rfl⟩ | ⟨later, rfl, hkept⟩
  · obtain ⟨hstrip, hsingle⟩ := hend hloose
    refine ⟨fun x hx => hstrip x.1 (getLast_placed hx), fun hnewline => hsingle ?_⟩
    -- the line has no newline in it, so if it ends with one it is empty
    cases hlast : (placed offset content).getLast? with
    | none =>
      have hmap := congrArg (List.map Prod.fst) (List.getLast?_eq_none_iff.mp hlast)
      simpa using hmap
    | some x =>
      have hx := hnewline x hlast
      exact absurd (hx ▸ List.mem_of_getLast? (getLast_placed hlast)) hnot
  · obtain ⟨hstrip, hsingle⟩ := h later p b hkept hloose
    rcases List.eq_nil_or_concat later with rfl | ⟨earlier, x, rfl⟩
    · refine ⟨?_, fun _ => hsingle (by simp)⟩
      intro x hx
      obtain rfl : ('\n', some p₀) = x := by simpa using hx
      rfl
    · have hlast : (placed offset content ++ ('\n', some p₀) :: earlier.concat x).getLast? =
          (earlier.concat x).getLast? := by
        simp [List.getLast?_append, List.getLast?_cons]
      rw [hlast]
      exact ⟨hstrip, hsingle⟩

theorem newline_not_mem_dropEndWhile (hnot : '\n' ∉ content) :
    '\n' ∉ Text.dropEndWhile Text.isSpaceOrTab content := by
  obtain ⟨blanks, hsplit, -⟩ := exists_dropEndWhile Text.isSpaceOrTab content
  intro hmem
  exact hnot (hsplit ▸ List.mem_append_left _ hmem)

-- Behind a blank line the next newline that is kept at the start of a line is a protected one.
theorem Laid.neat {afterBlank : Bool} (h : Laid spans before afterBlank rest kept) :
    Neat spans kept ∧ (afterBlank = true → ∀ q, kept.head? = some ('\n', some q) →
      isProtected spans q = true) := by
  induction h with
  | nil => exact ⟨fun a p b h => by simp at h, by simp⟩
  | heldLast hnot _ =>
    exact ⟨neat_placed hnot, fun _ q hq => absurd hq (head_placed_ne hnot q)⟩
  | looseLast hnot _ =>
    have hnot' := newline_not_mem_dropEndWhile hnot
    exact ⟨neat_placed hnot', fun _ q hq => absurd hq (head_placed_ne hnot' q)⟩
  | @held before content rest afterBlank kept hnot hheld _ ih =>
    refine ⟨ih.1.line hnot fun hloose => ?_, fun _ q hq => ?_⟩
    · rw [hheld] at hloose
      cases hloose
    · cases content with
      | nil =>
        obtain rfl : Text.byteLength (before ++ []) = q := by simpa [placed] using hq
        exact hheld
      | cons c content =>
        obtain ⟨rfl, -⟩ : c = '\n' ∧ _ := by simpa [placed] using hq
        exact absurd List.mem_cons_self hnot
  | dropped _ _ _ _ ih => exact ⟨ih.1, fun _ => ih.2 rfl⟩
  | @stripped before content rest afterBlank kept hnot hloose hfirst _ ih =>
    have hnot' := newline_not_mem_dropEndWhile hnot
    refine ⟨ih.1.line hnot' fun _ => ⟨last_dropEndWhile _ _, fun hnil => ih.2 ?_⟩, ?_⟩
    · rw [hnil]
      rfl
    · intro hafter q hq
      cases hline : Text.dropEndWhile Text.isSpaceOrTab content with
      | nil => exact absurd hline (hfirst hafter)
      | cons c line =>
        rw [hline] at hq hnot'
        obtain ⟨rfl, -⟩ : c = '\n' ∧ _ := by simpa [placed] using hq
        exact absurd List.mem_cons_self hnot'

-- A blank at the start of what is left has nothing before it any more, so its line could be blank.
theorem Neat.inside {tidied : List (Char × Option Nat)} (h : Neat spans tidied)
    (hin : kept <:+: tidied) (hhead : ∀ x ∈ kept.head?, x.1 ≠ '\n') : Neat spans kept := by
  obtain ⟨lead, trail, rfl⟩ := hin
  rintro a p b rfl hloose
  obtain ⟨hstrip, hsingle⟩ := h (lead ++ a) p (b ++ trail) (by simp) hloose
  have hne : a ≠ [] := by
    rintro rfl
    exact hhead _ rfl rfl
  rw [List.getLast?_append_of_ne_nil lead hne] at hstrip hsingle
  refine ⟨hstrip, fun hnewline q hq => hsingle hnewline q ?_⟩
  rw [List.head?_append, hq]
  rfl

end Neat

section Result

variable {spans : List Span} {text : List Char} {tidied kept : List (Char × Option Nat)}

theorem exists_split_of_map_eq {line rest : List Char} {c : Char}
    (hsub : kept.Sublist (placed 0 text)) (h : kept.map Prod.fst = line ++ c :: rest) :
    ∃ a p b, kept = a ++ (c, some p) :: b ∧ a.map Prod.fst = line ∧ b.map Prod.fst = rest := by
  obtain ⟨a, behind, rfl, ha, hbehind⟩ := List.map_eq_append_iff.mp h
  obtain ⟨⟨d, origin⟩, b, rfl, rfl, hb⟩ := List.map_eq_cons_iff.mp hbehind
  obtain ⟨p, rfl, -⟩ := mem_placed (hsub.mem (List.mem_append_right _ List.mem_cons_self))
  exact ⟨a, p, b, rfl, ha, hb⟩

theorem exists_covers_of_isProtected {p : Nat} (h : isProtected spans p = true) :
    ∃ s ∈ spans, s.Covers p := by
  obtain ⟨s, hs, hinside⟩ := List.any_eq_true.mp h
  have hstrict : StrictlyInside p s := by simpa using hinside
  exact ⟨s, hs, Nat.le_of_lt hstrict.1, hstrict.2⟩

theorem Tidies.loose_of_outside (h : Tidies spans [] text tidied)
    (hink : ∀ s ∈ spans, Inked text s) {a b : List (Char × Option Nat)} {c : Char} {p : Nat}
    (hkept : trimBy (fun x => Text.isBlank x.1) tidied = a ++ (c, some p) :: b)
    (hout : Outside
      (spans.map (shift text ((trimBy (fun x => Text.isBlank x.1) tidied).map Prod.fst)))
      (Text.byteLength (a.map Prod.fst))) : isProtected spans p = false := by
  rw [← Bool.not_eq_true]
  intro hheld
  obtain ⟨s, hs, hcov⟩ := exists_covers_of_isProtected hheld
  obtain ⟨front, slice, back, -, hlocated, hshift⟩ := h.exists_located hs (hink s hs)
  refine hout _ (List.mem_map_of_mem hs) ?_
  rw [hshift]
  exact hlocated.covers hkept hcov

theorem Neat.normal {moved : List Span} (h : Neat spans kept)
    (hsub : kept.Sublist (placed 0 text))
    (hhead : ∀ c ∈ (kept.map Prod.fst).head?, Text.isBlank c = false)
    (hlast : ∀ c ∈ (kept.map Prod.fst).getLast?, Text.isBlank c = false)
    (hloose : ∀ a p b, kept = a ++ ('\n', some p) :: b →
      Outside moved (Text.byteLength (a.map Prod.fst)) → isProtected spans p = false) :
    Normal (kept.map Prod.fst) moved := by
  have hstrip : ∀ line rest, kept.map Prod.fst = line ++ '\n' :: rest →
      Outside moved (Text.byteLength line) → ∀ c ∈ line.getLast?, Text.isSpaceOrTab c = false := by
    intro line rest hsplit hout c hc
    obtain ⟨a, p, b, hkept, rfl, -⟩ := exists_split_of_map_eq hsub hsplit
    rw [List.getLast?_map] at hc
    obtain ⟨x, hx, rfl⟩ := Option.map_eq_some_iff.mp hc
    exact (h a p b hkept (hloose a p b hkept hout)).1 x hx
  -- blanks that end a line outside the spans are not there
  have hnil : ∀ front blanks rest, kept.map Prod.fst = front ++ blanks ++ '\n' :: rest →
      Outside moved (Text.byteLength (front ++ blanks)) →
      (∀ c ∈ blanks, Text.isSpaceOrTab c = true) → blanks = [] := by
    intro front blanks rest hsplit hout hblanks
    rcases List.eq_nil_or_concat blanks with rfl | ⟨blanks, c, rfl⟩
    · rfl
    · have hfalse := hstrip _ _ hsplit hout c (by simp)
      rw [hblanks c (by simp)] at hfalse
      cases hfalse
  refine ⟨hhead, hlast, hstrip, ?_⟩
  rintro before first second after hsplit hstart hfirst hsecond ⟨hblank, hblank'⟩
  obtain rfl := hnil before first _ hsplit hfirst hblank
  obtain rfl := hnil (before ++ [] ++ ['\n']) second after (by simpa using hsplit)
    (by simpa using hsecond) hblank'
  rw [List.append_nil, List.nil_append] at hsplit
  obtain ⟨a, p, behind, hkept, rfl, hbehind⟩ := exists_split_of_map_eq hsub hsplit
  obtain ⟨⟨d, origin⟩, b, rfl, rfl, -⟩ := List.map_eq_cons_iff.mp hbehind
  obtain ⟨q, rfl, -⟩ := mem_placed (x := ('\n', origin)) (hsub.mem (by simp [hkept]))
  have hq : isProtected spans q = true := by
    refine (h a p _ hkept (hloose a p _ hkept (by simpa using hfirst))).2 ?_ q rfl
    intro x hx
    exact hstart x.1 (by rw [List.getLast?_map, hx]; rfl)
  have hq' : isProtected spans q = false := by
    refine hloose (a ++ [('\n', some p)]) q b (by simpa using hkept) ?_
    simpa using hsecond
  rw [hq] at hq'
  cases hq'

end Result

section Unchanged

variable {spans : List Span} {text before rest : List Char} {kept : List (Char × Option Nat)}

theorem dropEndWhile_eq_self {f : Char → Bool} (h : ∀ c ∈ text.getLast?, f c = false) :
    Text.dropEndWhile f text = text := by
  rcases List.eq_nil_or_concat text with rfl | ⟨front, c, rfl⟩
  · rfl
  · simp [Text.dropEndWhile, h c (by simp)]

theorem Normal.trim_eq (h : Normal text spans) : Text.trim text = text := by
  have hfront : text.dropWhile Text.isBlank = text := by
    cases text with
    | nil => rfl
    | cons c text => simp [h.head c rfl]
  rw [Text.trim, hfront, dropEndWhile_eq_self h.last]

theorem outside_of_loose (hink : ∀ s ∈ spans, Inked (before ++ '\n' :: rest) s)
    (h : isProtected spans (Text.byteLength before) = false) :
    Outside spans (Text.byteLength before) := by
  rintro s hs ⟨hstart, hstop⟩
  have hinside := not_strictlyInside h hs
  have hne := (hink s hs).start_ne (by decide)
  simp only [StrictlyInside] at hinside
  omega

-- By the steps of going through the lines: behind a blank line a line that is not blank follows.
theorem Laid.eq_of_normal {afterBlank : Bool} (h : Laid spans before afterBlank rest kept)
    (hnormal : Normal text spans) (hink : ∀ s ∈ spans, Inked text s)
    (htext : text = before ++ rest) (hstart : ∀ d ∈ before.getLast?, d = '\n')
    (hblank : afterBlank = true → ∃ earlier, before = earlier ++ ['\n'] ∧
      (∀ d ∈ earlier.getLast?, d = '\n') ∧ Outside spans (Text.byteLength earlier)) :
    kept.map Prod.fst = rest := by
  induction h with
  | nil => rfl
  | heldLast => exact map_fst_placed _ _
  | @looseLast before content =>
    rw [map_fst_placed]
    refine dropEndWhile_eq_self fun c hc => ?_
    have hlast := hnormal.last c (by rw [htext, List.getLast?_append, hc]; rfl)
    simpa using not_isSpaceOrTab hlast
  | @held before content rest afterBlank kept hnot hheld h ih =>
    have hrest := ih (by simpa using htext) (by simp) (by simp)
    rw [List.map_append, map_fst_placed, List.map_cons, hrest]
  | @dropped before content rest kept _ hblanks hloose h ih =>
    obtain ⟨earlier, rfl, hearlier, hout⟩ := hblank rfl
    rw [htext, ← List.append_assoc] at hink
    have hout' := outside_of_loose hink hloose
    refine absurd ⟨by simp, hblanks⟩ (hnormal.single earlier [] content rest ?_ hearlier ?_ ?_)
    · simpa using htext
    · simpa using hout
    · simpa using hout'
  | @stripped before content rest afterBlank kept hnot hloose hfirst h ih =>
    have htext' : text = before ++ content ++ '\n' :: rest := by simpa using htext
    rw [htext'] at hink
    have hout := outside_of_loose hink hloose
    have hself : Text.dropEndWhile Text.isSpaceOrTab content = content := by
      refine dropEndWhile_eq_self fun c hc => hnormal.stripped _ _ htext' hout c ?_
      rw [List.getLast?_append, hc]
      rfl
    have hrest := ih (by simpa using htext) (by simp) fun hempty => by
      rw [hself] at hempty
      obtain rfl := List.isEmpty_iff.mp hempty
      exact ⟨before, by simp, hstart, by simpa using hout⟩
    rw [List.map_append, map_fst_placed, List.map_cons, hrest, hself]

theorem Normal.normalize_eq (h : Normal text spans) (hink : ∀ s ∈ spans, Inked text s) :
    normalize text spans = text := by
  obtain ⟨kept, hkept, hlaid⟩ := exists_laid spans text [] false (by simp)
  have hsame := hlaid.eq_of_normal h hink rfl (by simp) (by simp)
  rw [normalize, ← Text.byteLength_nil, ← hkept, hsame, h.trim_eq]

end Unchanged

section Twice

variable {spans : List Span} {text : List Char}

theorem KeepsSpans.inked {result : List Char} (h : KeepsSpans text result spans)
    (hink : ∀ s ∈ spans, Inked text s) : ∀ s ∈ spans.map (shift text result), Inked result s := by
  obtain ⟨kept, rfl, -, hkeeps⟩ := h
  refine List.forall_mem_map.mpr fun s hs => ?_
  obtain ⟨front, slice, back, hslice, rfl, hshift⟩ := hkeeps s hs
  obtain ⟨inked, hinked, hends⟩ := hink s hs
  obtain rfl : slice = inked := Option.some.inj (hslice.symm.trans hinked)
  refine ⟨slice, Text.slice?_eq_some_iff.mpr ⟨front.map Prod.fst, back.map Prod.fst, ?_⟩, hends⟩
  rw [hshift, List.map_append, List.map_append, map_fst_placed]
  exact ⟨rfl, rfl, rfl⟩

theorem normalize_normal (hink : ∀ s ∈ spans, Inked text s) :
    KeepsSpans text (normalize text spans) spans ∧
      Normal (normalize text spans) (spans.map (shift text (normalize text spans))) := by
  obtain ⟨tidied, hmap, hlaid⟩ := exists_laid spans text [] false (by simp)
  have hresult : (trimBy (fun x => Text.isBlank x.1) tidied).map Prod.fst =
      normalize text spans := by
    rw [map_fst_trimBy, hmap]
    rfl
  have hin := isInfix_trimBy (fun x => Text.isBlank x.1) tidied
  have hsub : (trimBy (fun x => Text.isBlank x.1) tidied).Sublist (placed 0 text) :=
    hin.sublist.trans hlaid.tidies.sublist
  have htrim := trimmed_trim (tidied.map Prod.fst)
  rw [← map_fst_trimBy] at htrim
  have hneat : Neat spans (trimBy (fun x => Text.isBlank x.1) tidied) := by
    refine hlaid.neat.1.inside hin fun x hx hnewline => ?_
    have hblank := htrim.head x.1 (by rw [List.head?_map, hx]; rfl)
    rw [hnewline] at hblank
    exact absurd hblank (by decide)
  rw [← hresult]
  refine ⟨⟨_, rfl, hsub, fun s hs => ?_⟩, ?_⟩
  · obtain ⟨front, slice, back, hslice, hlocated, hshift⟩ :=
      hlaid.tidies.exists_located hs (hink s hs)
    exact ⟨front, slice, back, hslice, hlocated.split, hshift⟩
  · exact hneat.normal hsub htrim.head htrim.last fun a p b hkept hout =>
      hlaid.tidies.loose_of_outside hink hkept hout

/-- Laying out a text gives a normal text, in which every protected span is where its characters
are then, and leaves alone the texts that are normal and no others. So doing it again changes
nothing. -/
theorem normalize_reaches_normal_form (hink : ∀ s ∈ spans, Inked text s) :
    Normal (normalize text spans) (spans.map (shift text (normalize text spans))) ∧
    KeepsSpans text (normalize text spans) spans ∧
    (Normal text spans ↔ normalize text spans = text) ∧
    normalize (normalize text spans) (spans.map (shift text (normalize text spans))) =
      normalize text spans := by
  obtain ⟨hkeeps, hnormal⟩ := normalize_normal hink
  refine ⟨hnormal, hkeeps, ⟨fun h => h.normalize_eq hink, fun h => ?_⟩,
    hnormal.normalize_eq (hkeeps.inked hink)⟩
  have hsame : spans.map (shift text text) = spans := by
    rw [List.map_congr_left fun s hs => shift_self (hink s hs), List.map_id']
  rwa [h, hsame] at hnormal

def looseLines : List Char := "a  \n\n \n\x60b \n\n\n c\x60 \t\n".toList

def tightLines : List Char := "a\n\n\x60b \n\n\n c\x60".toList

theorem normalize_reaches_normal_form_looseLines :
    normalize looseLines [⟨7, 16⟩] = tightLines ∧ Normal tightLines [⟨3, 12⟩] ∧
      normalize tightLines [⟨3, 12⟩] = tightLines ∧ ¬Normal looseLines [⟨7, 16⟩] := by
  have hink : ∀ s ∈ [(⟨7, 16⟩ : Span)], Inked looseLines s := by
    intro s hs
    obtain rfl := List.mem_singleton.mp hs
    have hfirst : "\x60b \n\n\n c\x60".toList.head? = some '\x60' := by decide +kernel
    have hlast : "\x60b \n\n\n c\x60".toList.getLast? = some '\x60' := by decide +kernel
    refine ⟨"\x60b \n\n\n c\x60".toList, by decide +kernel, by decide +kernel, ?_, ?_⟩
    · rw [hfirst]
      exact fun d hd => Option.some.inj hd ▸ by decide
    · rw [hlast]
      exact fun d hd => Option.some.inj hd ▸ by decide
  have hresult : normalize looseLines [⟨7, 16⟩] = tightLines := by decide +kernel
  have hshift : shift looseLines tightLines ⟨7, 16⟩ = ⟨3, 12⟩ := by decide +kernel
  obtain ⟨hnormal, -, hiff, htwice⟩ := normalize_reaches_normal_form hink
  rw [hresult, List.map_singleton, hshift] at hnormal htwice
  refine ⟨hresult, hnormal, htwice, fun h => ?_⟩
  have hsame := hiff.mp h
  rw [hresult] at hsame
  exact absurd hsame (by decide +kernel)

end Twice

end Synopsis.Layout
