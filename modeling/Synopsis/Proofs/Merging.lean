import Synopsis.Proofs.Placement

/-!
# Characters that come to stand side by side

A body is left out with the blanks before it, and in most languages nothing stands in for it. Two
characters that were apart in the text are then neighbours in the result exactly where all that
stood between them is left out in this way. So the last word of a signature and a word right behind
the closing brace become one.
-/

namespace Synopsis

open Syntax Synopsis.Span

namespace Splice

def Spared (cuts : List Cut) (offset : Nat) : Prop := ∀ k ∈ cuts, ¬k.span.Covers offset

instance (cuts : List Cut) (offset : Nat) : Decidable (Spared cuts offset) :=
  inferInstanceAs (Decidable (∀ k ∈ cuts, ¬k.span.Covers offset))

def Vanishes (cuts : List Cut) (lo hi : Nat) : Prop :=
  ∀ offset, lo ≤ offset → offset < hi → ∃ k ∈ cuts, k.marker = [] ∧ k.span.Covers offset

def Opens (offset : Nat) (rest : List Char) (cuts : List Cut) (y : Char) (j : Nat) : Prop :=
  ∃ removed after, rest = removed ++ y :: after ∧ j = offset + Text.byteLength removed ∧
    Spared cuts j ∧ Vanishes cuts offset j

def Meet (offset : Nat) (rest : List Char) (cuts : List Cut) (x : Char) (i : Nat) (y : Char)
    (j : Nat) : Prop :=
  ∃ before removed after, rest = before ++ x :: (removed ++ y :: after) ∧
    i = offset + Text.byteLength before ∧ j = i + x.utf8Size + Text.byteLength removed ∧
    Spared cuts i ∧ Spared cuts j ∧ Vanishes cuts (i + x.utf8Size) j

/-- What holds at the end of a text, and can be extended by a character that stays and by a cut,
holds of all cuts that fit. -/
@[elab_as_elim]
theorem Fits.steps {motive : ∀ offset rest cuts, Fits offset rest cuts → Prop}
    (done : ∀ offset, motive offset [] [] .nil)
    (keep : ∀ offset c rest cuts (h : Fits (offset + c.utf8Size) rest cuts),
      motive (offset + c.utf8Size) rest cuts h → ∀ h', motive offset (c :: rest) cuts h')
    (cut : ∀ k cs skipped rest, k.span.stop = k.span.start + Text.byteLength skipped →
      ∀ h : Fits k.span.stop rest cs, motive k.span.stop rest cs h →
        ∀ h', motive k.span.start (skipped ++ rest) (k :: cs) h')
    {offset : Nat} {rest : List Char} {cuts : List Cut} (h : Fits offset rest cuts) :
    motive offset rest cuts h := by
  induction h with
  | @nil offset rest =>
    induction rest generalizing offset with
    | nil => exact done offset
    | cons c rest ih => exact keep offset c rest [] .nil ih _
  | @cons offset k cs gap skipped rest hstart hstop hrest ih =>
    induction gap generalizing offset with
    | nil =>
      obtain rfl : k.span.start = offset := by simpa using hstart
      exact cut k cs skipped rest hstop hrest ih _
    | cons c gap ihgap =>
      have hstart' : k.span.start = offset + c.utf8Size + Text.byteLength gap := by
        rw [hstart, Text.byteLength_cons, Nat.add_assoc]
      exact keep offset c _ _ (.cons gap skipped rest hstart' hstop hrest) (ihgap hstart') _

section Steps

variable {offset : Nat} {c x y : Char} {rest skipped : List Char} {cuts cs : List Cut} {k : Cut}
  {i j : Nat}

theorem traced_keep (h : Fits (offset + c.utf8Size) rest cuts) :
    traced offset (c :: rest) cuts = (c, some offset) :: traced (offset + c.utf8Size) rest cuts :=
  traced_placed_append [c] h

theorem traced_cut (hstop : k.span.stop = k.span.start + Text.byteLength skipped) :
    traced k.span.start (skipped ++ rest) (k :: cs) =
      k.marker.map (·, none) ++ traced k.span.stop rest cs :=
  @traced_cons _ k [] skipped rfl hstop rest cs

theorem spared_before (h : Fits (offset + c.utf8Size) rest cuts) : Spared cuts offset := by
  intro k hk hcov
  have hle := (h.bounds k hk).1
  have hpos := c.utf8Size_pos
  have hge := hcov.1
  omega

theorem opens_keep (h : Fits (offset + c.utf8Size) rest cuts) :
    Opens offset (c :: rest) cuts y j ↔ y = c ∧ j = offset := by
  constructor
  · rintro ⟨removed, after, htext, hj, -, hvan⟩
    cases removed with
    | nil =>
      obtain ⟨rfl, -⟩ := List.cons.inj htext
      exact ⟨rfl, hj⟩
    | cons d removed =>
      have hpos := d.utf8Size_pos
      rw [Text.byteLength_cons] at hj
      obtain ⟨k, hk, -, hcov⟩ := hvan offset (Nat.le_refl _) (by omega)
      exact absurd hcov (spared_before h k hk)
  · rintro ⟨rfl, rfl⟩
    exact ⟨[], rest, rfl, rfl, spared_before h, fun o h1 h2 => by omega⟩

theorem spared_cons (hj : k.span.start ≤ j) :
    Spared (k :: cs) j ↔ k.span.stop ≤ j ∧ Spared cs j := by
  simp only [Spared, List.forall_mem_cons, Covers, not_and, Nat.not_lt]
  constructor
  · rintro ⟨h1, h2⟩
    exact ⟨h1 hj, h2⟩
  · rintro ⟨h1, h2⟩
    exact ⟨fun _ => h1, h2⟩

theorem vanishes_cons_of_le {lo hi : Nat} (hle : k.span.stop ≤ lo) :
    Vanishes (k :: cs) lo hi ↔ Vanishes cs lo hi := by
  constructor
  · intro h o h1 h2
    obtain ⟨m, hm, hmark, hcov⟩ := h o h1 h2
    rcases List.mem_cons.mp hm with rfl | hm
    · exact absurd hcov.2 (by omega)
    · exact ⟨m, hm, hmark, hcov⟩
  · intro h o h1 h2
    obtain ⟨m, hm, hmark, hcov⟩ := h o h1 h2
    exact ⟨m, by simp [hm], hmark, hcov⟩

-- A cut passes on what is behind it exactly if it leaves nothing in its place.
theorem vanishes_cons (hlt : k.span.start < k.span.stop) (hrest : Fits k.span.stop rest cs)
    (hj : k.span.stop ≤ j) :
    Vanishes (k :: cs) k.span.start j ↔ k.marker = [] ∧ Vanishes cs k.span.stop j := by
  constructor
  · intro h
    refine ⟨?_, ?_⟩
    · obtain ⟨m, hm, hmark, hcov⟩ := h k.span.start (Nat.le_refl _) (by omega)
      rcases List.mem_cons.mp hm with rfl | hm
      · exact hmark
      · have hge := (hrest.bounds m hm).1
        have hle := hcov.1
        omega
    · refine (vanishes_cons_of_le (Nat.le_refl _)).mp fun o h1 h2 => h o ?_ h2
      omega
  · rintro ⟨hmark, h⟩ o h1 h2
    by_cases ho : o < k.span.stop
    · exact ⟨k, by simp, hmark, h1, ho⟩
    · obtain ⟨m, hm, hm', hcov⟩ := h o (by omega) h2
      exact ⟨m, by simp [hm], hm', hcov⟩

theorem opens_cut (hlt : k.span.start < k.span.stop)
    (hstop : k.span.stop = k.span.start + Text.byteLength skipped)
    (hrest : Fits k.span.stop rest cs) :
    Opens k.span.start (skipped ++ rest) (k :: cs) y j ↔
      k.marker = [] ∧ Opens k.span.stop rest cs y j := by
  constructor
  · rintro ⟨removed, after, htext, hj, hspared, hvan⟩
    obtain ⟨hle, hspared⟩ := (spared_cons (by omega)).mp hspared
    obtain ⟨hmark, hvan⟩ := (vanishes_cons hlt hrest hle).mp hvan
    obtain ⟨m, rfl, rfl⟩ := Text.append_split_of_le htext (by omega)
    rw [Text.byteLength_append] at hj
    exact ⟨hmark, m, after, rfl, by omega, hspared, hvan⟩
  · rintro ⟨hmark, removed, after, rfl, hj, hspared, hvan⟩
    refine ⟨skipped ++ removed, after, by simp, ?_, ?_, ?_⟩
    · rw [Text.byteLength_append]
      omega
    · exact (spared_cons (by omega)).mpr ⟨by omega, hspared⟩
    · exact (vanishes_cons hlt hrest (by omega)).mpr ⟨hmark, hvan⟩

theorem meet_keep (h : Fits (offset + c.utf8Size) rest cuts) :
    Meet offset (c :: rest) cuts x i y j ↔
      (x = c ∧ i = offset) ∧ Opens (offset + c.utf8Size) rest cuts y j ∨
        Meet (offset + c.utf8Size) rest cuts x i y j := by
  constructor
  · rintro ⟨before, removed, after, htext, hi, hj, hsi, hsj, hvan⟩
    cases before with
    | nil =>
      obtain ⟨rfl, rfl⟩ := List.cons.inj htext
      rw [Text.byteLength_nil, Nat.add_zero] at hi
      subst hi
      exact .inl ⟨⟨rfl, rfl⟩, removed, after, rfl, hj, hsj, hvan⟩
    | cons d before =>
      obtain ⟨rfl, rfl⟩ := List.cons.inj htext
      rw [Text.byteLength_cons, ← Nat.add_assoc] at hi
      exact .inr ⟨before, removed, after, rfl, hi, hj, hsi, hsj, hvan⟩
  · rintro (⟨⟨rfl, rfl⟩, removed, after, rfl, hj, hsj, hvan⟩ |
      ⟨before, removed, after, rfl, hi, hj, hsi, hsj, hvan⟩)
    · exact ⟨[], removed, after, rfl, rfl, hj, spared_before h, hsj, hvan⟩
    · refine ⟨c :: before, removed, after, rfl, ?_, hj, hsi, hsj, hvan⟩
      rw [hi, Text.byteLength_cons, Nat.add_assoc]

theorem meet_cut (hstop : k.span.stop = k.span.start + Text.byteLength skipped) :
    Meet k.span.start (skipped ++ rest) (k :: cs) x i y j ↔ Meet k.span.stop rest cs x i y j := by
  constructor
  · rintro ⟨before, removed, after, htext, hi, hj, hsi, hsj, hvan⟩
    obtain ⟨hle, hsi⟩ := (spared_cons (by omega)).mp hsi
    obtain ⟨-, hsj⟩ := (spared_cons (by omega)).mp hsj
    obtain ⟨m, rfl, rfl⟩ := Text.append_split_of_le htext (by omega)
    rw [Text.byteLength_append] at hi
    exact ⟨m, removed, after, rfl, by omega, hj, hsi, hsj,
      (vanishes_cons_of_le (by omega)).mp hvan⟩
  · rintro ⟨before, removed, after, rfl, hi, hj, hsi, hsj, hvan⟩
    refine ⟨skipped ++ before, removed, after, by simp, ?_, hj, ?_, ?_, ?_⟩
    · rw [Text.byteLength_append]
      omega
    · exact (spared_cons (by omega)).mpr ⟨by omega, hsi⟩
    · exact (spared_cons (by omega)).mpr ⟨by omega, hsj⟩
    · exact (vanishes_cons_of_le (by omega)).mpr hvan

end Steps

section Runs

variable {offset : Nat} {rest : List Char} {cuts : List Cut} {x y : Char} {i j : Nat}
  (h : Fits offset rest cuts)

include h

theorem Fits.traced_eq_cons_iff (hne : ∀ k ∈ cuts, k.span.start < k.span.stop) :
    (∃ tail, traced offset rest cuts = (y, some j) :: tail) ↔ Opens offset rest cuts y j := by
  induction h using Fits.steps with
  | done offset => simp [traced, placed, Opens]
  | keep offset c rest cuts hfits ih _ =>
    rw [traced_keep hfits, opens_keep hfits]
    simp [eq_comm]
  | cut k cs skipped rest hstop hrest ih _ =>
    rw [traced_cut hstop, opens_cut (hne k (by simp)) hstop hrest,
      ← ih fun m hm => hne m (by simp [hm])]
    cases hmark : k.marker with
    | nil => simp
    | cons d marker => simp

theorem Fits.traced_infix_iff (hne : ∀ k ∈ cuts, k.span.start < k.span.stop) :
    [(x, some i), (y, some j)] <:+: traced offset rest cuts ↔ Meet offset rest cuts x i y j := by
  induction h using Fits.steps with
  | done offset => simp [traced, placed, Meet]
  | keep offset c rest cuts hfits ih _ =>
    rw [traced_keep hfits, meet_keep hfits, List.infix_cons_iff, ih hne,
      ← hfits.traced_eq_cons_iff hne, List.cons_prefix_cons]
    simp [List.IsPrefix, eq_comm]
  | cut k cs skipped rest hstop hrest ih _ =>
    rw [traced_cut hstop, meet_cut hstop, ← ih fun m hm => hne m (by simp [hm])]
    -- what stands in for a cut has no place in the text
    induction k.marker with
    | nil => rfl
    | cons d marker ihmarker =>
      rw [List.map_cons, List.cons_append, List.infix_cons_iff, ihmarker]
      simp

theorem Fits.mem_marker {e : Char} (he : (e, none) ∈ traced offset rest cuts) :
    ∃ k ∈ cuts, e ∈ k.marker := by
  induction h using Fits.steps with
  | done offset => simp [traced, placed] at he
  | keep offset c rest cuts hfits ih _ =>
    rw [traced_keep hfits] at he
    exact ih (by simpa using he)
  | cut k cs skipped rest hstop hrest ih _ =>
    rw [traced_cut hstop, List.mem_append] at he
    rcases he with he | he
    · exact ⟨k, by simp, by simpa using he⟩
    · obtain ⟨m, hm, hmem⟩ := ih he
      exact ⟨m, by simp [hm], hmem⟩

end Runs

theorem pair_infix_trimBy_iff {α : Type} {p : α → Bool} {a b : α} {l : List α}
    (ha : p a = false) (hb : p b = false) : [a, b] <:+: trimBy p l ↔ [a, b] <:+: l := by
  constructor
  · exact fun h => h.trans (isInfix_trimBy p l)
  · exact fun h => infix_trimBy h (by simp) (by simpa using ha) (by simpa using hb)

end Splice

namespace Outline

open Splice

def LeftOut (bodies : List Body) (cuts : List Cut) (lo hi : Nat) : Prop :=
  ∀ offset, lo ≤ offset → offset < hi → ∃ b ∈ bodies, ∃ k ∈ cuts,
    b.elision? none = some k ∧ k.span.Covers offset

section Markers

variable {text : List Char} {bodies : List Body} {literals : List Literal} {limit : Nat}
  {cuts : List Cut} (hplan : plan text bodies literals ⟨limit, none⟩ = .ok cuts)

include hplan

theorem marker_cases {k : Cut} (hk : k ∈ cuts) :
    k.marker = ellipsis ∨ k.marker = [] ∧ ∃ b ∈ bodies, b.elision? none = some k := by
  have hmem := List.mem_of_find?_eq_some ((Plan.plan_kept hplan).first k hk)
  rcases Plan.mem_candidates.mp hmem with ⟨l, -, -, hl⟩ | ⟨b, hb, hcut⟩
  · obtain ⟨content, -, -, rfl⟩ := Literal.truncation?_eq_some_iff.mp hl
    exact .inl rfl
  · refine .inr ⟨?_, b, hb, hcut⟩
    obtain ⟨-, rfl⟩ := Plan.elision?_eq_some_iff.mp hcut
    rfl

theorem exists_offset (hfits : Fits 0 text cuts) {x : Char} {p : Option Nat}
    (hmem : (x, p) ∈ remaining text cuts) (hdot : x ≠ '.') : ∃ i, p = some i := by
  cases p with
  | some i => exact ⟨i, rfl⟩
  | none =>
    obtain ⟨k, hk, hxk⟩ := hfits.mem_marker ((isInfix_trimBy _ _).mem hmem)
    rcases marker_cases hplan hk with hdots | ⟨hnil, -⟩
    · exact absurd (by simpa [hdots, ellipsis] using hxk) hdot
    · simp [hnil] at hxk

theorem vanishes_iff_leftOut {lo hi : Nat} : Vanishes cuts lo hi ↔ LeftOut bodies cuts lo hi := by
  refine forall_congr' fun offset => forall_congr' fun _ => forall_congr' fun _ => ?_
  constructor
  · rintro ⟨k, hk, hmark, hcov⟩
    rcases marker_cases hplan hk with hdots | ⟨-, b, hb, hcut⟩
    · rw [hdots] at hmark
      cases hmark
    · exact ⟨b, hb, k, hk, hcut, hcov⟩
  · rintro ⟨b, hb, k, hk, hcut, hcov⟩
    refine ⟨k, hk, ?_, hcov⟩
    obtain ⟨-, rfl⟩ := Plan.elision?_eq_some_iff.mp hcut
    rfl

end Markers

/-- Two characters of words are neighbours once the cuts are made, but not one behind the other in
the text. -/
def Merge (text : List Char) (cuts : List Cut) (word : Char → Bool) : Prop :=
  ∃ x p y q, [(x, p), (y, q)] <:+: remaining text cuts ∧ word x = true ∧ word y = true ∧
    ¬∃ i, p = some i ∧ q = some (i + x.utf8Size)

/-- Two characters of words stay, and all that is between them, which is not nothing, is left out
with bodies. -/
def Part (text : List Char) (bodies : List Body) (cuts : List Cut) (word : Char → Bool) : Prop :=
  ∃ before x removed y after, text = before ++ x :: (removed ++ y :: after) ∧ removed ≠ [] ∧
    word x = true ∧ word y = true ∧ Spared cuts (Text.byteLength before) ∧
    Spared cuts (Text.byteLength (before ++ x :: removed)) ∧
    LeftOut bodies cuts (Text.byteLength (before ++ [x])) (Text.byteLength (before ++ x :: removed))

section Words

variable {text : List Char} {bodies : List Body} {literals : List Literal} {limit : Nat}
  {cuts : List Cut} {word : Char → Bool} (hfits : Fits 0 text cuts)
  (hplan : plan text bodies literals ⟨limit, none⟩ = .ok cuts)
  (hblank : ∀ c, Text.isBlank c = true → word c = false)

include hfits hplan hblank

theorem pair_infix_remaining_iff {x y : Char} {i j : Nat} (hx : word x = true)
    (hy : word y = true) :
    [(x, some i), (y, some j)] <:+: remaining text cuts ↔ Meet 0 text cuts x i y j := by
  have hstays : ∀ c, word c = true → Text.isBlank c = false := by
    intro c hc
    cases hb : Text.isBlank c with
    | false => rfl
    | true => rw [hblank c hb] at hc; cases hc
  rw [← hfits.traced_infix_iff (Plan.plan_kept hplan).nonempty]
  exact pair_infix_trimBy_iff (hstays x hx) (hstays y hy)

theorem Merge.part (h : Merge text cuts word) (hdot : word '.' = false) :
    Part text bodies cuts word := by
  have hplaced : ∀ x p, (x, p) ∈ remaining text cuts → word x = true → ∃ i, p = some i := by
    intro x p hmem hx
    refine exists_offset hplan hfits hmem ?_
    rintro rfl
    rw [hdot] at hx
    cases hx
  obtain ⟨x, p, y, q, hin, hx, hy, hnot⟩ := h
  obtain ⟨i, rfl⟩ := hplaced x p (hin.mem (by simp)) hx
  obtain ⟨j, rfl⟩ := hplaced y q (hin.mem (by simp)) hy
  obtain ⟨before, removed, after, htext, hi, hj, hsi, hsj, hvan⟩ :=
    (pair_infix_remaining_iff hfits hplan hblank hx hy).mp hin
  have hi' : i = Text.byteLength before := by omega
  have hj' : j = Text.byteLength (before ++ x :: removed) := by
    simp only [Text.byteLength_append, Text.byteLength_cons]
    omega
  have hi'' : i + x.utf8Size = Text.byteLength (before ++ [x]) := by simp [hi']
  rw [hi'', hj'] at hvan
  refine ⟨before, x, removed, y, after, htext, ?_, hx, hy, hi' ▸ hsi, hj' ▸ hsj,
    (vanishes_iff_leftOut hplan).mp hvan⟩
  rintro rfl
  exact hnot ⟨i, rfl, by simpa using hj⟩

theorem Part.merge (h : Part text bodies cuts word) : Merge text cuts word := by
  obtain ⟨before, x, removed, y, after, htext, hne, hx, hy, hsx, hsy, hleft⟩ := h
  have hj : Text.byteLength (before ++ x :: removed) =
      Text.byteLength before + x.utf8Size + Text.byteLength removed := by simp [Nat.add_assoc]
  have hvan := (vanishes_iff_leftOut hplan).mpr hleft
  rw [Text.byteLength_append] at hvan
  have hin := (pair_infix_remaining_iff hfits hplan hblank hx hy).mpr
    ⟨before, removed, after, htext, by simp, hj, hsx, hsy, hvan⟩
  refine ⟨x, _, y, _, hin, hx, hy, ?_⟩
  rintro ⟨i, hi, hij⟩
  have hpos := Text.byteLength_pos hne
  simp only [Option.some.injEq] at hi hij
  omega

theorem merge_iff_part (hdot : word '.' = false) :
    Merge text cuts word ↔ Part text bodies cuts word :=
  ⟨fun h => h.part hfits hplan hblank hdot, fun h => h.merge hfits hplan hblank⟩

end Words

/-- Words that were apart merge exactly where they stay and all that parts them is left out with
bodies. This is so for every tree whose nodes begin and end between characters of the text, and the
trees that are read without an error are such trees. -/
theorem words_merge_iff (language : Language) (text : List Char) (limit : Nat) :
    ((language.tree text).hasError = false → (language.tree text).PlacedIn text) ∧
    ∀ (tree : Tree) (cuts : List Cut), language ≠ .python → tree.PlacedIn text →
      plan text (ofTree language text tree).bodies (ofTree language text tree).literals
        ⟨limit, language.placeholder?⟩ = .ok cuts →
      (remaining text cuts).map Prod.fst = apply text cuts ∧
      ∀ word : Char → Bool, (∀ c, Text.isBlank c = true → word c = false) → word '.' = false →
        (Merge text cuts word ↔ Part text (ofTree language text tree).bodies cuts word) := by
  refine ⟨?_, ?_⟩
  · intro herror
    exact Language.tree_placedIn herror
  · intro tree cuts hpy hplaced hplan
    have hfits : Fits 0 text cuts := hplaced.fits hplan
    rw [Language.placeholder?_eq_none hpy] at hplan
    refine ⟨hfits.map_remaining, ?_⟩
    intro word hblank hdot
    exact merge_iff_part hfits hplan hblank hdot

def isWordPart (c : Char) : Bool := c.isAlphanum || c == '_'

theorem isBlank_of_isWordPart {c : Char} (h : isWordPart c = true) : Text.isBlank c = false := by
  have hn : 48 ≤ c.toNat ∧ c.toNat ≤ 122 := by
    change (((decide (65 ≤ c.val ∧ c.val ≤ 90) || decide (97 ≤ c.val) && decide (c.val ≤ 122)) ||
      decide (48 ≤ c.val) && decide (c.val ≤ 57)) || c == '_') = true at h
    simp only [Bool.or_eq_true, Bool.and_eq_true, decide_eq_true_eq, UInt32.le_iff_toNat_le,
      beq_iff_eq] at h
    rcases h with ((h | h) | h) | rfl
    · exact ⟨Nat.le_trans (by decide) h.1, Nat.le_trans h.2 (by decide)⟩
    · exact ⟨Nat.le_trans (by decide) h.1, h.2⟩
    · exact ⟨h.1, Nat.le_trans h.2 (by decide)⟩
    · decide
  simp only [Text.isBlank]
  grind

def wordBehindBody : List Char := "fn f() -> u8 \x7b 1 \x7duse a;".toList

theorem words_merge_wordBehindBody :
    Merge wordBehindBody [⟨⟨12, 18⟩, []⟩] isWordPart := by
  have houtline : Language.outline .rust wordBehindBody = ⟨[⟨⟨13, 18⟩, 12, none⟩], []⟩ := by
    decide +kernel
  have hplan : plan wordBehindBody (Language.outline .rust wordBehindBody).bodies
      (Language.outline .rust wordBehindBody).literals ⟨100, Language.placeholder? .rust⟩ =
        .ok [⟨⟨12, 18⟩, []⟩] := by
    rw [houtline]
    simp [plan, Plan.candidates, Body.elision?, Plan.sweep, Except.map, Body.marker,
      Language.placeholder?]
  have hblank : ∀ c, Text.isBlank c = true → isWordPart c = false := by
    intro c hc
    cases hw : isWordPart c with
    | false => rfl
    | true => rw [isBlank_of_isWordPart hw] at hc; cases hc
  obtain ⟨hplaced, hiff⟩ := words_merge_iff .rust wordBehindBody 100
  have hmerge := (hiff _ _ (by decide) (hplaced (by decide +kernel)) hplan).2 isWordPart hblank
    (by decide)
  refine hmerge.mpr
    ⟨"fn f() -> u".toList, '8', " \x7b 1 \x7d".toList, 'u', "se a;".toList, by decide, by decide,
      by decide, by decide, by decide, by decide, ?_⟩
  intro offset h1 h2
  have hbodies : (ofTree .rust wordBehindBody (Language.tree .rust wordBehindBody)).bodies =
      [⟨⟨13, 18⟩, 12, none⟩] := congrArg Outline.bodies houtline
  exact ⟨⟨⟨13, 18⟩, 12, none⟩, by simp [hbodies], ⟨⟨12, 18⟩, []⟩, by simp, rfl, h1, h2⟩

theorem words_merge_signature :
    (Language.tree .rust wordBehindBody).hasError = false ∧ ¬['8', 'u'] <:+: wordBehindBody ∧
    (Abridge.source .rust "a.rs".toList wordBehindBody {}).toOption =
      some "fn f() -> u8use a;".toList := by
  decide +kernel

end Outline
end Synopsis
