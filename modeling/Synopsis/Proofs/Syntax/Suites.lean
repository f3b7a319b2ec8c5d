import Synopsis.Abridge
import Synopsis.Proofs.LineStarts
import Synopsis.Proofs.Syntax.Origins

/-!
# What follows the colon of a function

A function is read as a header, a colon and a block. Between the colon and the first statement of
the block there are blanks, and comments that end with their line, so what stands before the
statement on its own line is blank.
-/

namespace Synopsis.Grammar.Python

open Synopsis.Syntax Synopsis.Text Pattern

def Spacious (stretch : List Char) : Prop := ∀ c ∈ lastLine stretch, isSpace c = true

section Spacious

variable {a b : List Char} {c : Char}

theorem spacious_nil : Spacious [] := by simp [Spacious, lastLine]

theorem Spacious.append_of_mem (h : '\n' ∈ b) (hb : Spacious b) : Spacious (a ++ b) := by
  rw [Spacious, lastLine_append_of_mem h]
  exact hb

theorem Spacious.append (ha : Spacious a) (hb : Spacious b) : Spacious (a ++ b) := by
  by_cases h : '\n' ∈ b
  · exact hb.append_of_mem h
  · intro c hc
    rw [lastLine_append_of_not_mem h, List.mem_append] at hc
    rcases hc with hc | hc
    · exact ha c hc
    · exact hb c (by rwa [lastLine_of_not_mem h])

theorem Spacious.cons (hc : isSpace c = true) (hb : Spacious b) : Spacious (c :: b) := by
  refine @Spacious.append [c] b (fun d hd => ?_) hb
  have hmem : d ∈ [c] := by
    unfold lastLine at hd
    exact List.mem_reverse.mp ((List.takeWhile_sublist _).mem (List.mem_reverse.mp hd))
  rw [List.mem_singleton.mp hmem]
  exact hc

theorem Spacious.newline (a : List Char) (hb : Spacious b) : Spacious (a ++ '\n' :: b) :=
  Spacious.append_of_mem (by simp) (hb.cons (by decide))

end Spacious

section Blanks

theorem blankInLine_spacious (rest : List Char) : Spacious (rest.take (blankInLine rest)) := by
  fun_induction blankInLine rest with
  | case1 rest ih =>
    rw [Nat.add_comm]
    exact ih.newline ['\\']
  | case2 rest ih =>
    rw [Nat.add_comm]
    exact ih.newline ['\\', '\r']
  | case3 c rest _ _ hc ih =>
    rw [Nat.add_comm]
    exact ih.cons (Bool.and_eq_true_iff.mp hc).2
  | case4 => exact spacious_nil
  | case5 => exact spacious_nil

theorem head_drop_blankInLine (rest : List Char) :
    ∀ c ∈ (rest.drop (blankInLine rest)).head?, isSpaceOrTab c = false := by
  fun_induction blankInLine rest with
  | case1 rest ih =>
    rw [Nat.add_comm]
    exact ih
  | case2 rest ih =>
    rw [Nat.add_comm]
    exact ih
  | case3 c rest _ _ _ ih =>
    rw [Nat.add_comm]
    exact ih
  | case4 c rest _ _ hc =>
    intro d hd
    obtain rfl : c = d := by simpa using hd
    rw [← Bool.not_eq_true]
    intro hblank
    simp only [isSpaceOrTab, Bool.or_eq_true, beq_iff_eq] at hblank
    refine hc ?_
    rcases hblank with rfl | rfl <;> decide
  | case5 => simp

/-- Looking ahead, with `n` characters passed before, goes on over a stretch with nothing but blanks
on its last line, up to a token. From inside a comment, it goes beyond the end of the line. -/
def Looks (n : Nat) (inComment : Bool) (rest : List Char) (a : Ahead) : Prop :=
  ∃ taken after, rest = taken ++ after ∧ a.length = n + taken.length ∧ Spacious taken ∧
    (inComment = true → '\n' ∈ taken) ∧ (ahead after).length = 0

theorem Looks.step {n : Nat} {inner outer : Bool} {rest : List Char} {a : Ahead}
    (front : List Char) (h : Looks (n + front.length) inner rest a)
    (hsp : ∀ taken, Spacious taken → (inner = true → '\n' ∈ taken) → Spacious (front ++ taken))
    (hnl : outer = true → '\n' ∈ front ∨ inner = true) : Looks n outer (front ++ rest) a := by
  obtain ⟨taken, after, rfl, hlen, htaken, hnewline, hstop⟩ := h
  refine ⟨front ++ taken, after, by simp, ?_, hsp taken htaken hnewline, fun hout => ?_, hstop⟩
  · rw [hlen, List.length_append, Nat.add_assoc]
  · rcases hnl hout with hmem | hin
    · exact List.mem_append_left _ hmem
    · exact List.mem_append_right _ (hnewline hin)

theorem ahead_go_looks (n indent : Nat) (comment : Option (Nat × Nat)) (inComment : Bool)
    (rest : List Char) (h : (ahead.go n indent comment inComment rest).atEnd = false) :
    Looks n inComment rest (ahead.go n indent comment inComment rest) := by
  fun_induction ahead.go n indent comment inComment rest with
  | case1 => cases h
  | case2 n indent comment rest ih =>
    exact (ih h).step ['\n'] (fun _ ht _ => ht.newline []) fun _ => .inl (by simp)
  | case3 n indent comment c rest _ ih =>
    exact (ih h).step [c] (fun _ ht hn => ht.append_of_mem (hn rfl)) fun _ => .inr rfl
  | case4 n indent comment inComment rest hout ih =>
    exact (ih h).step [' '] (fun _ ht _ => ht.cons (by decide)) fun hin => absurd hin hout
  | case5 n indent comment inComment rest hout _ ih =>
    exact (ih h).step ['\t'] (fun _ ht _ => ht.cons (by decide)) fun hin => absurd hin hout
  | case6 n indent comment inComment c rest hout _ _ hc ih =>
    have hspace : isSpace c = true := by rcases hc with rfl | rfl | rfl <;> decide
    exact (ih h).step [c] (fun _ ht _ => ht.cons hspace) fun hin => absurd hin hout
  | case7 n indent comment inComment rest hout _ _ _ ih =>
    exact (ih h).step ['#'] (fun _ ht hn => ht.append_of_mem (hn rfl)) fun hin => absurd hin hout
  | case8 n indent comment inComment hout rest _ _ _ _ ih =>
    exact (ih h).step ['\\', '\n'] (fun _ ht _ => ht.newline ['\\']) fun hin => absurd hin hout
  | case9 n indent comment inComment hout rest _ _ _ _ ih =>
    exact (ih h).step ['\\', '\r', '\n'] (fun _ ht _ => ht.newline ['\\', '\r'])
      fun hin => absurd hin hout
  | case10 n indent comment inComment c rest hout h1 h2 h3 h4 h5 h6 =>
    -- where it stopped, it stops again
    refine ⟨[], c :: rest, rfl, rfl, spacious_nil, fun hin => absurd hin hout, ?_⟩
    unfold ahead
    rw [ahead.go, if_neg (by decide), if_neg h1, if_neg h2, if_neg h3, if_neg h4]
    · exact h5
    · exact h6

theorem ahead_looks {rest : List Char} (h : (ahead rest).atEnd = false) :
    Looks 0 false rest (ahead rest) := ahead_go_looks 0 0 none false rest h

theorem ahead_newline {rest : List Char} (h : (ahead ('\n' :: rest)).atEnd = false) :
    Looks 0 true ('\n' :: rest) (ahead ('\n' :: rest)) := by
  have hgo : ahead ('\n' :: rest) = ahead.go 1 0 none false rest := by simp [ahead, ahead.go]
  rw [hgo] at h ⊢
  exact (ahead_go_looks 1 0 none false rest h).step ['\n'] (fun _ ht _ => ht.newline [])
    fun _ => .inl (by simp)

end Blanks

section Reading

variable {depth indent : Nat} {p q r : Syntax.Place}

def Leads (newline : Bool) (p r : Syntax.Place) : Prop :=
  ∃ stretch, p.Passes stretch r ∧ Spacious stretch ∧ (newline = true → '\n' ∈ stretch) ∧
    ∀ c ∈ r.rest.head?, isSpaceOrTab c = false

def Opens (p q : Syntax.Place) (offset : Nat) : Prop :=
  ∃ s later, q.found = later ++ s :: p.found ∧ s.named = true ∧ s.kind ≠ .comment ∧
    (Outline.isDocstring s = true → s.start = offset)

def nextToken (p : Syntax.Place) : Nat := p.offset + byteLength (p.rest.take (blankInLine p.rest))

def Begins (p : Syntax.Place) (block : Tree) : Prop :=
  block.kind = .block ∧ ∀ doc, block.namedChildren.find? (·.kind != .comment) = some doc →
    Outline.isDocstring doc = true → ∃ r, Leads false p r ∧ doc.start = r.offset

theorem gap_leads (p : Syntax.Place) : Leads false p (p.advance (blankInLine p.rest)) := by
  have hpass := Syntax.Place.advance_passes (blankInLine p.rest) p
  refine ⟨_, hpass, blankInLine_spacious p.rest, by simp, ?_⟩
  rw [Syntax.Place.advance_rest]
  exact head_drop_blankInLine p.rest

theorem leads_of_passes {stretch : List Char} {newline : Bool} (h : p.Passes stretch q)
    (hsp : Spacious stretch) (hnl : newline = true → '\n' ∈ stretch) (hq : Leads false q r) :
    Leads newline p r := by
  obtain ⟨more, hpass, hmore, -, hhead⟩ := hq
  exact ⟨stretch ++ more, h.trans hpass, hsp.append hmore,
    fun hnew => List.mem_append_left _ (hnl hnew), hhead⟩

/-- Looking ahead twice, as it is done before a body and before its first line, goes no further. -/
theorem Looks.leads {newline : Bool} (h : Looks 0 newline p.rest (ahead p.rest)) :
    ∃ m, m = p.advance (ahead p.rest).length ∧ (ahead m.rest).length = 0 ∧
      Leads newline p (m.advance (blankInLine m.rest)) := by
  obtain ⟨taken, after, hrest, hlen, hsp, hnl, hstop⟩ := h
  rw [Nat.zero_add] at hlen
  have hpass := Syntax.Place.advance_passes (ahead p.rest).length p
  have htake : p.rest.take (ahead p.rest).length = taken := by
    rw [hlen, hrest, List.take_left]
  rw [htake] at hpass
  have hafter : (p.advance (ahead p.rest).length).rest = after := by
    rw [Syntax.Place.advance_rest, hlen, hrest, List.drop_left]
  exact ⟨_, rfl, by rw [hafter, hstop], leads_of_passes hpass hsp hnl (gap_leads _)⟩

theorem offset_gap (p : Syntax.Place) : (p.advance (blankInLine p.rest)).offset = nextToken p :=
  (Syntax.Place.advance_passes _ _).offset

theorem Opens.more {offset : Nat} (h : Opens p q offset) {pattern : P} {last : Syntax.Place}
    (hread : pattern.read .asIs (Syntax.Grammar.read grammar .asIs depth) q = .ok last) :
    Opens p last offset := by
  obtain ⟨s, later, hfound, hs⟩ := h
  obtain ⟨new, hnew⟩ := Pattern.exists_found hread
  exact ⟨s, new ++ later, by rw [hnew, hfound, List.append_assoc], hs⟩

theorem statement_opens (h : Syntax.Grammar.read grammar .asIs depth .statement p = .ok q) :
    Opens p q (nextToken p) := by
  obtain ⟨fewer, h⟩ := Grammar.read_eq_ok h
  obtain ⟨m, hm, h⟩ := read_seq_eq_ok.mp h
  obtain rfl := Except.ok.inj hm
  have hfound : (p.advance (blankInLine p.rest)).found = p.found := Syntax.Place.advance_found _ _
  rcases read_either_eq_ok h with h | ⟨reach, h⟩
  · obtain ⟨r, -, rfl⟩ := read_node_eq_ok.mp h
    exact ⟨_, [], congrArg _ hfound, rfl, by simp [Tree.kind], fun _ => offset_gap p⟩
  · obtain ⟨r, -, rfl⟩ := read_node_eq_ok.mp h
    exact ⟨_, [], congrArg _ hfound, rfl, by simp [Tree.kind], fun _ => offset_gap p⟩

theorem statements_opens (h : Syntax.Grammar.read grammar .asIs depth .statements p = .ok q) :
    Opens p q (nextToken p) := by
  obtain ⟨fewer, h⟩ := Grammar.read_eq_ok h
  obtain ⟨m, hm, hlast⟩ := read_seq_eq_ok.mp h
  obtain ⟨l, hl, hmany⟩ := read_seq_eq_ok.mp hm
  exact ((statement_opens hl).more hmany).more hlast

theorem line_opens (h : Syntax.Grammar.read grammar .asIs depth (.line indent) p = .ok q) :
    Opens p q (nextToken (p.advance (ahead p.rest).length)) := by
  obtain ⟨fewer, h⟩ := Grammar.read_eq_ok h
  obtain ⟨m, hm, h⟩ := read_seq_eq_ok.mp h
  obtain rfl := Except.ok.inj hm
  have hfound : (p.advance (ahead p.rest).length).found = p.found := Syntax.Place.advance_found _ _
  rcases read_either_eq_ok h with h | ⟨reach, h⟩
  · obtain ⟨r, -, rfl⟩ := read_node_eq_ok.mp h
    exact ⟨_, [], congrArg _ hfound, rfl, by simp [Tree.kind], fun hdoc => by cases hdoc⟩
  · rcases read_either_eq_ok h with h | ⟨reach', h⟩
    · obtain ⟨l, hl, hlast⟩ := read_seq_eq_ok.mp h
      obtain ⟨s, later, hs, hnamed, hkind, hstart⟩ := (statements_opens hl).more hlast
      exact ⟨s, later, hs.trans (congrArg _ (congrArg _ hfound)), hnamed, hkind, hstart⟩
    · obtain ⟨r, -, rfl⟩ := read_node_eq_ok.mp h
      exact ⟨_, [], congrArg _ hfound, rfl, by simp [Tree.kind], fun hdoc => by cases hdoc⟩

theorem Opens.begins {start : Syntax.Place} {offset : Nat} (h : Opens start q offset)
    (hstart : start.found = []) (hoffset : r.offset = offset) (hlead : Leads false p r)
    (span : Span) : Begins p (.node .block span false q.found.reverse) := by
  obtain ⟨s, later, hfound, hnamed, hkind, hs⟩ := h
  refine ⟨rfl, fun doc hdoc hstring => ⟨r, hlead, ?_⟩⟩
  have hfirst : (Syntax.Tree.node .block span false q.found.reverse).namedChildren.find?
      (·.kind != .comment) = some s := by
    simp [Tree.namedChildren, Tree.children, hfound, hstart, hnamed, hkind]
  obtain rfl : s = doc := Option.some.inj (hfirst.symm.trans hdoc)
  rw [hs hstring, hoffset]

theorem body_begins (h : Syntax.Grammar.read grammar .asIs depth (.body indent) p = .ok q)
    {newline : Bool} (hlooks : Looks 0 newline p.rest (ahead p.rest)) {first : Syntax.Place}
    (hfirst : ∀ r, Leads newline p r → Leads false first r) :
    ∃ block, q.found = block :: p.found ∧ Begins first block := by
  obtain ⟨fewer, h⟩ := Grammar.read_eq_ok h
  obtain ⟨_, hm, h⟩ := read_seq_eq_ok.mp h
  obtain rfl := Except.ok.inj hm
  obtain ⟨r, hr, rfl⟩ := read_node_eq_ok.mp h
  obtain ⟨l, hl, hlines⟩ := read_seq_eq_ok.mp hr
  obtain ⟨m, rfl, hstop, hlead⟩ := hlooks.leads
  have hopens := (line_opens hl).more hlines
  -- the first line begins where the block does
  have hsame := congrArg (fun n => nextToken (Syntax.Place.advance n
    { p.advance (ahead p.rest).length with found := [] })) hstop
  refine ⟨_, congrArg _ (Syntax.Place.advance_found _ _), hopens.begins rfl ?_ (hfirst _ hlead) _⟩
  exact (offset_gap _).trans hsame.symm

theorem head_drop_countWhile (f : Char → Bool) (rest : List Char) :
    ∀ c ∈ (rest.drop (Scan.countWhile f rest)).head?, f c = false := by
  induction rest with
  | nil => simp
  | cons c rest ih =>
    rw [Scan.countWhile]
    split
    case isTrue => exact ih
    case isFalse hc => simpa using hc

theorem comment_looks (h : comment.read .asIs (Syntax.Grammar.read grammar .asIs depth) p = .ok q)
    (hend : (ahead q.rest).atEnd = false) : Looks 0 true q.rest (ahead q.rest) := by
  obtain ⟨n, hn, rfl⟩ := read_take_eq_ok.mp h
  split at hn
  case isTrue =>
    obtain rfl := Option.some.inj hn
    have hhead := head_drop_countWhile (· != '\n') p.rest
    rw [Syntax.Place.advance_rest, Scan.restOfLine] at hend ⊢
    cases hrest : p.rest.drop (Scan.countWhile (· != '\n') p.rest) with
    | nil =>
      rw [hrest] at hend
      cases hend
    | cons c rest =>
      rw [hrest] at hend hhead
      obtain rfl : c = '\n' := by simpa using hhead c rfl
      exact ahead_newline hend
  case isFalse => cases hn

theorem suite_begins (h : Syntax.Grammar.read grammar .asIs depth (.suite indent) p = .ok q) :
    ∃ block, q.found = block :: p.found ∧ Begins p block := by
  obtain ⟨fewer, h⟩ := Grammar.read_eq_ok h
  obtain ⟨blanks, hblanks, hspacious, -⟩ := gap_leads p
  rcases read_either_eq_ok h with h | ⟨reach, h⟩
  · -- the statements are on the line of the colon
    obtain ⟨_, hm, h⟩ := read_seq_eq_ok.mp h
    obtain rfl := Except.ok.inj hm
    obtain ⟨_, hrefuse, h⟩ := read_seq_eq_ok.mp h
    obtain rfl := eq_of_read_refuse hrefuse
    obtain ⟨_, hrefuse, h⟩ := read_seq_eq_ok.mp h
    obtain rfl := eq_of_read_refuse hrefuse
    obtain ⟨r, hr, rfl⟩ := read_node_eq_ok.mp h
    obtain ⟨l, hl, hlast⟩ := read_seq_eq_ok.mp hr
    have hopens := (statements_opens hl).more hlast
    have hlead : Leads false p _ :=
      leads_of_passes hblanks hspacious (by simp) (gap_leads (p.advance (blankInLine p.rest)))
    exact ⟨_, congrArg _ (Syntax.Place.advance_found _ _),
      hopens.begins rfl (offset_gap (p.advance (blankInLine p.rest))) hlead _⟩
  · rcases read_either_eq_ok h with h | ⟨_, h⟩
    · -- they are on lines of their own
      obtain ⟨m, hm, h⟩ := read_seq_eq_ok.mp h
      obtain ⟨name, hname, hbody⟩ := read_given_eq_ok.mp h
      simp only [Option.ite_none_right_eq_some, Bool.and_eq_true, Bool.not_eq_true',
        decide_eq_true_eq] at hname
      obtain ⟨⟨hend, -⟩, hname⟩ := hname
      obtain rfl := Option.some.inj hname
      rcases read_either_eq_ok hm with hm | ⟨_, hm⟩
      · obtain ⟨c, hgap, hcomment⟩ := read_seq_eq_ok.mp hm
        obtain ⟨n, -, hn⟩ := read_take_eq_ok.mp hcomment
        have hpass := Syntax.Place.advance_passes n c
        have hfound := Syntax.Place.advance_found n c
        rw [hn] at hpass hfound
        obtain rfl := Except.ok.inj hgap
        have hblanks' := Syntax.Place.advance_passes (blankInLine p.rest) { p with reach }
        have hlead : ∀ r, Leads true m r → Leads false p r := by
          rintro r ⟨stretch, hstretch, hsp, hnl, hhead⟩
          obtain ⟨hrest, hoffset⟩ := (hblanks'.trans hpass).trans hstretch
          exact ⟨_, ⟨hrest, hoffset⟩, hsp.append_of_mem (hnl rfl), by simp, hhead⟩
        obtain ⟨block, hblock, hbegins⟩ := body_begins hbody (comment_looks hcomment hend) hlead
        rw [hfound] at hblock
        exact ⟨block, hblock.trans (congrArg _ (Syntax.Place.advance_found _ _)), hbegins⟩
      · have hlead : ∀ r, Leads false m r → Leads false p r := by
          rintro r ⟨stretch, ⟨hrest, hoffset⟩, hlead⟩
          rw [← Except.ok.inj hm] at hrest hoffset
          exact ⟨stretch, ⟨hrest, hoffset⟩, hlead⟩
        obtain ⟨block, hblock, hbegins⟩ := body_begins hbody (ahead_looks hend) hlead
        rw [← Except.ok.inj hm] at hblock
        exact ⟨block, hblock, hbegins⟩
    · obtain ⟨r, hr, rfl⟩ := read_node_eq_ok.mp h
      obtain rfl := Except.ok.inj hr
      exact ⟨_, rfl, rfl, fun doc hdoc => by cases hdoc⟩

end Reading

def header (indent : Nat) : P :=
  all [opt (word "async"), word "def", signature, gap, node (.token ":") (take (Scan.text [':'])),
    rule (.suite indent)]

theorem function_pattern {name : Rule} {inner : P} (h : (.function, inner) ∈ (grammar name).nodes) :
    ∃ indent, inner = header indent := by
  have hfilter : (.function, inner) ∈ (grammar name).nodes.filter (·.1 == .function) := by
    simp [h]
  cases name with
  | line indent =>
    have hnodes : (grammar (.line indent)).nodes.filter (·.1 == .function) =
        [(.function, header indent)] := rfl
    rw [hnodes, List.mem_singleton] at hfilter
    exact ⟨indent, (Prod.mk.inj hfilter).2⟩
  | string lead quotes =>
    obtain ⟨mark, triple, raw, bytes, format⟩ := quotes
    cases raw <;> cases format <;> cases hfilter
  | _ => cases hfilter

def InHeader : Rule → Prop
  | .inner => True
  | .string _ _ => True
  | _ => False

def HeaderPart (kind : Kind) : Prop := kind = .string ∨ kind = .error

theorem inHeader_of_stringAhead {rest : List Char} {name : Rule}
    (h : stringAhead rest = some name) : InHeader name := by
  unfold stringAhead at h
  simp only at h
  split at h
  case h_1 =>
    split at h
    case isTrue =>
      obtain rfl := Option.some.inj h
      trivial
    case isFalse =>
      split at h
      case isTrue =>
        obtain rfl := Option.some.inj h
        trivial
      case isFalse => cases h
  case h_2 => cases h

theorem brackets_tops (opening closing : Char) :
    (brackets opening closing).Tops HeaderPart InHeader :=
  ⟨trivial, ⟨trivial, trivial⟩, trivial, trivial⟩

theorem anyBrackets_tops : anyBrackets.Tops HeaderPart InHeader :=
  ⟨brackets_tops _ _, brackets_tops _ _, brackets_tops _ _⟩

theorem strings_tops : (given stringAhead).Tops HeaderPart InHeader :=
  fun _ _ h => inHeader_of_stringAhead h

theorem inHeader_tops {name : Rule} (h : InHeader name) :
    (grammar name).Tops HeaderPart InHeader := by
  cases name with
  | inner => exact ⟨strings_tops, anyBrackets_tops, trivial⟩
  | string lead quotes => exact .inl rfl
  | _ => cases h

theorem word_tops (w : String) : (word w).Tops HeaderPart InHeader := ⟨trivial, trivial⟩

theorem opt_tops {pattern : P} (h : pattern.Tops HeaderPart InHeader) :
    (opt pattern).Tops HeaderPart InHeader := ⟨h, trivial⟩

theorem gap_tops : gap.Tops HeaderPart InHeader := trivial

theorem signature_tops : signature.Tops HeaderPart InHeader :=
  ⟨trivial, trivial, opt_tops ⟨trivial, brackets_tops _ _⟩,
    ⟨⟨trivial, brackets_tops _ _⟩, ⟨trivial, trivial⟩, trivial⟩,
    opt_tops ⟨trivial, trivial, trivial, strings_tops, anyBrackets_tops, trivial⟩⟩

theorem made_of_mem_tree {text : List Char} {x : Tree} (hx : x ∈ (tree text).preorder)
    (hfault : x.faulty = false) (hkind : x.kind ≠ .file) :
    Syntax.Grammar.Made grammar .asIs text x := by
  unfold tree at hx
  split at hx
  case h_1 t ht =>
    refine Grammar.tree?_made ht ((Tree.mem_preorder.mp hx).resolve_left ?_) hfault
    rintro rfl
    exact hkind (Grammar.tree?_kind ht)
  case h_2 =>
    obtain rfl : x = .node .file ⟨0, 0⟩ false [] := by
      simpa [Tree.preorder, Tree.preorderAll] using hx
    exact absurd rfl hkind

def Between (text : List Char) (colon doc : Tree) : Prop :=
  ∃ before stretch after, text = before ++ ':' :: (stretch ++ after) ∧
    colon.stop = byteLength (before ++ [':']) ∧
    doc.start = byteLength (before ++ ':' :: stretch) ∧
    Spacious stretch ∧ ∀ c ∈ after.head?, isSpaceOrTab c = false

/-- A function has one colon and one block behind it, and if the block begins with nothing but a
string, blanks and comments lead from the colon to that string. -/
structure Headed (text : List Char) (f colon block : Tree) : Prop where
  children : f.children.filter (fun c => c.kind == .token ":" || c.kind == .block) = [colon, block]
  colonKind : colon.kind = .token ":"
  blockKind : block.kind = .block
  between : ∀ doc ∈ block.namedChildren.find? (·.kind != .comment),
    Outline.isDocstring doc = true → Between text colon doc

theorem between_of_leads {text before : List Char} {colon doc : Tree} {p r : Syntax.Place}
    (htext : text = before ++ ':' :: p.rest) (hbefore : byteLength (before ++ [':']) = p.offset)
    (hcolon : colon.stop = p.offset) (hleads : Leads false p r) (hdoc : doc.start = r.offset) :
    Between text colon doc := by
  obtain ⟨stretch, hpass, hspacious, -, hafter⟩ := hleads
  rw [hpass.rest] at htext
  refine ⟨before, stretch, r.rest, htext, by rw [hcolon, hbefore], ?_, hspacious, hafter⟩
  have hsplit : before ++ ':' :: stretch = before ++ [':'] ++ stretch := by simp
  rw [hdoc, hpass.offset, hsplit, byteLength_append (before ++ [':']), hbefore]

theorem filter_header {front : List Tree} {colon block : Tree}
    (hfront : ∀ t ∈ front, HeaderPart t.kind) (hcolon : colon.kind = .token ":")
    (hblock : block.kind = .block) :
    (front ++ [colon, block]).filter (fun c => c.kind == .token ":" || c.kind == .block) =
      [colon, block] := by
  have hnone : front.filter (fun c => c.kind == .token ":" || c.kind == .block) = [] := by
    rw [List.filter_eq_nil_iff]
    intro t ht
    rcases hfront t ht with hkind | hkind <;> rw [hkind] <;> decide
  rw [List.filter_append, hnone]
  simp [hcolon, hblock]

theorem exists_headed {text : List Char} {f : Tree} (h : Syntax.Grammar.Made grammar .asIs text f)
    (hkind : f.kind = .function) : ∃ colon block, Headed text f colon block := by
  obtain ⟨name, inner, depth, start, last, hmem, hin, hnone, hread, hf⟩ := h
  rw [hkind] at hmem hf
  obtain ⟨indent, rfl⟩ := function_pattern hmem
  have hgains : ∀ {pattern : P} {p q : Syntax.Place}, pattern.Tops HeaderPart InHeader →
      pattern.read .asIs (Syntax.Grammar.read grammar .asIs depth) p = .ok q →
      p.Gains HeaderPart q :=
    fun htops h => Pattern.read_gains (.inr rfl) (fun _ _ _ hname h =>
      Grammar.read_gains (.inr rfl) (fun _ => inHeader_tops) hname h) htops h
  have hplace : ∀ {pattern : P} {p q : Syntax.Place}, pattern.read .asIs
      (Syntax.Grammar.read grammar .asIs depth) p = .ok q → p.In text → q.In text :=
    fun h hp => Pattern.read_in (fun _ _ _ h hp => Grammar.read_in h hp) h hp
  obtain ⟨p1, h1, hread⟩ := read_seq_eq_ok.mp hread
  obtain ⟨p2, h2, hread⟩ := read_seq_eq_ok.mp hread
  obtain ⟨p3, h3, hread⟩ := read_seq_eq_ok.mp hread
  obtain ⟨p4, h4, hread⟩ := read_seq_eq_ok.mp hread
  obtain ⟨p5, h5, hsuite⟩ := read_seq_eq_ok.mp hread
  have hheader : start.Gains HeaderPart p4 :=
    (((hgains (opt_tops (word_tops "async")) h1).trans (hgains (word_tops "def") h2)).trans
      (hgains signature_tops h3)).trans (hgains gap_tops h4)
  have hin4 : p4.In text := hplace h4 (hplace h3 (hplace h2 (hplace h1 hin)))
  obtain ⟨r, hr, h5⟩ := read_node_eq_ok.mp h5
  obtain ⟨hrest, hoffset⟩ := Pattern.read_mark_passes hr
  obtain ⟨block, hblock, hbegins⟩ := suite_begins hsuite
  obtain ⟨front, hfront, hparts⟩ := hheader
  rw [hnone, List.append_nil] at hfront
  obtain ⟨before, htext, hbefore⟩ := hin4.rest
  refine ⟨.node (.token ":") ⟨p4.offset, r.offset⟩ false r.found.reverse, block,
    ?_, rfl, hbegins.1, ?_⟩
  · have hchildren : f.children = p4.found.reverse ++
        [.node (.token ":") ⟨p4.offset, r.offset⟩ false r.found.reverse, block] := by
      rw [hf, hblock, ← h5]
      simp [Tree.children]
    have hkinds : ∀ t ∈ p4.found.reverse, HeaderPart t.kind := by
      intro t ht
      rw [hfront] at ht
      exact hparts t (List.mem_reverse.mp ht)
    rw [hchildren]
    exact filter_header hkinds rfl hbegins.1
  · intro doc hdoc hstring
    obtain ⟨q, hleads, hstart⟩ := hbegins.2 doc hdoc hstring
    refine @between_of_leads _ before _ _ _ _ ?_ ?_ ?_ hleads hstart
    · rw [htext, ← h5]
      exact congrArg _ hrest
    · rw [byteLength_append, hbefore, ← h5]
      exact hoffset.symm
    · rw [← h5]
      rfl

def HeadedIn (text : List Char) (tree : Tree) : Prop :=
  ∀ f ∈ tree.preorder, f.kind = .function → ∃ colon block, Headed text f colon block

theorem tree_headedIn {text : List Char} (herror : (tree text).hasError = false) :
    HeadedIn text (tree text) := by
  intro f hf hkind
  have hmade := made_of_mem_tree hf (Tree.faulty_of_mem_preorder herror hf)
    (by rw [hkind]; decide)
  exact exists_headed hmade hkind

end Synopsis.Grammar.Python
