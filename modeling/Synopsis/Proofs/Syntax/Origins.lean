import Synopsis.Proofs.Syntax.Places
import Synopsis.Syntax.Scan

/-!
# Where nodes come from

Every node below the whole of a tree, faults apart, was made by a pattern for a node in some rule of
the grammar, out of what that pattern read from a place of the text on. So what is to be shown of
the nodes of one kind is shown by looking at the patterns that make this kind, and following what
these read.
-/

namespace Synopsis.Syntax

open Synopsis.Text

namespace Pattern

def nodes {ρ : Type} : Pattern ρ → List (Kind × Pattern ρ)
  | seq first second => first.nodes ++ second.nodes
  | either first second => first.nodes ++ second.nodes
  | many item => item.nodes
  | node kind inner => (kind, inner) :: inner.nodes
  | _ => []

/-- The nodes that the pattern adds itself, and those of the rules that it calls, are of these
kinds and from these rules. -/
def Tops {ρ : Type} (ok : Kind → Prop) (calls : ρ → Prop) : Pattern ρ → Prop
  | supply text => ok (.token text)
  | seq first second => first.Tops ok calls ∧ second.Tops ok calls
  | either first second => first.Tops ok calls ∧ second.Tops ok calls
  | many item => item.Tops ok calls
  | node kind _ => ok kind
  | rule name => calls name
  | given choose => ∀ rest name, choose rest = some name → calls name
  | _ => True

end Pattern

section Passes

structure Place.Passes (p : Place) (stretch : List Char) (q : Place) : Prop where
  rest : p.rest = stretch ++ q.rest
  offset : q.offset = p.offset + byteLength stretch

namespace Place

variable {p q r : Place} {a b : List Char}

theorem Passes.trans (hpq : p.Passes a q) (hqr : q.Passes b r) : p.Passes (a ++ b) r :=
  ⟨by rw [hpq.rest, hqr.rest, List.append_assoc],
    by rw [hqr.offset, hpq.offset, byteLength_append, Nat.add_assoc]⟩

theorem advance_passes (n : Nat) (p : Place) : p.Passes (p.rest.take n) (p.advance n) := by
  fun_induction Place.advance n p with
  | case1 p => exact ⟨by simp, by simp⟩
  | case2 n p hrest => exact ⟨by simp [hrest], by simp [hrest]⟩
  | case3 n p c rest hrest ih =>
    refine ⟨?_, ?_⟩
    · rw [hrest, List.take_succ_cons, List.cons_append]
      exact congrArg _ ih.rest
    · rw [ih.offset, hrest, List.take_succ_cons, byteLength_cons, Nat.add_assoc]

theorem advance_rest (n : Nat) (p : Place) : (p.advance n).rest = p.rest.drop n :=
  List.append_cancel_left ((advance_passes n p).rest.symm.trans (List.take_append_drop n _).symm)

theorem In.passes {text : List Char} (hp : p.In text) (hq : q.In text)
    (hle : p.offset ≤ q.offset) : ∃ stretch, p.Passes stretch q := by
  obtain ⟨before, htext, hlen⟩ := hp.rest
  obtain ⟨before', htext', hlen'⟩ := hq.rest
  obtain ⟨stretch, rfl, hrest⟩ := append_split_of_le (htext.symm.trans htext') (by omega)
  refine ⟨stretch, hrest, ?_⟩
  rw [← hlen', ← hlen, byteLength_append]

theorem In.slice?_eq {text stretch : List Char} (hp : p.In text) (h : p.Passes stretch q) :
    slice? text ⟨p.offset, q.offset⟩ = some stretch := by
  obtain ⟨before, htext, hlen⟩ := hp.rest
  refine slice?_eq_some_iff.mpr ⟨before, q.rest, ?_, hlen, ?_⟩
  · rw [htext, h.rest, List.append_assoc]
  · rw [hlen, h.offset]

end Place

end Passes

section Marks

variable {ρ : Type} {repair : Repair} {call : ρ → Place → Outcome} {p q : Place} {c : Char}

theorem Pattern.read_mark_passes
    (h : (take (Scan.text [c]) : Pattern ρ).read repair call p = .ok q) : p.Passes [c] q := by
  obtain ⟨n, hn, rfl⟩ := read_take_eq_ok.mp h
  have hpass := Place.advance_passes n p
  cases hrest : p.rest with
  | nil =>
    rw [hrest] at hn
    cases hn
  | cons d rest =>
    rw [hrest] at hn hpass
    by_cases hcd : c = d
    · subst hcd
      have hn' : n = 1 := by simpa [Scan.text, Scan.startsWith, eq_comm] using hn
      subst hn'
      exact ⟨hpass.rest, hpass.offset⟩
    · simp [Scan.text, Scan.startsWith, hcd] at hn

end Marks

section Made

variable {ρ : Type} {g : Grammar ρ} {repair : Repair} {text : List Char}

/-- A pattern of the grammar made the node out of what it read from a place of the text on. -/
def Grammar.Made (g : Grammar ρ) (repair : Repair) (text : List Char) (x : Tree) : Prop :=
  ∃ name inner depth p q, (x.kind, inner) ∈ (g name).nodes ∧ Place.In text p ∧ p.found = [] ∧
    inner.read repair (g.read repair depth) p = .ok q ∧
    x = .node x.kind ⟨p.offset, q.offset⟩ false q.found.reverse

structure Grammar.Stocked (g : Grammar ρ) (repair : Repair) (text : List Char) (p : Place) :
    Prop where
  inText : p.In text
  made : ∀ t ∈ p.found, ∀ x ∈ t.preorder, x.faulty = false → g.Made repair text x

namespace Grammar.Stocked

variable {p : Place}

theorem moved {q : Place} (h : g.Stocked repair text p) (hq : q.In text)
    (hfound : q.found = p.found) : g.Stocked repair text q :=
  ⟨hq, by rw [hfound]; exact h.made⟩

theorem advance (h : g.Stocked repair text p) (n : Nat) : g.Stocked repair text (p.advance n) :=
  h.moved (h.inText.advance n) (Place.advance_found n p)

theorem add_faulty (h : g.Stocked repair text p) {kind : Kind} {span : Span} {missing : Bool}
    (hfault : (kind == .error || missing) = true) :
    g.Stocked repair text (p.add (.node kind span missing [])) := by
  refine ⟨h.inText.add_faulty hfault, fun t ht x hx hx' => ?_⟩
  rcases List.mem_cons.mp ht with rfl | ht
  · obtain rfl : x = .node kind span missing [] := by
      simpa [Tree.preorder, Tree.preorderAll] using hx
    exact absurd (hfault.symm.trans hx') (by decide)
  · exact h.made t ht x hx hx'

theorem skip (h : g.Stocked repair text p) (blank : List Char → Nat) (holes : List Span) :
    g.Stocked repair text (p.skip blank holes) := by
  refine @skip_related (fun p q => g.Stocked repair text p → g.Stocked repair text q)
    (fun hpq hqr hp => hqr (hpq hp)) (fun n p hp => hp.advance n) (fun hole p hp => ?_) blank
    holes p h
  exact (hp.moved (hp.inText.moveTo _) (Place.moveTo_go_found _ _ _)).add_faulty rfl

end Grammar.Stocked

theorem Pattern.read_stocked {depth : Nat}
    (hcall : ∀ name p q, g.read repair depth name p = .ok q → g.Stocked repair text p →
      g.Stocked repair text q) {name : ρ} {pattern : Pattern ρ}
    (hsub : ∀ e ∈ pattern.nodes, e ∈ (g name).nodes) {p q : Place}
    (h : pattern.read repair (g.read repair depth) p = .ok q) (hp : g.Stocked repair text p) :
    g.Stocked repair text q := by
  induction pattern generalizing p q with
  | nothing =>
    obtain rfl := Except.ok.inj h
    exact hp
  | take scan =>
    obtain ⟨n, -, rfl⟩ := read_take_eq_ok.mp h
    exact hp.advance n
  | skip blank =>
    obtain rfl := Except.ok.inj h
    exact hp.skip blank repair.skipped
  | supply token =>
    obtain rfl := read_supply_eq_ok h
    exact hp.add_faulty (Bool.or_true _)
  | seq first second ih1 ih2 =>
    simp only [nodes, List.mem_append] at hsub
    obtain ⟨r, hr, h⟩ := read_seq_eq_ok.mp h
    exact ih2 (fun e he => hsub e (.inr he)) h (ih1 (fun e he => hsub e (.inl he)) hr hp)
  | either first second ih1 ih2 =>
    simp only [nodes, List.mem_append] at hsub
    rcases read_either_eq_ok h with h | ⟨reach, h⟩
    · exact ih1 (fun e he => hsub e (.inl he)) h hp
    · exact ih2 (fun e he => hsub e (.inr he)) h (hp.moved ⟨hp.inText.rest, hp.inText.found⟩ rfl)
  | many item ih =>
    exact @repeatStep_related (fun p q => g.Stocked repair text p → g.Stocked repair text q)
      (fun hpq hqr hp => hqr (hpq hp))
      (fun p reach hp => hp.moved ⟨hp.inText.rest, hp.inText.found⟩ rfl) _
      (fun p q hpq hp => ih hsub hpq hp) _ p q h hp
  | ahead item =>
    obtain rfl := eq_of_read_ahead h
    exact hp
  | refuse item =>
    obtain rfl := eq_of_read_refuse h
    exact hp
  | node kind inner ih =>
    simp only [nodes, List.mem_cons] at hsub
    obtain ⟨r, hr, rfl⟩ := read_node_eq_ok.mp h
    have hstart : Place.In text { p with found := [] } := ⟨hp.inText.rest, by simp⟩
    have hinner := ih (fun e he => hsub e (.inr he)) hr ⟨hstart, by simp⟩
    have hin : Place.In text _ :=
      Pattern.read_in (fun _ _ _ hpq hp => Grammar.read_in hpq hp) h hp.inText
    refine ⟨hin, fun t ht x hx hfault => ?_⟩
    rcases List.mem_cons.mp ht with rfl | ht
    · rcases Tree.mem_preorder.mp hx with rfl | hx
      · exact ⟨name, inner, depth, _, r, hsub _ (.inl rfl), hstart, rfl, hr, rfl⟩
      · obtain ⟨c, hc, hxc⟩ := Tree.mem_descendants.mp hx
        exact hinner.made c (List.mem_reverse.mp hc) x hxc hfault
    · exact hp.made t ht x hx hfault
  | silent inner =>
    have hin := Pattern.read_in (fun _ _ _ hpq hp => Grammar.read_in hpq hp) h hp.inText
    obtain ⟨r, -, rfl⟩ := read_silent_eq_ok.mp h
    exact hp.moved hin rfl
  | rule name => exact hcall name p q h hp
  | given choose =>
    obtain ⟨name, -, h⟩ := read_given_eq_ok.mp h
    exact hcall name p q h hp

theorem Grammar.read_stocked {depth : Nat} {name : ρ} {p q : Place}
    (h : g.read repair depth name p = .ok q) (hp : g.Stocked repair text p) :
    g.Stocked repair text q := by
  induction depth generalizing name p q with
  | zero => cases h
  | succ depth ih =>
    exact Pattern.read_stocked (fun name p q h hp => ih h hp) (fun e he => he) h hp

theorem Grammar.tree?_kind {name : ρ} {t : Tree}
    (h : g.tree? repair name text = .ok t) : t.kind = .file := by
  simp only [Grammar.tree?] at h
  split at h
  case h_1 =>
    obtain rfl := Except.ok.inj h
    rfl
  case h_2 => cases h

theorem Grammar.tree?_made {name : ρ} {t : Tree} (h : g.tree? repair name text = .ok t) {x : Tree}
    (hx : x ∈ t.descendants) (hfault : x.faulty = false) : g.Made repair text x := by
  simp only [Grammar.tree?] at h
  split at h
  case h_1 p hp =>
    obtain rfl := Except.ok.inj h
    have hstart : g.Stocked repair text (Place.start text) :=
      ⟨Place.start_in text, by simp [Place.start_found]⟩
    obtain ⟨c, hc, hxc⟩ := Tree.mem_descendants.mp hx
    exact (Grammar.read_stocked hp hstart).made c (List.mem_reverse.mp hc) x hxc hfault
  case h_2 => cases h

end Made

section Tops

variable {ρ : Type} {ok : Kind → Prop} {calls : ρ → Prop} {repair : Repair}

def Place.Gains (ok : Kind → Prop) (p q : Place) : Prop :=
  ∃ new, q.found = new ++ p.found ∧ ∀ t ∈ new, ok t.kind

theorem Place.Gains.refl {p q : Place} (h : q.found = p.found) : p.Gains ok q :=
  ⟨[], h, by simp⟩

theorem Place.Gains.trans {p q r : Place} (hpq : p.Gains ok q) (hqr : q.Gains ok r) :
    p.Gains ok r := by
  obtain ⟨a, ha, hoka⟩ := hpq
  obtain ⟨b, hb, hokb⟩ := hqr
  refine ⟨b ++ a, by rw [hb, ha, List.append_assoc], fun t ht => ?_⟩
  rcases List.mem_append.mp ht with ht | ht
  · exact hokb t ht
  · exact hoka t ht

theorem Place.Gains.add {p q : Place} (t : Tree) (ht : ok t.kind) (h : q.found = t :: p.found) :
    p.Gains ok q :=
  ⟨[t], h, by simpa using ht⟩

theorem skip_gains (herror : ok .error) (blank : List Char → Nat) (holes : List Span) (p : Place) :
    p.Gains ok (p.skip blank holes) :=
  @skip_related (Place.Gains ok) (fun hpq hqr => hpq.trans hqr)
    (fun n p => .refl (Place.advance_found n p))
    (fun hole _ => .add (.node .error hole false []) herror
      (congrArg _ (Place.moveTo_go_found _ _ _))) blank holes p

theorem Pattern.read_gains (herror : ok .error) {call : ρ → Place → Outcome}
    (hcall : ∀ name p q, calls name → call name p = .ok q → p.Gains ok q) {pattern : Pattern ρ}
    (htops : pattern.Tops ok calls) {p q : Place} (h : pattern.read repair call p = .ok q) :
    p.Gains ok q := by
  induction pattern generalizing p q with
  | nothing =>
    obtain rfl := Except.ok.inj h
    exact .refl rfl
  | take scan =>
    obtain ⟨n, -, rfl⟩ := read_take_eq_ok.mp h
    exact .refl (Place.advance_found n p)
  | skip blank =>
    obtain rfl := Except.ok.inj h
    exact skip_gains herror blank repair.skipped p
  | supply text =>
    obtain rfl := read_supply_eq_ok h
    exact .add (.node (.token text) ⟨p.offset, p.offset⟩ true []) htops rfl
  | seq first second ih1 ih2 =>
    obtain ⟨r, hr, h⟩ := read_seq_eq_ok.mp h
    exact (ih1 htops.1 hr).trans (ih2 htops.2 h)
  | either first second ih1 ih2 =>
    rcases read_either_eq_ok h with h | ⟨reach, h⟩
    · exact ih1 htops.1 h
    · obtain ⟨new, hnew⟩ := ih2 htops.2 h
      exact ⟨new, hnew⟩
  | many item ih =>
    exact @repeatStep_related (Place.Gains ok) (fun hpq hqr => hpq.trans hqr)
      (fun p reach => .refl rfl) _ (fun p q hpq => ih htops hpq) _ p q h
  | ahead item =>
    obtain rfl := eq_of_read_ahead h
    exact .refl rfl
  | refuse item =>
    obtain rfl := eq_of_read_refuse h
    exact .refl rfl
  | node kind inner =>
    obtain ⟨r, -, rfl⟩ := read_node_eq_ok.mp h
    exact .add (.node kind _ false r.found.reverse) htops rfl
  | silent inner =>
    obtain ⟨r, -, rfl⟩ := read_silent_eq_ok.mp h
    exact .refl rfl
  | rule name => exact hcall name p q htops h
  | given choose =>
    obtain ⟨name, hname, h⟩ := read_given_eq_ok.mp h
    exact hcall name p q (htops p.rest name hname) h

theorem Grammar.read_gains {g : Grammar ρ} (herror : ok .error)
    (hg : ∀ name, calls name → (g name).Tops ok calls) {depth : Nat} {name : ρ}
    (hname : calls name) {p q : Place} (h : g.read repair depth name p = .ok q) :
    p.Gains ok q := by
  induction depth generalizing name p q with
  | zero => cases h
  | succ depth ih =>
    exact Pattern.read_gains herror (fun _ _ _ hcall h => ih hcall h) (hg name hname) h

theorem Pattern.exists_found {pattern : Pattern ρ} {g : Grammar ρ} {depth : Nat} {p q : Place}
    (h : pattern.read repair (g.read repair depth) p = .ok q) :
    ∃ new, q.found = new ++ p.found := by
  have htops : ∀ pattern : Pattern ρ, pattern.Tops (fun _ => True) (fun _ => True) := by
    intro pattern
    induction pattern with
    | seq first second ih1 ih2 => exact ⟨ih1, ih2⟩
    | either first second ih1 ih2 => exact ⟨ih1, ih2⟩
    | many item ih => exact ih
    | given choose => exact fun _ _ _ => trivial
    | _ => trivial
  obtain ⟨new, hnew, -⟩ := Pattern.read_gains trivial
    (fun _ _ _ hcall h => Grammar.read_gains trivial (fun name _ => htops (g name)) hcall h)
    (htops pattern) h
  exact ⟨new, hnew⟩

end Tops

end Synopsis.Syntax
