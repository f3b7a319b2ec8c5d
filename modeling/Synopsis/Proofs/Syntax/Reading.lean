import Synopsis.Syntax.Repair
import Synopsis.Proofs.Syntax.Nesting
import Synopsis.Proofs.Syntax.Steps

/-!
# The trees that patterns build

Reading moves forward and adds nodes in the order of the text, so a node without a fault below it is
well nested. Which kinds of nodes there are can be seen from the patterns: this is checked rule by
rule, and holds of all that is read, with or without repairs.
-/

namespace Synopsis.Syntax

open Synopsis.Syntax.Tree

def Pattern.isTake {ρ : Type} : Pattern ρ → Bool
  | take _ => true
  | _ => false

def Pattern.makes {ρ : Type} (ok : Kind → Bool) : Pattern ρ → Bool
  | nothing => true
  | take _ => true
  | skip _ => true
  | supply text => ok (.token text)
  | seq first second => first.makes ok && second.makes ok
  | either first second => first.makes ok && second.makes ok
  | many item => item.makes ok
  | ahead _ => true
  | refuse _ => true
  | node kind inner => ok kind && (kind.named || inner.isTake) && inner.makes ok
  | silent inner => inner.makes ok
  | rule _ => true
  | given _ => true

structure Built (ok : Kind → Bool) (t : Tree) : Prop where
  nested : t.hasError = false → t.WellNested
  kind : ok t.kind = true
  leaf : t.named = false → t.children = []

/-- Reading from one place to another adds these trees, in the order of the text. -/
structure Adds (ok : Kind → Bool) (p q : Place) (new : List Tree) : Prop where
  found : q.found = new.reverse ++ p.found
  offset_le : p.offset ≤ q.offset
  nested : anyHasError new = false → NestedWithin p.offset q.offset new
  built : ∀ t ∈ new, ∀ x ∈ t.preorder, Built ok x

namespace Tree

theorem NestedWithin.append {lo mid hi : Nat} {a b : List Tree} (ha : NestedWithin lo mid a)
    (hb : NestedWithin mid hi b) : NestedWithin lo hi (a ++ b) := by
  induction a generalizing lo with
  | nil =>
    cases b with
    | nil => exact Nat.le_trans ha hb
    | cons t ts => exact ⟨Nat.le_trans ha hb.1, hb.2⟩
  | cons t ts ih => exact ⟨ha.1, ha.2.1, ih ha.2.2⟩

theorem anyHasError_append (a b : List Tree) :
    anyHasError (a ++ b) = (anyHasError a || anyHasError b) := by
  induction a with
  | nil => rfl
  | cons t ts ih => rw [List.cons_append, anyHasError, anyHasError, ih, Bool.or_assoc]

end Tree

section Adds

variable {ok : Kind → Bool} {p q r : Place}

theorem Adds.moved (hf : q.found = p.found) (ho : p.offset ≤ q.offset) : Adds ok p q [] :=
  ⟨hf, ho, fun _ => ho, fun _ ht => by cases ht⟩

theorem Adds.trans {a b : List Tree} (ha : Adds ok p q a) (hb : Adds ok q r b) :
    Adds ok p r (a ++ b) := by
  refine ⟨?_, Nat.le_trans ha.offset_le hb.offset_le, fun he => ?_, fun t ht => ?_⟩
  · rw [hb.found, ha.found, List.reverse_append, List.append_assoc]
  · rw [anyHasError_append, Bool.or_eq_false_iff] at he
    exact (ha.nested he.1).append (hb.nested he.2)
  · rcases List.mem_append.mp ht with ht | ht
    · exact ha.built t ht
    · exact hb.built t ht

theorem Adds.exists_trans (hpq : ∃ new, Adds ok p q new) (hqr : ∃ new, Adds ok q r new) :
    ∃ new, Adds ok p r new := by
  obtain ⟨a, ha⟩ := hpq
  obtain ⟨b, hb⟩ := hqr
  exact ⟨a ++ b, ha.trans hb⟩

theorem Adds.fault {kind : Kind} {span : Span} {missing : Bool}
    (hfault : (kind == .error || missing) = true) (hok : ok kind = true)
    (hf : q.found = .node kind span missing [] :: p.found) (ho : p.offset ≤ q.offset) :
    Adds ok p q [.node kind span missing []] := by
  have herr : (Tree.node kind span missing []).hasError = true := by
    rw [hasError, hfault]
    rfl
  refine ⟨hf, ho, fun he => ?_, fun t ht x hx => ?_⟩
  · rw [anyHasError, herr] at he
    cases he
  · obtain rfl := List.mem_singleton.mp ht
    obtain rfl : x = .node kind span missing [] := by simpa [preorder, preorderAll] using hx
    exact ⟨fun he => absurd (herr.symm.trans he) (by decide), hok, fun _ => rfl⟩

theorem Adds.node {kind : Kind} {new : List Tree} (h : Adds ok { p with found := [] } q new)
    (hok : ok kind = true) (hleaf : kind.named = false → new = []) :
    Adds ok p { q with found := .node kind ⟨p.offset, q.offset⟩ false q.found.reverse :: p.found }
      [.node kind ⟨p.offset, q.offset⟩ false new] := by
  have hnew : q.found.reverse = new := by simp [h.found]
  have hbuilt : (Tree.node kind ⟨p.offset, q.offset⟩ false new).hasError = false →
      (Tree.node kind ⟨p.offset, q.offset⟩ false new).WellNested := by
    intro he
    rw [hasError, Bool.or_eq_false_iff] at he
    exact ⟨h.offset_le, h.nested he.2⟩
  refine ⟨by rw [hnew]; rfl, h.offset_le, fun he => ?_, fun t ht x hx => ?_⟩
  · rw [anyHasError, Bool.or_eq_false_iff] at he
    exact ⟨Nat.le_refl _, hbuilt he.1, Nat.le_refl _⟩
  · obtain rfl := List.mem_singleton.mp ht
    rcases mem_preorder.mp hx with rfl | hx
    · exact ⟨hbuilt, hok, hleaf⟩
    · obtain ⟨c, hc, hxc⟩ := mem_descendants.mp hx
      exact h.built c hc x hxc

end Adds

namespace Place

theorem start_found (text : List Char) : (start text).found = [] := by
  unfold start
  split
  · split <;> rfl
  · rfl

theorem advance_found (n : Nat) (p : Place) : (p.advance n).found = p.found := by
  fun_induction advance n p with
  | case1 => rfl
  | case2 => rfl
  | case3 n p c rest hrest ih => exact ih

theorem le_advance (n : Nat) (p : Place) : p.offset ≤ (p.advance n).offset := by
  fun_induction advance n p with
  | case1 => exact Nat.le_refl _
  | case2 => exact Nat.le_refl _
  | case3 n p c rest hrest ih => exact Nat.le_trans (Nat.le_add_right _ _) ih

theorem moveTo_go_found (offset : Nat) (rest : List Char) (p : Place) :
    (moveTo.go offset rest p).found = p.found := by
  fun_induction moveTo.go offset rest p with
  | case1 => rfl
  | case2 c rest p hlt ih => exact ih
  | case3 => rfl

theorem le_moveTo_go (offset : Nat) (rest : List Char) (p : Place) :
    p.offset ≤ (moveTo.go offset rest p).offset := by
  fun_induction moveTo.go offset rest p with
  | case1 => exact Nat.le_refl _
  | case2 c rest p hlt ih => exact Nat.le_trans (Nat.le_add_right _ _) ih
  | case3 => exact Nat.le_refl _

end Place

section Read

variable {ok : Kind → Bool} (herror : ok .error = true)

include herror

theorem skip_adds (blank : List Char → Nat) (holes : List Span) (p : Place) :
    ∃ new, Adds ok p (p.skip blank holes) new := by
  refine @skip_related (fun p q => ∃ new, Adds ok p q new) Adds.exists_trans (fun n p => ?_)
    (fun hole p => ?_) blank holes p
  · exact ⟨[], .moved (Place.advance_found n p) (Place.le_advance n p)⟩
  · exact ⟨_, .fault rfl herror (congrArg _ (Place.moveTo_go_found _ _ _))
      (Place.le_moveTo_go _ _ _)⟩

omit herror in
theorem Pattern.found_of_isTake {ρ : Type} {repair : Repair} {call : ρ → Place → Outcome}
    {pattern : Pattern ρ} (htake : pattern.isTake = true) {p q : Place}
    (h : pattern.read repair call p = .ok q) : q.found = p.found := by
  cases pattern with
  | take scan =>
    obtain ⟨n, -, rfl⟩ := read_take_eq_ok.mp h
    exact Place.advance_found n p
  | _ => cases htake

theorem Pattern.read_adds {ρ : Type} {repair : Repair} {call : ρ → Place → Outcome}
    (hcall : ∀ name p q, call name p = .ok q → ∃ new, Adds ok p q new) {pattern : Pattern ρ}
    (hmakes : pattern.makes ok = true) {p q : Place} (h : pattern.read repair call p = .ok q) :
    ∃ new, Adds ok p q new := by
  induction pattern generalizing p q with
  | nothing =>
    obtain rfl := Except.ok.inj h
    exact ⟨[], .moved rfl (Nat.le_refl _)⟩
  | take scan =>
    obtain ⟨n, -, rfl⟩ := read_take_eq_ok.mp h
    exact ⟨[], .moved (Place.advance_found n p) (Place.le_advance n p)⟩
  | skip blank =>
    obtain rfl := Except.ok.inj h
    exact skip_adds herror blank repair.skipped p
  | supply text =>
    obtain rfl := read_supply_eq_ok h
    exact ⟨_, .fault (Bool.or_true _) hmakes rfl (Nat.le_refl _)⟩
  | seq first second ih1 ih2 =>
    rw [makes, Bool.and_eq_true] at hmakes
    obtain ⟨r, hr, h⟩ := read_seq_eq_ok.mp h
    exact Adds.exists_trans (ih1 hmakes.1 hr) (ih2 hmakes.2 h)
  | either first second ih1 ih2 =>
    rw [makes, Bool.and_eq_true] at hmakes
    rcases read_either_eq_ok h with h | ⟨reach, h⟩
    · exact ih1 hmakes.1 h
    · obtain ⟨new, hnew⟩ := ih2 hmakes.2 h
      exact ⟨new, hnew.found, hnew.offset_le, hnew.nested, hnew.built⟩
  | many item ih =>
    exact @repeatStep_related (fun p q => ∃ new, Adds ok p q new) Adds.exists_trans
      (fun p reach => ⟨[], .moved rfl (Nat.le_refl _)⟩) _ (fun p q hpq => ih hmakes hpq) _ p q h
  | ahead item =>
    obtain rfl := eq_of_read_ahead h
    exact ⟨[], .moved rfl (Nat.le_refl _)⟩
  | refuse item =>
    obtain rfl := eq_of_read_refuse h
    exact ⟨[], .moved rfl (Nat.le_refl _)⟩
  | node kind inner ih =>
    simp only [makes, Bool.and_eq_true, Bool.or_eq_true] at hmakes
    obtain ⟨⟨hok, hleaf⟩, hinner⟩ := hmakes
    obtain ⟨r, hr, rfl⟩ := read_node_eq_ok.mp h
    obtain ⟨new, hnew⟩ := ih hinner hr
    refine ⟨_, hnew.node hok fun hnamed => ?_⟩
    have hfound := found_of_isTake (hleaf.resolve_left (by simp [hnamed])) hr
    simpa [hfound] using hnew.found
  | silent inner ih =>
    obtain ⟨r, hr, rfl⟩ := read_silent_eq_ok.mp h
    obtain ⟨new, hnew⟩ := ih hmakes hr
    exact ⟨[], .moved rfl hnew.offset_le⟩
  | rule name => exact hcall name p q h
  | given choose =>
    obtain ⟨name, -, h⟩ := read_given_eq_ok.mp h
    exact hcall name p q h

theorem Grammar.read_adds {ρ : Type} {g : Grammar ρ} (hg : ∀ name, (g name).makes ok = true)
    {repair : Repair} {depth : Nat} {name : ρ} {p q : Place}
    (h : g.read repair depth name p = .ok q) : ∃ new, Adds ok p q new := by
  induction depth generalizing name p q with
  | zero => cases h
  | succ depth ih => exact Pattern.read_adds herror (fun name p q hpq => ih hpq) (hg name) h

variable (hfile : ok .file = true)

include hfile

theorem Grammar.tree?_built {ρ : Type} {g : Grammar ρ} (hg : ∀ name, (g name).makes ok = true)
    {repair : Repair} {name : ρ} {text : List Char} {t : Tree}
    (h : g.tree? repair name text = .ok t) : ∀ x ∈ t.preorder, Built ok x := by
  simp only [Grammar.tree?] at h
  split at h
  case h_1 p hp =>
    obtain rfl := Except.ok.inj h
    obtain ⟨new, hnew⟩ := Grammar.read_adds herror hg hp
    have hnil : { Place.start text with found := [] } = Place.start text := by
      rw [← Place.start_found text]
    have hnode : Adds ok (Place.start text) _ [.node .file _ false new] :=
      (hnil.symm ▸ hnew).node hfile (by simp [Kind.named])
    have hnew' : p.found.reverse = new := by simp [hnew.found, Place.start_found]
    rw [hnew']
    exact hnode.built _ (List.mem_singleton.mpr rfl)
  case h_2 => cases h

theorem Grammar.tree?_or_empty_built {ρ : Type} {g : Grammar ρ}
    (hg : ∀ name, (g name).makes ok = true) (repair : Repair) (name : ρ) (text : List Char) :
    ∀ x ∈ (match g.tree? repair name text with
      | .ok t => t
      | .error _ => .node .file ⟨0, 0⟩ false []).preorder, Built ok x := by
  split
  case h_1 t ht => exact Grammar.tree?_built herror hfile hg ht
  case h_2 =>
    intro x hx
    obtain rfl : x = .node .file ⟨0, 0⟩ false [] := by simpa [preorder, preorderAll] using hx
    exact ⟨fun _ => ⟨Nat.le_refl _, Nat.le_refl _⟩, hfile, fun _ => rfl⟩

theorem built_unreadable (span : Span) :
    ∀ x ∈ (Tree.node .file span false [.node .error span false []]).preorder, Built ok x := by
  intro x hx
  have hcases : x = .node .file span false [.node .error span false []] ∨
      x = .node .error span false [] := by
    simpa [preorder, preorderAll] using hx
  rcases hcases with rfl | rfl
  · exact ⟨fun he => by simp [hasError, anyHasError] at he, hfile, fun hn => by cases hn⟩
  · exact ⟨fun he => by simp [hasError] at he, herror, fun _ => rfl⟩

omit herror hfile in
theorem Grammar.exists_repair_of_search {ρ : Type} {g : Grammar ρ} {name : ρ} {text : List Char}
    {tokens : Array Span} {closers : List String} {n : Nat} {queue : List Repair.Draft} {t : Tree}
    (h : g.search name text tokens closers n queue = some t) :
    ∃ repair, g.tree? repair name text = .ok t := by
  fun_induction Grammar.search g name text tokens closers n queue with
  | case1 => cases h
  | case2 => cases h
  | case3 n d queue u hu =>
    obtain rfl := Option.some.inj h
    exact ⟨_, hu⟩
  | case4 n d queue reach hreach hall ih => exact ih h
  | case5 n d queue reach hreach hall ih => exact ih h

theorem Grammar.tree_built {ρ : Type} {g : Grammar ρ} (hg : ∀ name, (g name).makes ok = true)
    (name : ρ) (blank : List Char → Nat) (token : List Char → Option Nat) (closers : List String)
    (text : List Char) : ∀ x ∈ (g.tree name blank token closers text).preorder, Built ok x := by
  unfold Grammar.tree
  split
  case h_1 t ht => exact Grammar.tree?_built herror hfile hg ht
  case h_2 =>
    simp only []
    split
    case h_1 t ht =>
      obtain ⟨repair, htree⟩ := Grammar.exists_repair_of_search ht
      exact Grammar.tree?_built herror hfile hg htree
    case h_2 => exact built_unreadable herror hfile _

end Read

end Synopsis.Syntax
