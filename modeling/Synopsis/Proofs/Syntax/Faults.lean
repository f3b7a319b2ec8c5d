import Synopsis.Abridge
import Synopsis.Proofs.LineStarts
import Synopsis.Proofs.Syntax.Places

/-!
# The first fault of a tree

The search for a fault looks only into nodes that have an error. A node without one has no faulty
node below it, so nothing is passed over, and the search finds the first faulty node of all, each
node coming before those below it. Where abridged text cannot be read again, the complaint names the
line and the column of that node.
-/

namespace Synopsis

namespace Syntax.Tree

theorem firstErrorAmong_eq_find? {ts : List Tree}
    (h : ∀ t ∈ ts, t.firstError = (t.preorder.find? faulty).map start) :
    firstErrorAmong ts = ((preorderAll ts).find? faulty).map start := by
  induction ts with
  | nil => rfl
  | cons t ts ih =>
    rw [firstErrorAmong, preorderAll, List.find?_append, Option.map_or, h t (.head _),
      ih fun c hc => h c (.tail _ hc)]

theorem firstError_of_faulty {t : Tree} (h : t.faulty = true) : t.firstError = some t.start := by
  cases t with
  | node kind span missing cs =>
    rw [firstError]
    exact if_pos h

theorem firstError_of_not_faulty {t : Tree} (h : t.faulty = false) :
    t.firstError = if t.children.any hasError then firstErrorAmong t.children else none := by
  cases t with
  | node kind span missing cs =>
    have hnot : ¬(kind == .error || missing) = true := Bool.eq_false_iff.mp h
    rw [firstError, if_neg hnot, anyHasError_eq_any]
    rfl

theorem firstError_eq_find? (t : Tree) : t.firstError = (t.preorder.find? faulty).map start := by
  induction t using children_induction with
  | step t ih =>
    rw [preorder_eq_cons, List.find?_cons]
    cases hfault : t.faulty with
    | true => exact firstError_of_faulty hfault
    | false =>
      rw [firstError_of_not_faulty hfault]
      dsimp only
      by_cases hany : t.children.any hasError = true
      · rw [if_pos hany]
        exact firstErrorAmong_eq_find? ih
      · have hnone : t.descendants.find? faulty = none := by
          refine List.find?_eq_none.mpr fun x hx => ?_
          obtain ⟨c, hc, hxc⟩ := mem_descendants.mp hx
          intro hxfault
          exact hany (List.any_eq_true.mpr ⟨c, hc, hasError_iff.mpr ⟨x, hxc, hxfault⟩⟩)
        rw [if_neg hany, hnone]
        rfl

theorem firstError_eq_none_iff {t : Tree} :
    t.firstError = none ↔ ∀ x ∈ t.preorder, x.faulty = false := by
  rw [firstError_eq_find?, Option.map_eq_none_iff, List.find?_eq_none]
  simp only [Bool.not_eq_true]

theorem exists_first_fault {t : Tree} (h : t.hasError = true) :
    ∃ x, t.preorder.find? faulty = some x ∧ t.firstError = some x.start := by
  obtain ⟨x, hx⟩ := Option.isSome_iff_exists.mp
    (List.find?_isSome.mpr (hasError_iff.mp h))
  exact ⟨x, hx, by rw [firstError_eq_find?, hx, Option.map_some]⟩

end Syntax.Tree

namespace Text

theorem position_column (before after : List Char) :
    (position (byteLength before) (before ++ after)).column = byteLength (lastLine before) := by
  induction before with
  | nil =>
    cases after with
    | nil => rfl
    | cons c after =>
      have hpos := c.utf8Size_pos
      simp [position, hpos, lastLine]
  | cons c before ih =>
    have hge : ¬c.utf8Size + byteLength before < c.utf8Size := by omega
    have hrest : c.utf8Size + byteLength before - c.utf8Size = byteLength before := by omega
    have hrow := position_row before after
    rw [List.cons_append, byteLength_cons, position, if_neg hge, hrest]
    by_cases hmem : '\n' ∈ before
    · have hcount : before.count '\n' ≠ 0 := by
        rw [Ne, List.count_eq_zero]
        exact not_not_intro hmem
      rw [lastLine_cons_of_mem c hmem, ← ih]
      by_cases hc : c = '\n'
      · rw [if_pos hc]
      · rw [if_neg hc, if_neg (by rw [hrow]; exact hcount)]
    · have hzero : (position (byteLength before) (before ++ after)).row = 0 := by
        rw [hrow, List.count_eq_zero]
        exact hmem
      rw [lastLine_of_not_mem hmem] at ih
      by_cases hc : c = '\n'
      · have hline : lastLine ('\n' :: before) = before := lastLine_append_newline (a := []) hmem
        rw [if_pos hc, hc, hline]
        exact ih
      · have hline : lastLine (c :: before) = c :: before := lastLine_of_not_mem (by
          simp [Ne.symm hc, hmem])
        rw [if_neg hc, if_pos hzero, hline, byteLength_cons]
        dsimp only
        omega

theorem position_eq (before after : List Char) : position (byteLength before) (before ++ after) =
    ⟨before.count '\n', byteLength (lastLine before)⟩ := by
  rw [← position_row before after, ← position_column before after]

end Text

namespace Abridge

open Syntax

def NamesFirstFault (language : Language) (path text : List Char) (tree : Tree)
    (outcome : Except MapError (List Char)) : Prop :=
  ∃ x, tree.preorder.find? Tree.faulty = some x ∧ tree.firstError = some x.start ∧
    outcome = .error (.format path language
      (MapError.unreadableMessage (Text.position x.start text))) ∧
    ∀ before after, text = before ++ after → Text.byteLength before = x.start →
      Text.position x.start text =
        ⟨before.count '\n', Text.byteLength (Text.lastLine before)⟩

theorem layoutTree_namesFirstFault {language : Language} {path text : List Char} {tree : Tree}
    (h : tree.hasError = true) :
    NamesFirstFault language path text tree (layoutTree language path text tree) := by
  obtain ⟨x, hx, hfirst⟩ := Tree.exists_first_fault h
  refine ⟨x, hx, hfirst, ?_, ?_⟩
  · rw [layoutTree, if_pos h, hfirst, Option.getD_some]
  · intro before after hsplit hstart
    rw [hsplit, ← hstart, Text.position_eq]

/-- The search that looks only into nodes with an error gives the start of the first faulty node of
all, and nothing exactly if there is none. A node has an error if and only if it is faulty or has a
faulty node below it. So where a text cannot be laid out because its tree has an error, whatever
tree that is, the complaint names the place of the first faulty node; the tree of the text that is
read again is a case of it. -/
theorem first_fault_reported :
    (∀ t : Tree, t.firstError = (t.preorder.find? Tree.faulty).map Tree.start ∧
      (t.firstError = none ↔ ∀ x ∈ t.preorder, x.faulty = false) ∧
      ∀ x ∈ t.preorder, x.hasError = true ↔ ∃ y ∈ x.preorder, y.faulty = true) ∧
    (∀ (language : Language) (path text : List Char) (tree : Tree), tree.hasError = true →
      NamesFirstFault language path text tree (layoutTree language path text tree)) ∧
    ∀ (language : Language) (path text : List Char),
      (language.tree (text ++ ['\n'])).hasError = true →
      NamesFirstFault language path (text ++ ['\n']) (language.tree (text ++ ['\n']))
        (layout language path text) := by
  refine ⟨fun t => ⟨?_, ?_, ?_⟩, ?_, ?_⟩
  · exact Tree.firstError_eq_find? t
  · exact Tree.firstError_eq_none_iff
  · exact fun x _ => Tree.hasError_iff
  · intro language path text tree herror
    exact layoutTree_namesFirstFault herror
  · intro language path text herror
    exact layoutTree_namesFirstFault herror

def unclosedString : List Char := "\n\"é".toList

theorem first_fault_reported_unclosedString :
    (Language.tree .go (unclosedString ++ ['\n'])).hasError = true ∧
    layout .go "a.go".toList unclosedString = .error (.format "a.go".toList .go
      "rewritten source does not parse (line 2, column 4)".toList) := by
  have herror : (Language.tree .go (unclosedString ++ ['\n'])).hasError = true := by
    decide +kernel
  have hfirst : (Language.tree .go (unclosedString ++ ['\n'])).firstError =
      some (Text.byteLength unclosedString) := by decide +kernel
  obtain ⟨x, -, hx, hlayout, hplace⟩ :=
    first_fault_reported.2.2 .go "a.go".toList unclosedString herror
  have hstart : Text.byteLength unclosedString = x.start :=
    Option.some.inj (hfirst.symm.trans hx)
  have hmessage : MapError.unreadableMessage
      ⟨unclosedString.count '\n', Text.byteLength (Text.lastLine unclosedString)⟩ =
      "rewritten source does not parse (line 2, column 4)".toList := by decide
  exact ⟨herror, by rw [hlayout, hplace unclosedString ['\n'] rfl hstart, hmessage]⟩

end Abridge

end Synopsis
