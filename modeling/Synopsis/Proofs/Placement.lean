import Synopsis.Proofs.Outlining
import Synopsis.Proofs.Syntax.Grammars
import Synopsis.Proofs.Syntax.Places
import Synopsis.Proofs.Tracing

/-!
# Cuts of a placed tree

Where the nodes of a tree begin and end between characters of the text, so do the cuts that its
outline asks for, and a plan of them can be traced. The tree of a text that is read without an error
is such a tree.
-/

namespace Synopsis

open Syntax Outline

theorem Language.tree_placedIn {language : Language} {text : List Char}
    (h : (language.tree text).hasError = false) : (language.tree text).PlacedIn text := by
  refine ⟨(language.tree_built text _ (Tree.self_mem_preorder _)).nested h, fun x hx => ?_⟩
  have hfault := Tree.faulty_of_mem_preorder h hx
  cases language with
  | go =>
    obtain ⟨repair, htree⟩ := Grammar.exists_repair h
    exact Grammar.tree?_boundary htree hx hfault
  | java | python | rust | javaScript | typeScript | tsx =>
    exact Grammar.tree?_or_empty_boundary hx hfault

namespace Outline

theorem bracedBody_split {before after : List Char} {block : Tree}
    (h : Text.byteLength before = block.start) :
    ∃ front padding, before = front ++ padding ∧
      (∀ c ∈ padding, Text.isSpaceOrTab c = true) ∧
      (bracedBody (before ++ after) block).cutStart = Text.byteLength front := by
  have hsplit : before = (before.reverse.dropWhile Text.isSpaceOrTab).reverse ++
      (before.reverse.takeWhile Text.isSpaceOrTab).reverse := by
    rw [← List.reverse_append, List.takeWhile_append_dropWhile, List.reverse_reverse]
  have hall : ∀ c ∈ (before.reverse.takeWhile Text.isSpaceOrTab).reverse,
      Text.isSpaceOrTab c = true := by
    intro c hc
    exact List.all_eq_true.mp List.all_takeWhile c (List.mem_reverse.mp hc)
  have htake : Text.takeBytes? block.start (before ++ after) = some before := by
    rw [← h]
    exact Text.takeBytes?_append before after
  have hlen := congrArg Text.byteLength hsplit
  rw [Text.byteLength_append, byteLength_padding hall, List.length_reverse, h] at hlen
  refine ⟨_, _, hsplit, hall, ?_⟩
  simp only [bracedBody, htake, Option.getD_some]
  omega

end Outline

namespace Syntax.Tree.PlacedIn

variable {language : Language} {text : List Char} {tree : Tree} {options : PlanOptions}
  {cuts : List Cut} (h : tree.PlacedIn text)

include h

theorem of_mem_children {f c : Tree} (hf : f ∈ tree.preorder) (hc : c ∈ f.children) :
    Text.IsBoundary text c.start ∧ Text.IsBoundary text c.stop :=
  h.boundary c (Tree.mem_preorder_trans
    (Tree.mem_preorder.mpr (.inr (Tree.mem_descendants_of_mem_children hc))) hf)

theorem body_boundary {b : Body} (hb : b ∈ (ofTree language text tree).bodies) :
    Text.IsBoundary text b.cutStart ∧ Text.IsBoundary text b.span.stop := by
  obtain ⟨f, hf, hb⟩ := mem_bodies.mp hb
  obtain ⟨-, block, hblock, -, ⟨-, hbody⟩ | ⟨-, rfl⟩⟩ := mem_bodiesOf.mp hb
  · obtain ⟨colon, hi⟩ := indentedBody?_indented (h.nested.of_mem_preorder hf).2 hbody
    rw [hi.span]
    refine ⟨?_, (h.of_mem_children hf hblock).2⟩
    rcases hi.cutStart with he | ⟨s, hs, he⟩
    · rw [he]
      exact (h.of_mem_children hf hi.mem).2
    · have hblock' : block ∈ tree.preorder := Tree.mem_preorder_trans
        (Tree.mem_preorder.mpr (.inr (Tree.mem_descendants_of_mem_children hblock))) hf
      rw [he]
      exact (h.of_mem_children hblock' hs).2
  · obtain ⟨hstart, hstop⟩ := h.of_mem_children hf hblock
    refine ⟨?_, hstop⟩
    obtain ⟨before, after, rfl, hlen⟩ := hstart
    obtain ⟨front, padding, rfl, -, hcut⟩ := @bracedBody_split _ after _ hlen
    exact ⟨front, padding ++ after, by simp, hcut.symm⟩

theorem atom_boundary {l : Literal} (hl : l ∈ (ofTree language text tree).literals) {a : Span}
    (ha : a ∈ l.atoms) : Text.IsBoundary text a.start := by
  obtain ⟨t, ht, -, hl⟩ := mem_literals.mp hl
  rw [literalOf?_atoms hl] at ha
  obtain ⟨n, hn, -, rfl⟩ := mem_atomsBelow ha
  exact (h.boundary n (Tree.mem_preorder_trans (Tree.mem_preorder.mpr (.inr hn)) ht)).1

theorem fits (hplan : plan text (ofTree language text tree).bodies
    (ofTree language text tree).literals options = .ok cuts) : Splice.Fits 0 text cuts :=
  Splice.plan_fits (fun _ hb => h.body_boundary hb) (fun _ hl _ ha => h.atom_boundary hl ha) hplan

end Syntax.Tree.PlacedIn
end Synopsis
