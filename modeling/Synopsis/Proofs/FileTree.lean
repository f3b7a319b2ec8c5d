import Synopsis.FileTree

/-!
# Sound file trees

In a sound tree no place holds two nodes, and every name is one that a folder may hold: it is not
empty and has no separator in it. The empty tree is sound, and so is what becomes of a sound tree
when files and folders are made in it.
-/

namespace Synopsis

def IsName (name : Name) : Prop := name ≠ [] ∧ '/' ∉ name

namespace Path

theorem parts_ne_nil (path : List Char) : parts path ≠ [] := by
  fun_cases parts path <;> simp

theorem separator_not_mem_parts {path part : List Char} (h : part ∈ parts path) : '/' ∉ part := by
  fun_induction parts path generalizing part with
  | case1 =>
    rw [List.mem_singleton.mp h]
    exact List.not_mem_nil
  | case2 rest ih =>
    rcases List.mem_cons.mp h with rfl | h
    · exact List.not_mem_nil
    · exact ih h
  | case3 c rest hc p ps hps ih =>
    rw [hps] at ih
    rcases List.mem_cons.mp h with rfl | h
    · simp only [List.mem_cons, not_or]
      exact ⟨fun he => hc he.symm, ih (.head _)⟩
    · exact ih (.tail _ h)
  | case4 c rest hc hps ih =>
    rw [List.mem_singleton.mp h, List.mem_singleton]
    exact fun he => hc he.symm

end Path

namespace FileTree

def Named (place : Place) : Prop := ∀ name ∈ place, IsName name

structure Sound (tree : FileTree) : Prop where
  distinct : (tree.nodes.map Prod.fst).Nodup
  named : ∀ n ∈ tree.nodes, Named n.1
  current : Named tree.current

theorem named_nil : Named [] := fun _ hn => (List.not_mem_nil hn).elim

theorem sound_empty : empty.Sound :=
  ⟨List.nodup_nil, fun _ hn => (List.not_mem_nil hn).elim, named_nil⟩

variable {tree : FileTree} {place : Place}

theorem Named.append_singleton (h : Named place) {name : Name} (hn : IsName name) :
    Named (place ++ [name]) := by
  intro x hx
  rcases List.mem_append.mp hx with hx | hx
  · exact h x hx
  · rw [List.mem_singleton.mp hx]
    exact hn

theorem isName_of_part {part : Name} (hdot : ¬(part = [] ∨ part = ['.'])) (hpart : '/' ∉ part) :
    IsName part :=
  ⟨fun he => hdot (.inl he), hpart⟩

-- Following a path leaves parts behind, or comes to a link and then has one link less to take.
@[elab_as_elim]
theorem follow_induction {motive : Nat → Place → List Name → Prop}
    (nil : ∀ links place, motive links place [])
    (cons : ∀ links place part rest, (∀ place, motive links place rest) →
      (∀ fewer, links = fewer + 1 → ∀ place parts, motive fewer place parts) →
      motive links place (part :: rest))
    (links : Nat) (place : Place) (parts : List Name) : motive links place parts := by
  induction links generalizing place parts with
  | zero =>
    induction parts generalizing place with
    | nil => exact nil 0 place
    | cons part rest ih =>
      apply cons 0 place part rest ih
      intro fewer hfewer
      cases hfewer
  | succ links ihlinks =>
    induction parts generalizing place with
    | nil => exact nil (links + 1) place
    | cons part rest ih =>
      apply cons (links + 1) place part rest ih
      intro fewer hfewer
      cases hfewer
      exact ihlinks

theorem follow_named {create : Bool} {links : Nat} {parts : List Name} {goal : Place}
    (h : tree.follow create links place parts = .ok goal) (hplace : Named place)
    (hparts : ∀ part ∈ parts, '/' ∉ part) : Named goal := by
  induction links, place, parts using follow_induction with
  | nil links place =>
    rw [follow_nil] at h
    cases h
    exact hplace
  | cons links place part rest ihrest ihlink =>
    have hrest : ∀ p ∈ rest, '/' ∉ p := fun p hp => hparts p (.tail _ hp)
    rw [follow_cons] at h
    split at h
    · cases h
    · split at h
      · exact ihrest place h hplace hrest
      · next hdot =>
        have hentered : Named (place ++ [part]) :=
          hplace.append_singleton (isName_of_part hdot (hparts part (.head _)))
        split at h
        · exact ihrest _ h (fun n hn => hplace n (List.dropLast_subset _ hn)) hrest
        · split at h
          · split at h
            · cases h
              exact hentered
            · cases h
          · cases h
          · next target fewer hlink =>
            refine ihlink fewer rfl _ _ h ?_ ?_
            · split
              · exact named_nil
              · exact hplace
            · intro p hp
              rcases List.mem_append.mp hp with hp | hp
              · exact Path.separator_not_mem_parts hp
              · exact hrest p hp
          · exact ihrest _ h hentered hrest

theorem nameIn_eq_some_iff {found : Place} {name : Name} :
    (match found.getLast? with
      | some last => if found.dropLast = place then some last else none
      | none => none) = some name ↔ found = place ++ [name] := by
  constructor
  · intro h
    split at h
    · next last hlast =>
      obtain ⟨front, rfl⟩ := List.getLast?_eq_some_iff.mp hlast
      split at h
      · next hfront =>
        cases h
        rw [← hfront, List.dropLast_concat]
      · cases h
    · cases h
  · rintro rfl
    simp

theorem mem_names {name : Name} :
    name ∈ tree.names place ↔ place ++ [name] ∈ tree.nodes.map Prod.fst := by
  rw [names, List.mem_filterMap, List.mem_map]
  exact exists_congr fun n => and_congr_right fun _ => nameIn_eq_some_iff

namespace Sound

theorem names_nodup (h : tree.Sound) (place : Place) : (tree.names place).Nodup := by
  refine List.pairwise_filterMap.mpr ((List.pairwise_map.mp h.distinct).imp ?_)
  intro a b hab name hname name' hname' he
  rw [nameIn_eq_some_iff.mp hname, nameIn_eq_some_iff.mp hname', he] at hab
  exact hab rfl

theorem isName (h : tree.Sound) {name : Name} (hn : name ∈ tree.names place) : IsName name := by
  obtain ⟨n, hmem, heq⟩ := List.mem_map.mp (mem_names.mp hn)
  exact h.named n hmem name (by simp [heq])

theorem put (h : tree.Sound) (hplace : Named place) (node : Node) :
    (tree.put place node).Sound where
  distinct := by
    have hkept : ((tree.nodes.filter fun n => n.1 != place).map Prod.fst).Nodup :=
      h.distinct.sublist (List.filter_sublist.map _)
    have hnew : place ∉ (tree.nodes.filter fun n => n.1 != place).map Prod.fst := by
      simp
    rw [FileTree.put, List.map_append]
    refine List.nodup_append.mpr ⟨hkept, by simp, fun a ha b hb he => ?_⟩
    rw [he, List.mem_singleton.mp hb] at ha
    exact hnew ha
  named n hn := by
    rcases List.mem_append.mp hn with hn | hn
    · exact h.named n (List.mem_filter.mp hn).1
    · rw [List.mem_singleton.mp hn]
      exact hplace
  current := h.current

theorem startOf (h : tree.Sound) (path : List Char) : Named (tree.startOf path) := by
  unfold FileTree.startOf
  split
  · exact named_nil
  · exact h.current

theorem target (h : tree.Sound) {path : List Char} (htarget : tree.target path = .ok place) :
    Named place := by
  unfold FileTree.target at htarget
  split at htarget
  · cases htarget
  · split at htarget
    · split at htarget <;> cases htarget
    · split at htarget
      · next goal hgoal =>
        split at htarget
        · cases htarget
        · cases htarget
          exact follow_named hgoal (h.startOf path) fun _ => Path.separator_not_mem_parts
      · cases htarget

theorem write (h : tree.Sound) {path : List Char} {bytes : List UInt8} {tree' : FileTree}
    (hwrite : tree.write path bytes = .ok tree') : tree'.Sound := by
  unfold FileTree.write at hwrite
  split at hwrite
  · next goal hgoal =>
    cases hwrite
    exact h.put (h.target hgoal) _
  · cases hwrite

theorem addFolders (h : tree.Sound) (hplace : Named place) {parts : List Name}
    (hparts : ∀ part ∈ parts, '/' ∉ part) : (tree.addFolders place parts).Sound := by
  induction parts generalizing tree place with
  | nil => exact h
  | cons part rest ih =>
    have hrest : ∀ p ∈ rest, '/' ∉ p := fun p hp => hparts p (.tail _ hp)
    unfold FileTree.addFolders
    split
    · next goal hgoal =>
      have hnamed : Named goal :=
        follow_named hgoal hplace fun p hp => hparts p (List.mem_singleton.mp hp ▸ .head _)
      split
      · exact ih (h.put hnamed _) hnamed hrest
      · exact ih h hnamed hrest
    · exact h

theorem addFolder (h : tree.Sound) (path : List Char) : (tree.addFolder path).Sound :=
  h.addFolders (h.startOf path) fun _ => Path.separator_not_mem_parts

theorem addParent (h : tree.Sound) (path : List Char) : (tree.addParent path).Sound := by
  unfold FileTree.addParent
  split
  · exact h.addFolder _
  · exact h

theorem addFile (h : tree.Sound) (path : List Char) (bytes : List UInt8) :
    (tree.addFile path bytes).Sound := by
  unfold FileTree.addFile
  split
  · exact (h.addParent path).write ‹_›
  · exact h

end Sound
end FileTree
end Synopsis
