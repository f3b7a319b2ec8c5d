import Synopsis.Proofs.FileTree

/-!
# What writing a file changes

A file is written to the place that its path leads to. Nothing else changes, and the path leads to
the file afterwards: all that it led through is still there, for neither a folder nor a link is ever
replaced.
-/

namespace Synopsis
namespace FileTree

variable {tree before after : FileTree} {place other goal : Place} {path : List Char}

theorem isFolderAt_iff : tree.isFolderAt place = true ↔ tree.get? place = some .folder := by
  unfold isFolderAt
  split <;> simp_all

theorem isFolderAt_nil (tree : FileTree) : tree.isFolderAt [] = true :=
  isFolderAt_iff.mpr (if_pos rfl)

/-! ### Putting a node -/

theorem lookup_filter_self (nodes : List (Place × Node)) (place : Place) :
    (nodes.filter fun n => n.1 != place).lookup place = none := by
  rw [List.lookup_eq_none_iff]
  intro n hn
  have hne : n.1 ≠ place := bne_iff_ne.mp (List.mem_filter.mp hn).2
  exact bne_iff_ne.mpr hne.symm

theorem lookup_filter_of_ne (nodes : List (Place × Node)) (h : other ≠ place) :
    (nodes.filter fun n => n.1 != place).lookup other = nodes.lookup other := by
  induction nodes with
  | nil => rfl
  | cons n rest ih =>
    by_cases hn : n.1 = place
    · have hother : (other == n.1) = false := beq_false_of_ne (hn ▸ h)
      rw [List.filter_cons_of_neg (by simp [hn]), ih, List.lookup_cons, hother]
    · rw [List.filter_cons_of_pos (by simpa using hn), List.lookup_cons, List.lookup_cons, ih]

theorem get?_put_self (h : place ≠ []) (node : Node) :
    (tree.put place node).get? place = some node := by
  rw [get?, if_neg h, put, List.lookup_append, lookup_filter_self]
  simp

theorem put_put (tree : FileTree) (place : Place) (node node' : Node) :
    (tree.put place node).put place node' = tree.put place node' := by
  simp [put, List.filter_append, List.filter_filter]

theorem bytesAt_put (h : place ≠ []) (bytes : List UInt8) :
    (tree.put place (.file bytes)).bytesAt place = bytes := by
  rw [bytesAt, get?_put_self h]

/-- Two trees are the same, except perhaps for what stands at a place. -/
structure SameBeside (place : Place) (before after : FileTree) : Prop where
  current : after.current = before.current
  others : ∀ other, other ≠ place → after.get? other = before.get? other

theorem put_sameBeside (tree : FileTree) (place : Place) (node : Node) :
    SameBeside place tree (tree.put place node) where
  current := rfl
  others other h := by
    have hnew : [(place, node)].lookup other = none := by
      rw [List.lookup_cons, beq_false_of_ne h, List.lookup_nil]
    rw [get?, get?, put, List.lookup_append, lookup_filter_of_ne _ h, hnew, Option.or_none]

theorem SameBeside.isFolderAt (h : SameBeside place before after)
    (hplace : before.isFolderAt place = false) (hother : before.isFolderAt other = true) :
    after.isFolderAt other = true := by
  have hne : other ≠ place := fun he => by simp [he, hplace] at hother
  rw [isFolderAt_iff, h.others other hne]
  exact isFolderAt_iff.mp hother

/-! ### Ways -/

def Naming (part : Name) : Prop := ¬(part = [] ∨ part = ['.']) ∧ part ≠ ['.', '.']

/-- The way along the parts of a path that leads from a place to a goal, through at most so many
links. -/
inductive Leads (tree : FileTree) (create : Bool) (goal : Place) : Nat → Place → List Name → Prop
  | arrived (links : Nat) : Leads tree create goal links goal []
  | stay {links : Nat} {place : Place} {part : Name} {rest : List Name} :
      tree.isFolderAt place = true → part = [] ∨ part = ['.'] →
      Leads tree create goal links place rest → Leads tree create goal links place (part :: rest)
  | up {links : Nat} {place : Place} {rest : List Name} :
      tree.isFolderAt place = true → Leads tree create goal links place.dropLast rest →
      Leads tree create goal links place (['.', '.'] :: rest)
  | make {links : Nat} {place : Place} {part : Name} :
      create = true → tree.isFolderAt place = true → Naming part →
      tree.get? (place ++ [part]) = none → goal = place ++ [part] →
      Leads tree create goal links place [part]
  | jump {links : Nat} {place : Place} {part : Name} {rest : List Name} {target : List Char} :
      tree.isFolderAt place = true → Naming part →
      tree.get? (place ++ [part]) = some (.link target) →
      Leads tree create goal links (if Path.isAbsolute target then [] else place)
        (Path.parts target ++ rest) →
      Leads tree create goal (links + 1) place (part :: rest)
  | enter {links : Nat} {place : Place} {part : Name} {rest : List Name} {node : Node} :
      tree.isFolderAt place = true → Naming part → tree.get? (place ++ [part]) = some node →
      (∀ target, node ≠ .link target) → Leads tree create goal links (place ++ [part]) rest →
      Leads tree create goal links place (part :: rest)

variable {create : Bool} {links : Nat} {part : Name} {parts rest : List Name}

theorem leads_of_follow (h : tree.follow create links place parts = .ok goal) :
    Leads tree create goal links place parts := by
  induction links, place, parts using follow_induction with
  | nil links place =>
    rw [follow_nil] at h
    cases h
    exact .arrived _
  | cons links place part rest ihrest ihlink =>
    rw [follow_cons] at h
    split at h
    · cases h
    · next hfolder =>
      have hfolder : tree.isFolderAt place = true := by simpa using hfolder
      split at h
      · next hdot => exact .stay hfolder hdot (ihrest _ h)
      · next hdot =>
        split at h
        · next hdots => exact hdots ▸ .up hfolder (ihrest _ h)
        · next hdots =>
          split at h
          · next hnone =>
            split at h
            · next hcreate =>
              obtain ⟨hcreate, hrest⟩ := Bool.and_eq_true_iff.mp hcreate
              cases h
              rw [List.isEmpty_iff.mp hrest]
              exact .make hcreate hfolder ⟨hdot, hdots⟩ hnone rfl
            · cases h
          · cases h
          · next target fewer hlink =>
            exact .jump hfolder ⟨hdot, hdots⟩ hlink (ihlink fewer rfl _ _ h)
          · next links _ _ node hget hzero hsucc =>
            have hnode : ∀ target, node ≠ .link target := by
              rintro target rfl
              cases links with
              | zero => exact hzero target rfl rfl
              | succ fewer => exact hsucc target fewer rfl rfl
            exact .enter hfolder ⟨hdot, hdots⟩ hget hnode (ihrest _ h)

theorem follow_naming (hfolder : tree.isFolderAt place = true) (hpart : Naming part) :
    tree.follow create links place (part :: rest) =
      match tree.get? (place ++ [part]), links with
      | none, _ => if create && rest.isEmpty then .ok (place ++ [part]) else .error .missing
      | some (.link _), 0 => .error .tooManyLinks
      | some (.link target), links + 1 =>
        tree.follow create links (if Path.isAbsolute target then [] else place)
          (Path.parts target ++ rest)
      | some _, _ => tree.follow create links (place ++ [part]) rest := by
  have hcons := follow_cons tree create links place part rest
  rw [hfolder, Bool.not_true, if_neg Bool.false_ne_true, if_neg hpart.1, if_neg hpart.2] at hcons
  exact hcons

theorem Leads.follow (h : Leads tree create goal links place parts) :
    tree.follow create links place parts = .ok goal := by
  induction h with
  | arrived links => exact follow_nil _ _ _ _
  | stay hfolder hdot _ ih =>
    rw [follow_cons, hfolder, Bool.not_true, if_neg Bool.false_ne_true, if_pos hdot, ih]
  | up hfolder _ ih =>
    rw [follow_cons, hfolder, Bool.not_true, if_neg Bool.false_ne_true, if_neg (by decide),
      if_pos rfl, ih]
  | make hcreate hfolder hpart hnone hgoal =>
    rw [follow_naming hfolder hpart, hnone, hcreate, hgoal]
    rfl
  | jump hfolder hpart hlink _ ih =>
    rw [follow_naming hfolder hpart, hlink]
    exact ih
  | @enter links place part rest node hfolder hpart hget hnode _ ih =>
    rw [follow_naming hfolder hpart, hget]
    cases node with
    | link target => exact absurd rfl (hnode target)
    | file bytes => exact ih
    | folder => exact ih

theorem Leads.for_writing (h : Leads tree false goal links place parts) :
    Leads tree true goal links place parts := by
  induction h with
  | arrived links => exact .arrived links
  | stay hfolder hdot _ ih => exact .stay hfolder hdot ih
  | up hfolder _ ih => exact .up hfolder ih
  | make hcreate => cases hcreate
  | jump hfolder hpart hlink _ ih => exact .jump hfolder hpart hlink ih
  | enter hfolder hpart hget hnode _ ih => exact .enter hfolder hpart hget hnode ih

def Grounded (tree : FileTree) : Prop := ∀ n ∈ tree.nodes, tree.isFolderAt n.1.dropLast = true

instance (tree : FileTree) : Decidable tree.Grounded :=
  inferInstanceAs (Decidable (∀ n ∈ tree.nodes, tree.isFolderAt n.1.dropLast = true))

theorem Grounded.above (h : tree.Grounded) {node : Node} (hget : tree.get? place = some node) :
    tree.isFolderAt place.dropLast = true := by
  unfold get? at hget
  split at hget
  · next hnil =>
    rw [hnil]
    exact isFolderAt_nil tree
  · obtain ⟨before, after, hnodes, -⟩ := List.lookup_eq_some_iff.mp hget
    exact h (place, node) (by simp [hnodes])

theorem Leads.not_link (h : Leads tree create goal links place parts) (hgrounded : tree.Grounded)
    (hplace : ∀ target, tree.get? place ≠ some (.link target)) (target : List Char) :
    tree.get? goal ≠ some (.link target) := by
  induction h with
  | arrived links => exact hplace target
  | stay hfolder hdot _ ih => exact ih hplace
  | up hfolder _ ih =>
    have habove := hgrounded.above (isFolderAt_iff.mp hfolder)
    exact ih fun target => by simp [isFolderAt_iff.mp habove]
  | make _ _ _ hnone hgoal => simp [hgoal, hnone]
  | jump hfolder _ _ _ ih =>
    refine ih fun target => ?_
    split
    · simp [isFolderAt_iff.mp (isFolderAt_nil tree)]
    · simp [isFolderAt_iff.mp hfolder]
  | enter _ _ hget hnode _ ih =>
    exact ih fun target he => hnode target (Option.some.inj (hget.symm.trans he))

/-- The way to a file that was written leads to it: it goes through folders and links only, and they
are still there. -/
theorem Leads.after_put (h : Leads tree create goal links place parts)
    (hfolder : tree.isFolderAt goal = false)
    (hlink : ∀ target, tree.get? goal ≠ some (.link target)) (bytes : List UInt8) :
    Leads (tree.put goal (.file bytes)) false goal links place parts := by
  have hgoal : goal ≠ [] := fun he => by simp [he, isFolderAt_nil] at hfolder
  have hsame := put_sameBeside tree goal (.file bytes)
  have hfile : ∀ target, Node.file bytes ≠ .link target := fun _ => nofun
  induction h with
  | arrived links => exact .arrived links
  | stay hplace hdot _ ih => exact .stay (hsame.isFolderAt hfolder hplace) hdot ih
  | up hplace _ ih => exact .up (hsame.isFolderAt hfolder hplace) ih
  | make _ hplace hpart hnone he =>
    refine .enter (hsame.isFolderAt hfolder hplace) hpart ?_ hfile (he ▸ .arrived _)
    rw [← he]
    exact get?_put_self hgoal _
  | jump hplace hpart hget _ ih =>
    refine .jump (hsame.isFolderAt hfolder hplace) hpart ?_ ih
    rw [hsame.others _ fun he => hlink _ (he ▸ hget), hget]
  | @enter links place part rest node hplace hpart hget hnode _ ih =>
    have hinside := hsame.isFolderAt hfolder hplace
    by_cases he : place ++ [part] = goal
    · refine .enter hinside hpart ?_ hfile ih
      rw [he]
      exact get?_put_self hgoal _
    · refine .enter hinside hpart ?_ hnode ih
      rw [hsame.others _ he, hget]

/-! ### The place that a file is written to -/

theorem target_leads (h : tree.target path = .ok place) :
    path ≠ [] ∧ Leads tree true place linkLimit (tree.startOf path) (Path.parts path) ∧
      tree.isFolderAt place = false := by
  unfold target at h
  split at h
  · cases h
  · next hne =>
    split at h
    · split at h <;> cases h
    · split at h
      · next goal hgoal =>
        split at h
        · cases h
        · next hfolder =>
          cases h
          exact ⟨hne, leads_of_follow hgoal, by simpa using hfolder⟩
      · cases h

theorem target_ne_nil (h : tree.target path = .ok place) : place ≠ [] := by
  have hfolder := (target_leads h).2.2
  exact fun he => by simp [he, isFolderAt_nil] at hfolder

theorem locate_eq_target (h : tree.target path = .ok place)
    (hlocate : tree.locate path = .ok other) : other = place := by
  unfold locate at hlocate
  split at hlocate
  · cases hlocate
  · have hother := (leads_of_follow hlocate).for_writing.follow
    have hplace := (target_leads h).2.1.follow
    exact Except.ok.inj (hother.symm.trans hplace)

theorem Leads.isFolderAt (h : Leads tree create goal links place parts) (hparts : parts ≠ []) :
    tree.isFolderAt place = true := by
  cases h with
  | arrived => exact absurd rfl hparts
  | stay hfolder | up hfolder | make _ hfolder | jump hfolder | enter hfolder => exact hfolder

theorem target_not_link (h : tree.target path = .ok place) (hgrounded : tree.Grounded)
    (target : List Char) : tree.get? place ≠ some (.link target) := by
  obtain ⟨-, hleads, -⟩ := target_leads h
  have hstart := isFolderAt_iff.mp (hleads.isFolderAt (Path.parts_ne_nil path))
  exact hleads.not_link hgrounded (fun target => by simp [hstart]) target

theorem read_put (h : tree.target path = .ok place) (hgrounded : tree.Grounded)
    (bytes : List UInt8) : (tree.put place (.file bytes)).read path = .ok bytes := by
  obtain ⟨hne, hleads, hfolder⟩ := target_leads h
  have hlocate : (tree.put place (.file bytes)).locate path = .ok place := by
    rw [locate, if_neg hne]
    exact (hleads.after_put hfolder (target_not_link h hgrounded) bytes).follow
  rw [read, stat, hlocate]
  simp [get?_put_self (target_ne_nil h)]

/-- Bytes were written to a path, and all else is as it was before. The path leads to the place that
holds them: whatever it led to before was there, and it leads there now. -/
structure Wrote (path : List Char) (bytes : List UInt8) (before after : FileTree) (place : Place) :
    Prop where
  target : before.target path = .ok place
  led : ∀ other, before.locate path = .ok other → other = place
  notLink : before.Grounded → ∀ target, before.get? place ≠ some (.link target)
  others : SameBeside place before after
  holds : after.get? place = some (.file bytes)
  read : before.Grounded → after.read path = .ok bytes

theorem put_wrote (h : tree.target path = .ok place) (bytes : List UInt8) :
    Wrote path bytes tree (tree.put place (.file bytes)) place where
  target := h
  led _ := locate_eq_target h
  notLink := target_not_link h
  others := put_sameBeside tree place _
  holds := get?_put_self (target_ne_nil h) _
  read hgrounded := read_put h hgrounded bytes

end FileTree
end Synopsis
