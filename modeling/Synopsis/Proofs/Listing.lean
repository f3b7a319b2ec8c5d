import Synopsis.Job
import Synopsis.Proofs.FileTree
import Synopsis.Proofs.Sources

/-!
# What a walk lists

The paths that a walk below a folder comes to all go through one of the names in the folder, and
different names lead to different paths. So no path is visited twice, and a listing, which is
sorted, is strictly ascending. Exclude patterns only take files out of a listing.
-/

namespace Synopsis

theorem excludes_eq_false_iff {patterns : List Exclude.Pattern} {path : List Char} :
    Exclude.excludes patterns path = false ↔ ∀ p ∈ patterns, p.accepts path = false ∧
      ∀ name, Path.fileName? path = some name → p.accepts name = false := by
  simp only [Exclude.excludes, List.any_eq_false, Bool.not_eq_true, Bool.or_eq_false_iff]
  refine forall₂_congr fun p _ => and_congr_right fun _ => ?_
  cases Path.fileName? path <;> simp

namespace Path

def opening (base : List Char) : List Char :=
  if base.isEmpty then [] else if base.getLast? == some '/' then base else base ++ ['/']

theorem join_of_not_absolute {path : List Char} (h : isAbsolute path = false) (base : List Char) :
    join base path = opening base ++ path := by
  unfold join opening
  rw [h, if_neg (by simp)]
  split
  · rfl
  · split
    · rfl
    · simp

theorem not_absolute_of_isName {name : Name} (hn : IsName name) (rest : List Char) :
    isAbsolute (name ++ rest) = false := by
  cases name with
  | nil => exact absurd rfl hn.1
  | cons c name =>
    have hc : c ≠ '/' := fun he => hn.2 (he ▸ .head _)
    simpa [isAbsolute] using hc

theorem join_eq {name : Name} (hn : IsName name) (base : List Char) :
    join base name = opening base ++ name := by
  have habs := not_absolute_of_isName hn []
  rw [List.append_nil] at habs
  exact join_of_not_absolute habs base

theorem opening_join {name : Name} (hn : IsName name) (base : List Char) :
    opening (join base name) = join base name ++ ['/'] := by
  have hlast : name.getLast hn.1 ≠ '/' := fun he => hn.2 (he ▸ List.getLast_mem hn.1)
  have hjoined : (join base name).getLast? = some (name.getLast hn.1) := by
    rw [join_eq hn, List.getLast?_append, List.getLast?_eq_some_getLast hn.1, Option.some_or]
  rw [opening, hjoined, if_neg, if_neg (by simpa using hlast)]
  intro hempty
  rw [List.isEmpty_iff.mp hempty] at hjoined
  cases hjoined

def Under (base path : List Char) : Prop :=
  ∃ rest, path = base ++ rest ∧ (rest = [] ∨ rest.head? = some '/')

theorem Under.refl (base : List Char) : Under base base := ⟨[], by simp, .inl rfl⟩

theorem ne_and_under_of_under_join {base path : List Char} {n m : Name} (hn : IsName n)
    (hm : IsName m) (h : Under (join (join base n) m) path) :
    path ≠ join base n ∧ Under (join base n) path := by
  obtain ⟨rest, rfl, -⟩ := h
  rw [join_eq hm, opening_join hn, List.append_assoc, List.append_assoc]
  exact ⟨by simp, _, rfl, .inr rfl⟩

theorem takeWhile_name {name rest : List Char} (hn : '/' ∉ name)
    (hrest : rest = [] ∨ rest.head? = some '/') : (name ++ rest).takeWhile (· != '/') = name := by
  have hall : ∀ c ∈ name, (c != '/') = true := by
    intro c hc
    rw [bne_iff_ne]
    exact fun he => hn (he ▸ hc)
  rw [List.takeWhile_append_of_pos hall]
  cases rest with
  | nil => simp
  | cons c rest =>
    obtain rfl : c = '/' := by simpa using hrest
    simp

theorem Under.name_eq {base path : List Char} {n m : Name} (hn : IsName n) (hm : IsName m)
    (h : Under (join base n) path) (h' : Under (join base m) path) : n = m := by
  obtain ⟨rest, rfl, hrest⟩ := h
  obtain ⟨rest', heq, hrest'⟩ := h'
  rw [join_eq hn, join_eq hm, List.append_assoc, List.append_assoc] at heq
  have hcut := congrArg (List.takeWhile (· != '/')) (List.append_cancel_left heq)
  rwa [takeWhile_name hn.2 hrest, takeWhile_name hm.2 hrest'] at hcut

end Path

namespace Walk

def relatives (found : List (Except AccessError Visit)) : List (List Char) :=
  found.filterMap fun v => v.toOption.map fun v => v.entry.relative

section Visits

variable (tree : FileTree) (options : Options) (rules : List Ignore.Rule) (fuel : Nat)
  (folder : Folder) (name : Name)

def branch : List (Except AccessError Visit) :=
  match folder.kindOf tree options name with
  | .error e => [.error e]
  | .ok (kind, place) =>
    if folder.skips options rules name (kind == .folder) then []
    else
      .ok ⟨folder.child name, kind⟩ ::
        if kind == .folder then
          visit tree options rules fuel (folder.descend tree options name place)
        else []

theorem visit_succ : visit tree options rules (fuel + 1) folder =
    if options.maxDepth.any (· ≤ folder.depth) then []
    else (tree.names folder.place).flatMap (branch tree options rules fuel folder) :=
  rfl

theorem relatives_branch : relatives (branch tree options rules fuel folder name) = [] ∨
    ∃ below, relatives (branch tree options rules fuel folder name) =
        (folder.child name).relative :: below ∧
      (below = [] ∨ ∃ place, below = relatives
        (visit tree options rules fuel (folder.descend tree options name place))) := by
  unfold branch
  split
  · exact .inl rfl
  · next kind place hkind =>
    split
    · exact .inl rfl
    · split
      · exact .inr ⟨_, rfl, .inr ⟨place, rfl⟩⟩
      · exact .inr ⟨[], rfl, .inl rfl⟩

end Visits

section Distinct

variable {tree : FileTree} {options : Options} {rules : List Ignore.Rule} {fuel : Nat}
  {folder : Folder} {path : List Char}

theorem exists_branch (hp : path ∈ relatives (visit tree options rules fuel folder)) :
    ∃ left name, fuel = left + 1 ∧ name ∈ tree.names folder.place ∧
      path ∈ relatives (branch tree options rules left folder name) := by
  cases fuel with
  | zero => cases hp
  | succ left =>
    rw [visit_succ] at hp
    split at hp
    · cases hp
    · rw [relatives, List.filterMap_flatMap] at hp
      obtain ⟨name, hname, hbranch⟩ := List.mem_flatMap.mp hp
      exact ⟨left, name, rfl, hname, hbranch⟩

variable (h : tree.Sound)

include h

theorem branch_under {name : Name} (hn : IsName name)
    (hp : path ∈ relatives (branch tree options rules fuel folder name)) :
    Path.Under (Path.join folder.entry.relative name) path := by
  induction fuel generalizing folder name with
  | zero =>
    rcases relatives_branch tree options rules 0 folder name with he | ⟨below, he, hbelow⟩
    · rw [he] at hp
      cases hp
    · obtain rfl : below = [] := by
        rcases hbelow with rfl | ⟨place, rfl⟩ <;> rfl
      rw [he, List.mem_singleton] at hp
      exact hp ▸ Path.Under.refl _
  | succ fuel ih =>
    rcases relatives_branch tree options rules (fuel + 1) folder name with he | ⟨below, he, hbelow⟩
    · rw [he] at hp
      cases hp
    · rw [he] at hp
      rcases List.mem_cons.mp hp with rfl | hp
      · exact Path.Under.refl _
      · rcases hbelow with rfl | ⟨place, rfl⟩
        · cases hp
        · obtain ⟨left, inner, hleft, hinner, hbranch⟩ := exists_branch hp
          cases hleft
          have hm := h.isName hinner
          exact (Path.ne_and_under_of_under_join hn hm (ih hm hbranch)).2

theorem relatives_branch_nodup {name : Name} (hn : IsName name)
    (hvisit : ∀ inner, (relatives (visit tree options rules fuel inner)).Nodup) :
    (relatives (branch tree options rules fuel folder name)).Nodup := by
  rcases relatives_branch tree options rules fuel folder name with he | ⟨below, he, hbelow⟩
  · rw [he]
    exact List.nodup_nil
  · rw [he]
    rcases hbelow with rfl | ⟨place, rfl⟩
    · simp
    · refine List.nodup_cons.mpr ⟨fun hp => ?_, hvisit _⟩
      -- everything below the name has a longer path than the name itself
      obtain ⟨left, inner, rfl, hinner, hbranch⟩ := exists_branch hp
      have hm := h.isName hinner
      exact (Path.ne_and_under_of_under_join hn hm (branch_under h hm hbranch)).1 rfl

theorem relatives_visit_nodup (fuel : Nat) (folder : Folder) :
    (relatives (visit tree options rules fuel folder)).Nodup := by
  induction fuel generalizing folder with
  | zero => exact List.nodup_nil
  | succ fuel ih =>
    rw [visit_succ]
    split
    · exact List.nodup_nil
    · rw [relatives, List.filterMap_flatMap]
      refine List.nodup_flatMap.mpr ⟨fun name hname => ?_, ?_⟩
      · exact relatives_branch_nodup h (h.isName hname) ih
      · refine (h.names_nodup folder.place).imp_of_mem fun {n m} hn hm hne path hp hp' => hne ?_
        exact (branch_under h (h.isName hn) hp).name_eq (h.isName hn) (h.isName hm)
          (branch_under h (h.isName hm) hp')

end Distinct

section Listing

variable {exclude : List Exclude.Pattern} {found : List (Except AccessError Visit)}

def filesOf (found : List (Except AccessError Visit)) : List FileEntry :=
  found.filterMap fun v =>
    match v with
    | .ok ⟨entry, .file⟩ => some entry
    | _ => none

theorem listing_eq : listing exclude found =
    ((filesOf found).filter fun e => lists exclude e.relative).mergeSort
      fun a b => Path.le a.relative b.relative := by
  unfold listing filesOf
  dsimp only
  rw [List.filter_filterMap]
  congr 2
  funext v
  cases v with
  | error e => rfl
  | ok v =>
    obtain ⟨entry, kind⟩ := v
    cases kind with
    | file => simp [Option.filter]
    | folder | link => rfl

theorem byRelative_trans (a b c : FileEntry) (hab : Path.le a.relative b.relative = true)
    (hbc : Path.le b.relative c.relative = true) : Path.le a.relative c.relative = true :=
  Path.le_trans _ _ _ hab hbc

theorem byRelative_total (a b : FileEntry) :
    (Path.le a.relative b.relative || Path.le b.relative a.relative) = true :=
  Path.le_total _ _

theorem filesOf_sublist (found : List (Except AccessError Visit)) :
    ((filesOf found).map FileEntry.relative).Sublist (relatives found) := by
  induction found with
  | nil => exact .slnil
  | cons v found ih =>
    cases v with
    | error e => exact ih
    | ok v =>
      obtain ⟨entry, kind⟩ := v
      cases kind with
      | file => exact ih.cons_cons _
      | folder | link => exact ih.cons _

theorem listing_perm : (listing exclude found).Perm
    ((filesOf found).filter fun e => lists exclude e.relative) := by
  rw [listing_eq]
  exact List.mergeSort_perm _ _

theorem listing_ascending
    (hn : (((filesOf found).filter fun e => lists exclude e.relative).map
      FileEntry.relative).Nodup) :
    Path.Ascending ((listing exclude found).map FileEntry.relative) := by
  refine Path.ascending_of_sorted (List.pairwise_map.mpr ?_)
    ((listing_perm.map _).nodup_iff.mpr hn)
  rw [listing_eq]
  exact List.pairwise_mergeSort byRelative_trans byRelative_total _

theorem lists_of_mem_iff {added all : List Exclude.Pattern}
    (hall : ∀ p, p ∈ all ↔ p ∈ exclude ∨ p ∈ added) (relative : List Char) :
    lists all relative = (lists exclude relative && !Exclude.excludes added relative) := by
  have hexcludes : Exclude.excludes all relative =
      (Exclude.excludes exclude relative || Exclude.excludes added relative) := by
    rw [Bool.eq_iff_iff, Bool.or_eq_true]
    simp only [Exclude.excludes, List.any_eq_true, hall, or_and_right, exists_or]
  rw [lists, lists, hexcludes, Bool.not_or, Bool.and_assoc, Bool.and_assoc, Bool.and_assoc]

theorem listing_of_mem_iff {added all : List Exclude.Pattern}
    (hall : ∀ p, p ∈ all ↔ p ∈ exclude ∨ p ∈ added) :
    listing all found =
      (listing exclude found).filter fun e => !Exclude.excludes added e.relative := by
  rw [listing_eq, listing_eq, ← mergeSort_filter byRelative_trans byRelative_total,
    List.filter_filter]
  simp only [lists_of_mem_iff hall, Bool.and_comm]

end Listing

section Files

variable {tree : FileTree} {options : Options} {root : List Char}

theorem visit_exclude {rules : List Ignore.Rule} (exclude : List Exclude.Pattern) (fuel : Nat)
    (folder : Folder) : visit tree { options with exclude := exclude } rules fuel folder =
      visit tree options rules fuel folder := by
  induction fuel generalizing folder with
  | zero => rfl
  | succ fuel ih =>
    have hbranch : branch tree { options with exclude := exclude } rules fuel folder =
        branch tree options rules fuel folder := by
      funext name
      unfold branch
      simp only [ih]
      rfl
    rw [visit_succ, visit_succ, hbranch]

theorem files_of_folder (h : tree.stat root = .ok .folder) :
    ∃ place, ∀ options, files tree options root =
      .ok (listing options.exclude (visits tree options root place)) := by
  unfold FileTree.stat at h
  cases hroot : tree.locate root with
  | error e =>
    rw [hroot] at h
    cases h
  | ok place =>
    rw [hroot] at h
    dsimp only at h
    refine ⟨place, fun options => ?_⟩
    have hfolder : tree.isFolderAt place = true := by
      split at h
      · next node hnode =>
        cases h
        rw [FileTree.isFolderAt, hnode]
      · cases h
    rw [files, hroot]
    exact if_pos hfolder

theorem files_eq_of_perm {place : Place} {found : List FileEntry}
    (hroot : tree.locate root = .ok place) (hfolder : tree.isFolderAt place = true)
    (hperm : found.Perm ((filesOf (visits tree options root place)).filter fun e =>
      lists options.exclude e.relative))
    (hsorted : Path.Ascending (found.map FileEntry.relative)) :
    files tree options root = .ok found := by
  have hlisted := listing_ascending ((hperm.map FileEntry.relative).nodup_iff.mp hsorted.nodup)
  rw [files, hroot]
  dsimp only
  rw [if_pos hfolder,
    Path.eq_of_perm_of_ascending (listing_perm.trans hperm.symm) hlisted hsorted]

theorem files_of_mem_iff {added all : List Exclude.Pattern} {found : List FileEntry}
    (hall : ∀ p, p ∈ all ↔ p ∈ options.exclude ∨ p ∈ added)
    (hfolder : tree.stat root = .ok .folder) (hfound : files tree options root = .ok found) :
    files tree { options with exclude := all } root =
      .ok (found.filter fun e => !Exclude.excludes added e.relative) := by
  obtain ⟨place, hfiles⟩ := files_of_folder hfolder
  have hvisits : visits tree { options with exclude := all } root place =
      visits tree options root place := visit_exclude all _ _
  rw [hfiles] at hfound
  cases hfound
  rw [hfiles, hvisits, listing_of_mem_iff hall]

theorem exists_files (h : tree.pathExists root = true) :
    ∃ found, files tree options root = .ok found := by
  unfold FileTree.pathExists FileTree.stat at h
  unfold files
  cases hroot : tree.locate root with
  | error e =>
    rw [hroot] at h
    cases h
  | ok place =>
    dsimp only
    split
    · exact ⟨_, rfl⟩
    · exact ⟨_, rfl⟩

theorem files_ascending (h : tree.Sound) {found : List FileEntry}
    (hfiles : files tree options root = .ok found) :
    Path.Ascending (found.map FileEntry.relative) := by
  have hvisits : ∀ place, (relatives (visits tree options root place)).Nodup := fun place =>
    relatives_visit_nodup h _ _
  unfold files at hfiles
  split at hfiles
  · cases hfiles
  · split at hfiles
    · cases hfiles
      exact listing_ascending ((hvisits _).sublist
        ((List.filter_sublist.map _).trans (filesOf_sublist _)))
    · cases hfiles
      exact List.pairwise_singleton _ _

end Files

end Walk

namespace Job

variable {job : Job} {tree : FileTree} {entries : List FileEntry}

theorem entries_eq_ok_iff : job.entries tree = .ok entries ↔
    ∃ found, Walk.files tree job.walk job.root = .ok found ∧
      found.filter (fun e => Language.admits job.languages e.relative) = entries :=
  map_eq_ok_iff

theorem exists_entries (h : tree.pathExists job.root = true) :
    ∃ entries, job.entries tree = .ok entries := by
  obtain ⟨found, hfound⟩ : ∃ found, Walk.files tree job.walk job.root = .ok found :=
    Walk.exists_files h
  exact ⟨_, entries_eq_ok_iff.mpr ⟨found, hfound, rfl⟩⟩

theorem entries_ascending (h : tree.Sound) (hentries : job.entries tree = .ok entries) :
    Path.Ascending (entries.map FileEntry.relative) := by
  obtain ⟨found, hfound, rfl⟩ := entries_eq_ok_iff.mp hentries
  exact (Walk.files_ascending h hfound).sublist (List.filter_sublist.map _)

end Job
end Synopsis
