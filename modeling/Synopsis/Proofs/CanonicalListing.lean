import Synopsis.Proofs.Listing

/-!
# One listing for every order of a walk

Whatever is below a root has the path of the root with one or more names behind it, and behind the
components of the root these names are left. So a listing is known from the files that a walk comes
to: neither the order in which it tells of them nor what it fails to look at makes a difference.
-/

namespace Synopsis

def IsEntryName (name : Name) : Prop := IsName name ∧ name ≠ ['.'] ∧ name ≠ ['.', '.']

instance (name : Name) : Decidable (IsEntryName name) :=
  inferInstanceAs (Decidable ((name ≠ [] ∧ '/' ∉ name) ∧ name ≠ ['.'] ∧ name ≠ ['.', '.']))

namespace Path

def joined (names : List Name) : List Char := ['/'].intercalate names

theorem joined_singleton (name : Name) : joined [name] = name := List.intercalate_singleton

theorem joined_cons_cons (name next : Name) (names : List Name) :
    joined (name :: next :: names) = name ++ '/' :: joined (next :: names) := by
  rw [joined, List.intercalate_cons_cons, List.append_assoc]
  rfl

theorem parts_eq_splitOn (path : List Char) : parts path = path.splitOn '/' := by
  fun_induction parts path with
  | case1 => rfl
  | case2 rest ih => rw [ih, List.splitOn_cons_eq_if_modifyHead, if_pos (beq_self_eq_true '/')]
  | case3 c rest hc p ps hps ih =>
    rw [hps] at ih
    rw [List.splitOn_cons_eq_if_modifyHead, if_neg (by simpa using hc), ← ih]
    rfl
  | case4 c rest hc hps ih =>
    rw [hps] at ih
    exact absurd ih.symm (List.splitOn_ne_nil _ _)

theorem parts_append (a b : List Char) : parts (a ++ '/' :: b) = parts a ++ parts b := by
  rw [parts_eq_splitOn, parts_eq_splitOn, parts_eq_splitOn, List.splitOn_append_cons_self]

theorem parts_joined {names : List Name} (hne : names ≠ []) (h : ∀ n ∈ names, '/' ∉ n) :
    parts (joined names) = names := by
  rw [parts_eq_splitOn, joined, List.splitOn_intercalate '/' h hne]

theorem joined_eq_iff {names : List Name} (hne : names ≠ []) (h : ∀ n ∈ names, '/' ∉ n)
    {name : Name} (hname : '/' ∉ name) : joined names = name ↔ names = [name] := by
  constructor
  · intro heq
    have hparts := congrArg parts heq
    rw [parts_joined hne h] at hparts
    have hone : parts (joined [name]) = [name] := parts_joined (by simp) (by simpa using hname)
    rwa [joined_singleton, ← hparts] at hone
  · rintro rfl
    exact joined_singleton name

def lead (path : List Char) : List (List Char) :=
  if isAbsolute path then [['/']] else if (parts path).head? == some ['.'] then [['.']] else []

def inner (parts : List (List Char)) : List (List Char) :=
  parts.filter fun p => !p.isEmpty && p != ['.']

theorem components_eq (path : List Char) : components path = lead path ++ inner (parts path) := by
  unfold components lead inner
  dsimp only
  split
  · rfl
  · split <;> rfl

theorem inner_append (a b : List (List Char)) : inner (a ++ b) = inner a ++ inner b :=
  List.filter_append ..

theorem head?_parts_append (a b : List Char) :
    (parts (a ++ '/' :: b)).head? = (parts a).head? := by
  rw [parts_append, List.head?_append_of_ne_nil _ (parts_ne_nil a)]

theorem components_append {a : List Char} (h : a ≠ []) (b : List Char) :
    components (a ++ '/' :: b) = components a ++ inner (parts b) := by
  have habs : isAbsolute (a ++ '/' :: b) = isAbsolute a := by
    cases a with
    | nil => exact absurd rfl h
    | cons c a => rfl
  have hlead : lead (a ++ '/' :: b) = lead a := by rw [lead, lead, habs, head?_parts_append]
  rw [components_eq, components_eq, hlead, parts_append, inner_append, List.append_assoc]

theorem components_separator (b : List Char) :
    components ('/' :: b) = components ['/'] ++ inner (parts b) := by
  rw [components_eq, parts]
  rfl

theorem inner_joined {names : List Name} (hne : names ≠ []) (h : ∀ n ∈ names, IsEntryName n) :
    inner (parts (joined names)) = names := by
  rw [parts_joined hne fun n hn => (h n hn).1.2]
  refine List.filter_eq_self.mpr fun n hn => ?_
  obtain ⟨⟨hempty, -⟩, hdot, -⟩ := h n hn
  simp [hempty, hdot]

theorem not_absolute_joined {names : List Name} (h : ∀ n ∈ names, IsName n) :
    isAbsolute (joined names) = false := by
  cases names with
  | nil => rfl
  | cons name names =>
    have hname := h name (.head _)
    cases names with
    | nil =>
      have habs := not_absolute_of_isName hname []
      rwa [List.append_nil, ← joined_singleton name] at habs
    | cons next names =>
      rw [joined_cons_cons]
      exact not_absolute_of_isName hname _

theorem components_joined {names : List Name} (hne : names ≠ []) (h : ∀ n ∈ names, IsEntryName n) :
    components (joined names) = names := by
  have hlead : lead (joined names) = [] := by
    have hdot : (parts (joined names)).head? ≠ some ['.'] := by
      rw [parts_joined hne fun n hn => (h n hn).1.2]
      intro hhead
      exact (h _ (List.mem_of_head? hhead)).2.1 rfl
    rw [lead, not_absolute_joined fun n hn => (h n hn).1]
    simpa using hdot
  rw [components_eq, hlead, inner_joined hne h, List.nil_append]

theorem components_join {names : List Name} (hne : names ≠ []) (h : ∀ n ∈ names, IsEntryName n)
    (base : List Char) : components (join base (joined names)) = components base ++ names := by
  rw [join_of_not_absolute (not_absolute_joined fun n hn => (h n hn).1), opening]
  split
  case isTrue hempty =>
    rw [List.isEmpty_iff.mp hempty, List.nil_append, components_joined hne h]
    rfl
  case isFalse hempty =>
    have hbase : base ≠ [] := fun he => hempty (by rw [he]; rfl)
    split
    case isTrue hlast =>
      obtain ⟨front, rfl⟩ := List.getLast?_eq_some_iff.mp (eq_of_beq hlast)
      rw [List.append_assoc, List.singleton_append]
      by_cases hfront : front = []
      · rw [hfront, List.nil_append, List.nil_append, components_separator, inner_joined hne h]
      · have hnil : inner (parts []) = [] := rfl
        rw [components_append hfront, components_append hfront, inner_joined hne h, hnil,
          List.append_nil]
    case isFalse =>
      rw [List.append_assoc, List.singleton_append, components_append hbase, inner_joined hne h]

theorem below?_join {names : List Name} (hne : names ≠ []) (h : ∀ n ∈ names, IsEntryName n)
    (base : List Char) : below? base (join base (joined names)) = some (joined names) := by
  rw [below?, components_join hne h, if_pos (List.isPrefixOf_iff_prefix.mpr ⟨names, rfl⟩),
    List.drop_left]
  rfl

theorem fileName?_joined {names : List Name} (hne : names ≠ []) (h : ∀ n ∈ names, IsEntryName n) :
    fileName? (joined names) = names.getLast? := by
  obtain ⟨last, hlast⟩ := Option.isSome_iff_exists.mp (List.getLast?_isSome.mpr hne)
  obtain ⟨⟨-, hseparator⟩, hdot, hdots⟩ := h last (List.mem_of_getLast? hlast)
  have hroot : last ≠ ['/'] := fun he => hseparator (by simp [he])
  rw [fileName?, components_joined hne h, hlast]
  simp [hroot, hdot, hdots]

theorem join_injective {base a b : List Char} (ha : isAbsolute a = false)
    (hb : isAbsolute b = false) (h : join base a = join base b) : a = b := by
  rw [join_of_not_absolute ha, join_of_not_absolute hb] at h
  exact List.append_cancel_left h

theorem foldl_join {names : List Name} (hne : names ≠ []) (h : ∀ n ∈ names, IsName n)
    (base : List Char) : names.foldl join base = join base (joined names) := by
  induction names generalizing base with
  | nil => exact absurd rfl hne
  | cons name names ih =>
    cases names with
    | nil => rw [joined_singleton, List.foldl_cons, List.foldl_nil]
    | cons next names =>
      have hname := h name (.head _)
      have hrest := ih (by simp) (fun n hn => h n (.tail _ hn)) (join base name)
      rw [List.foldl_cons, hrest, joined_cons_cons,
        join_of_not_absolute (not_absolute_joined fun n hn => h n (.tail _ hn)),
        join_of_not_absolute (not_absolute_of_isName hname _), opening_join hname, join_eq hname]
      simp

end Path

namespace Walk

def filePaths (found : List Sighting) : List (List Char) :=
  found.filterMap fun s =>
    match s with
    | .ok (path, .file) => some path
    | _ => none

/-- A walk below a root tells of no file twice, and each lies at the end of some names. -/
structure Tells (root : List Char) (found : List Sighting) : Prop where
  below : ∀ path, .ok (path, .file) ∈ found →
    ∃ names, names ≠ [] ∧ (∀ n ∈ names, IsEntryName n) ∧ path = Path.join root (Path.joined names)
  distinct : (filePaths found).Nodup

structure Listed (exclude : List Exclude.Pattern) (names : List Name) : Prop where
  notRules : names ≠ [ignoreFile]
  notSettings : names ≠ [Config.fileName]
  kept : ∀ p ∈ exclude, p.accepts (Path.joined names) = false ∧
    ∀ name ∈ names.getLast?, p.accepts name = false

section Collect

variable {root : List Char} {exclude : List Exclude.Pattern} {found found' : List Sighting}

theorem mem_filePaths {path : List Char} :
    path ∈ filePaths found ↔ .ok (path, .file) ∈ found := by
  rw [filePaths, List.mem_filterMap]
  constructor
  · rintro ⟨s, hs, heq⟩
    split at heq
    · cases heq
      exact hs
    · cases heq
  · intro h
    exact ⟨_, h, rfl⟩

theorem filePaths_eq : filePaths found = (found.filterMap Except.toOption).filterMap fun seen =>
    if seen.2 = .file then some seen.1 else none := by
  rw [filePaths, List.filterMap_filterMap]
  congr 1
  funext s
  cases s with
  | error e => rfl
  | ok seen =>
    obtain ⟨path, kind⟩ := seen
    cases kind <;> rfl

def entryAt (root path : List Char) : FileEntry := (located root (path, .file)).entry

theorem entryAt_join {names : List Name} (hne : names ≠ []) (h : ∀ n ∈ names, IsEntryName n) :
    entryAt root (Path.join root (Path.joined names)) =
      ⟨Path.join root (Path.joined names), Path.joined names⟩ := by
  rw [entryAt, located, Path.below?_join hne h, Option.getD_some]

theorem filesOf_located :
    filesOf (found.map (Except.map (located root))) = (filePaths found).map (entryAt root) := by
  rw [filesOf, filePaths, List.filterMap_map, List.map_filterMap]
  congr 1
  funext s
  cases s with
  | error e => rfl
  | ok seen =>
    obtain ⟨path, kind⟩ := seen
    cases kind <;> rfl

theorem lists_joined_iff {names : List Name} (hne : names ≠ []) (h : ∀ n ∈ names, IsEntryName n) :
    lists exclude (Path.joined names) = true ↔ Listed exclude names := by
  have hparts : ∀ n ∈ names, '/' ∉ n := fun n hn => (h n hn).1.2
  have hrules : Path.joined names ≠ ignoreFile ↔ names ≠ [ignoreFile] :=
    not_congr (Path.joined_eq_iff hne hparts (by decide))
  have hsettings : Path.joined names ≠ Config.fileName ↔ names ≠ [Config.fileName] :=
    not_congr (Path.joined_eq_iff hne hparts (by decide))
  rw [lists, Bool.and_eq_true, Bool.and_eq_true, bne_iff_ne, bne_iff_ne, Bool.not_eq_true',
    hrules, hsettings, excludes_eq_false_iff, Path.fileName?_joined hne h]
  constructor
  · rintro ⟨⟨hrules, hsettings⟩, hkept⟩
    exact ⟨hrules, hsettings, hkept⟩
  · intro hlisted
    exact ⟨⟨hlisted.notRules, hlisted.notSettings⟩, hlisted.kept⟩

theorem mem_collect {e : FileEntry} : e ∈ collect root exclude found ↔
    ∃ path, .ok (path, .file) ∈ found ∧ e = entryAt root path ∧
      lists exclude e.relative = true := by
  rw [collect, listing_eq, List.mem_mergeSort, List.mem_filter, filesOf_located, List.mem_map]
  constructor
  · rintro ⟨⟨path, hpath, rfl⟩, hlists⟩
    exact ⟨path, mem_filePaths.mp hpath, rfl, hlists⟩
  · rintro ⟨path, hpath, rfl, hlists⟩
    exact ⟨⟨path, mem_filePaths.mpr hpath, rfl⟩, hlists⟩

variable (h : Tells root found)

include h

theorem Tells.mem_collect_iff {e : FileEntry} : e ∈ collect root exclude found ↔
    ∃ names, names ≠ [] ∧ (∀ n ∈ names, IsEntryName n) ∧
      e = ⟨Path.join root (Path.joined names), Path.joined names⟩ ∧
      .ok (e.path, .file) ∈ found ∧ Listed exclude names := by
  rw [mem_collect]
  constructor
  · rintro ⟨path, hpath, rfl, hlists⟩
    obtain ⟨names, hne, hnames, rfl⟩ := h.below path hpath
    rw [entryAt_join hne hnames] at hlists ⊢
    exact ⟨names, hne, hnames, rfl, hpath, (lists_joined_iff hne hnames).mp hlists⟩
  · rintro ⟨names, hne, hnames, rfl, hpath, hlisted⟩
    exact ⟨_, hpath, (entryAt_join hne hnames).symm, (lists_joined_iff hne hnames).mpr hlisted⟩

theorem Tells.path_eq {e : FileEntry} (he : e ∈ collect root exclude found) :
    e.path = Path.join root e.relative := by
  obtain ⟨names, -, -, rfl, -⟩ := h.mem_collect_iff.mp he
  rfl

theorem Tells.relatives_nodup :
    (((filePaths found).map (entryAt root)).map FileEntry.relative).Nodup := by
  rw [List.map_map]
  refine List.pairwise_map.mpr (h.distinct.imp_of_mem fun {a b} ha hb hne heq => hne ?_)
  obtain ⟨names, hn, hnames, rfl⟩ := h.below a (mem_filePaths.mp ha)
  obtain ⟨names', hn', hnames', rfl⟩ := h.below b (mem_filePaths.mp hb)
  rw [Function.comp, Function.comp, entryAt_join hn hnames, entryAt_join hn' hnames'] at heq
  exact congrArg (Path.join root) heq

theorem Tells.ascending :
    Path.Ascending ((collect root exclude found).map FileEntry.relative) := by
  refine listing_ascending ?_
  rw [filesOf_located]
  exact h.relatives_nodup.sublist (List.filter_sublist.map _)

theorem Tells.of_perm (hp : (filePaths found').Perm (filePaths found)) : Tells root found' where
  below path hpath := h.below path (mem_filePaths.mp (hp.mem_iff.mp (mem_filePaths.mpr hpath)))
  distinct := hp.nodup_iff.mpr h.distinct

theorem Tells.collect_eq (hp : (filePaths found').Perm (filePaths found)) :
    collect root exclude found' = collect root exclude found := by
  have h' := h.of_perm hp
  have hsame : ∀ path, .ok (path, .file) ∈ found' ↔ .ok (path, .file) ∈ found := fun path => by
    rw [← mem_filePaths, ← mem_filePaths, hp.mem_iff]
  have hasc : Path.Ascending ((collect root exclude found).map FileEntry.relative) := h.ascending
  have hasc' : Path.Ascending ((collect root exclude found').map FileEntry.relative) :=
    h'.ascending
  have hperm : (collect root exclude found').Perm (collect root exclude found) := by
    refine (List.perm_ext_iff_of_nodup (.of_map _ hasc'.nodup) (.of_map _ hasc.nodup)).mpr
      fun e => ?_
    simp only [mem_collect, hsame]
  exact Path.eq_of_perm_of_ascending hperm hasc' hasc

end Collect

section Reached

variable {tree : FileTree} {options : Options} {rules : List Ignore.Rule} {root : List Char}

def sightings (tree : FileTree) (options : Options) (root : List Char) (place : Place) :
    List Sighting :=
  (visits tree options root place).map (Except.map fun v => (v.entry.path, v.kind))

def entryBelow (root : List Char) (names : List Name) : FileEntry :=
  ⟨names.foldl Path.join root, names.foldl Path.join []⟩

theorem entryBelow_eq {names : List Name} (hne : names ≠ []) (h : ∀ n ∈ names, IsEntryName n) :
    entryBelow root names = ⟨Path.join root (Path.joined names), Path.joined names⟩ := by
  have hnames : ∀ n ∈ names, IsName n := fun n hn => (h n hn).1
  have hrelative : Path.join [] (Path.joined names) = Path.joined names := by
    rw [Path.join_of_not_absolute (Path.not_absolute_joined hnames)]
    rfl
  rw [entryBelow, Path.foldl_join hne hnames, Path.foldl_join hne hnames, hrelative]

theorem located_entryBelow {names : List Name} (hne : names ≠ [])
    (h : ∀ n ∈ names, IsEntryName n) (kind : Kind) :
    located root ((entryBelow root names).path, kind) = ⟨entryBelow root names, kind⟩ := by
  rw [located, entryBelow_eq hne h, Path.below?_join hne h, Option.getD_some]

theorem child_entryBelow {folder : Folder} {names : List Name}
    (h : folder.entry = entryBelow root names) (name : Name) :
    folder.child name = entryBelow root (names ++ [name]) := by
  rw [Folder.child, h, entryBelow, entryBelow, List.foldl_concat, List.foldl_concat]

theorem mem_branch {fuel : Nat} {folder : Folder} {name : Name} {v : Visit}
    (h : .ok v ∈ branch tree options rules fuel folder name) :
    v.entry = folder.child name ∨ ∃ place,
      .ok v ∈ visit tree options rules fuel (folder.descend tree options name place) := by
  unfold branch at h
  split at h
  · cases List.mem_singleton.mp h
  · next place _ =>
    split at h
    · cases h
    · rcases List.mem_cons.mp h with heq | h
      · cases heq
        exact .inl rfl
      · split at h
        · exact .inr ⟨place, h⟩
        · cases h

theorem mem_filesOf {found : List (Except AccessError Visit)} {e : FileEntry}
    (h : e ∈ filesOf found) : .ok ⟨e, .file⟩ ∈ found := by
  obtain ⟨s, hs, heq⟩ := List.mem_filterMap.mp h
  split at heq
  · cases heq
    exact hs
  · cases heq

theorem mem_visit (hnames : ∀ place, ∀ n ∈ tree.names place, IsEntryName n) {fuel : Nat}
    {folder : Folder} {above : List Name} (habove : ∀ n ∈ above, IsEntryName n)
    (hfolder : folder.entry = entryBelow root above) {v : Visit}
    (h : .ok v ∈ visit tree options rules fuel folder) :
    ∃ names, names ≠ [] ∧ (∀ n ∈ names, IsEntryName n) ∧ v.entry = entryBelow root names := by
  induction fuel generalizing folder above with
  | zero => cases h
  | succ fuel ih =>
    rw [visit_succ] at h
    split at h
    · cases h
    · obtain ⟨name, hname, hbranch⟩ := List.mem_flatMap.mp h
      have hall : ∀ n ∈ above ++ [name], IsEntryName n := by
        intro n hn
        rcases List.mem_append.mp hn with hn | hn
        · exact habove n hn
        · exact List.mem_singleton.mp hn ▸ hnames _ name hname
      rcases mem_branch hbranch with heq | ⟨place, hbelow⟩
      · exact ⟨above ++ [name], by simp, hall, heq.trans (child_entryBelow hfolder name)⟩
      · exact ih hall (child_entryBelow hfolder name) hbelow

theorem mem_visits (hnames : ∀ place, ∀ n ∈ tree.names place, IsEntryName n) {place : Place}
    {v : Visit} (h : .ok v ∈ visits tree options root place) :
    ∃ names, names ≠ [] ∧ (∀ n ∈ names, IsEntryName n) ∧ v.entry = entryBelow root names := by
  have hnone : ∀ n ∈ ([] : List Name), IsEntryName n := fun _ hn => (List.not_mem_nil hn).elim
  exact mem_visit hnames hnone rfl h

theorem located_sightings (hnames : ∀ place, ∀ n ∈ tree.names place, IsEntryName n)
    (place : Place) : (sightings tree options root place).map (Except.map (located root)) =
      visits tree options root place := by
  rw [sightings, List.map_map]
  refine (List.map_congr_left fun s hs => ?_).trans (List.map_id _)
  cases s with
  | error e => rfl
  | ok v =>
    obtain ⟨names, hne, hall, hentry⟩ := mem_visits hnames hs
    have hv : located root (v.entry.path, v.kind) = v := by
      rw [hentry, located_entryBelow hne hall, ← hentry]
    exact congrArg Except.ok hv

theorem filePaths_sightings (place : Place) : filePaths (sightings tree options root place) =
    (filesOf (visits tree options root place)).map FileEntry.path := by
  rw [sightings, filePaths, filesOf, List.filterMap_map, List.map_filterMap]
  congr 1
  funext s
  cases s with
  | error e => rfl
  | ok v =>
    obtain ⟨entry, kind⟩ := v
    cases kind <;> rfl

theorem sightings_tells (hsound : tree.Sound)
    (hnames : ∀ place, ∀ n ∈ tree.names place, IsEntryName n) (place : Place) :
    Tells root (sightings tree options root place) where
  below path hpath := by
    obtain ⟨s, hs, heq⟩ := List.mem_map.mp hpath
    cases s with
    | error e => cases heq
    | ok v =>
      obtain ⟨rfl, -⟩ := Prod.mk.inj (Except.ok.inj heq)
      obtain ⟨names, hne, hall, hentry⟩ := mem_visits hnames hs
      exact ⟨names, hne, hall, by rw [hentry, entryBelow_eq hne hall]⟩
  distinct := by
    have hfiles : ((filesOf (visits tree options root place)).map FileEntry.relative).Nodup :=
      (relatives_visit_nodup hsound _ _).sublist (filesOf_sublist _)
    rw [filePaths_sightings]
    refine List.pairwise_map.mpr ((List.pairwise_map.mp hfiles).imp_of_mem ?_)
    intro a b ha hb hne heq
    obtain ⟨names, hn, hall, rfl⟩ := mem_visits hnames (mem_filesOf ha)
    obtain ⟨names', hn', hall', rfl⟩ := mem_visits hnames (mem_filesOf hb)
    rw [entryBelow_eq hn hall, entryBelow_eq hn' hall'] at heq hne
    exact hne (Path.join_injective (Path.not_absolute_joined fun n hm => (hall n hm).1)
      (Path.not_absolute_joined fun n hm => (hall' n hm).1) heq)

theorem files_eq_collect (hnames : ∀ place, ∀ n ∈ tree.names place, IsEntryName n) {place : Place}
    (hplace : tree.locate root = .ok place) (hfolder : tree.isFolderAt place = true) :
    files tree options root =
      .ok (collect root options.exclude (sightings tree options root place)) := by
  rw [files, hplace]
  dsimp only
  rw [if_pos hfolder, collect, located_sightings hnames]

end Reached

/-- A listing depends on the files alone that a walk tells of, not on their order or on what it
fails to look at. It is strictly ascending by the bytes of the paths from the root, and it holds
exactly the files at the end of names that no pattern matches, except those two that lie directly in
the root for its own use. Each is read by the path of the root with the path from the root behind
it. The listing of a folder is the one of what a walk through it tells of. -/
theorem collect_canonical (root : List Char) (exclude : List Exclude.Pattern) :
    (∀ found, Tells root found →
      Path.Ascending ((collect root exclude found).map FileEntry.relative) ∧
      (collect root exclude found).Nodup ∧
      (∀ e ∈ collect root exclude found, e.path = Path.join root e.relative) ∧
      (∀ e, e ∈ collect root exclude found ↔
        ∃ names, names ≠ [] ∧ (∀ n ∈ names, IsEntryName n) ∧
          e = ⟨Path.join root (Path.joined names), Path.joined names⟩ ∧
          .ok (e.path, .file) ∈ found ∧ Listed exclude names) ∧
      ∀ found', (found'.filterMap Except.toOption).Perm (found.filterMap Except.toOption) →
        collect root exclude found' = collect root exclude found) ∧
    ∀ (tree : FileTree) (options : Options) (place : Place), tree.Sound →
      (∀ n ∈ tree.nodes, ∀ name ∈ n.1, IsEntryName name) → tree.locate root = .ok place →
      tree.isFolderAt place = true → options.exclude = exclude →
      Tells root (sightings tree options root place) ∧
        files tree options root =
          .ok (collect root exclude (sightings tree options root place)) := by
  refine ⟨fun found h => ?_, fun tree options place hsound hnodes hplace hfolder hexclude => ?_⟩
  · have hasc : Path.Ascending ((collect root exclude found).map FileEntry.relative) := h.ascending
    refine ⟨hasc, .of_map _ hasc.nodup, fun e he => h.path_eq he, fun e => h.mem_collect_iff,
      fun found' hp => h.collect_eq ?_⟩
    rw [filePaths_eq, filePaths_eq]
    exact hp.filterMap _
  · subst hexclude
    have hnames : ∀ place, ∀ n ∈ tree.names place, IsEntryName n := by
      intro place n hn
      obtain ⟨node, hnode, heq⟩ := List.mem_map.mp (FileTree.mem_names.mp hn)
      exact hnodes node hnode n (by simp [heq])
    exact ⟨sightings_tells hsound hnames place, files_eq_collect hnames hplace hfolder⟩

def orderedSightings : List Sighting :=
  [.ok ("./a-b/x.go".toList, .file), .ok ("./a.go".toList, .file), .ok ("./a".toList, .folder),
    .ok ("./a/b.go".toList, .file), .ok ("./condense.toml".toList, .file),
    .ok ("./sub/condense.toml".toList, .file), .ok ("./x.LOG".toList, .file)]

def unorderedSightings : List Sighting :=
  .error .tooManyLinks :: orderedSightings.reverse ++ [.error .missing]

def logPattern : Exclude.Pattern :=
  [.sequence, .char '.', .char 'l', .char 'o', .char 'g']

def settingsTree : FileTree :=
  (FileTree.empty.addFile "condense.toml".toList []).addFile "sub/condense.toml".toList []

theorem collect_canonical_unordered :
    Tells ['.'] orderedSightings ∧
    collect ['.'] [logPattern] unorderedSightings =
      [⟨"./a-b/x.go".toList, "a-b/x.go".toList⟩, ⟨"./a.go".toList, "a.go".toList⟩,
        ⟨"./a/b.go".toList, "a/b.go".toList⟩,
        ⟨"./sub/condense.toml".toList, "sub/condense.toml".toList⟩] ∧
    files settingsTree { exclude := [logPattern] } ['.'] =
      .ok (collect ['.'] [logPattern]
        (sightings settingsTree { exclude := [logPattern] } ['.'] [])) := by
  have htells : Tells ['.'] orderedSightings := by
    refine ⟨fun path hpath => ?_, by decide⟩
    have hnames : ∀ path ∈ filePaths orderedSightings,
        (Path.components path).tail ≠ [] ∧
        (∀ n ∈ (Path.components path).tail, IsEntryName n) ∧
        path = Path.join ['.'] (Path.joined (Path.components path).tail) := by decide +kernel
    exact ⟨_, hnames path (mem_filePaths.mpr hpath)⟩
  have hcanonical := collect_canonical ['.'] [logPattern]
  obtain ⟨-, -, -, -, hsame⟩ := hcanonical.1 orderedSightings htells
  have hperm : (unorderedSightings.filterMap Except.toOption).Perm
      (orderedSightings.filterMap Except.toOption) := by decide +kernel
  have hlisted : (filesOf (orderedSightings.map (Except.map (located ['.'])))).filter
        (fun e => lists [logPattern] e.relative) =
      [⟨"./a-b/x.go".toList, "a-b/x.go".toList⟩, ⟨"./a.go".toList, "a.go".toList⟩,
        ⟨"./a/b.go".toList, "a/b.go".toList⟩,
        ⟨"./sub/condense.toml".toList, "sub/condense.toml".toList⟩] := by decide +kernel
  have hsound : settingsTree.Sound := (FileTree.sound_empty.addFile _ _).addFile _ _
  have hnodes : settingsTree.nodes =
      [(["condense.toml".toList], .file []), (["sub".toList], .folder),
        (["sub".toList, "condense.toml".toList], .file [])] := by decide +kernel
  refine ⟨htells, ?_, (hcanonical.2 settingsTree { exclude := [logPattern] } [] hsound
    (by rw [hnodes]; decide) (by decide +kernel) rfl rfl).2⟩
  rw [hsame _ hperm, collect, listing_eq, hlisted,
    List.mergeSort_of_pairwise (by decide +kernel)]

end Walk
end Synopsis
