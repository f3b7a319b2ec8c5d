import Synopsis.Proofs.Running

/-!
# Restricting a job

More exclude patterns, or fewer languages, take files out of a job and do nothing else. What becomes
of the files that stay is the same, and so is their order.
-/

namespace Synopsis

structure Passes (patterns : List Exclude.Pattern) (languages : List Language) (path : List Char) :
    Prop where
  whole : ∀ p ∈ patterns, p.accepts path = false
  name : ∀ p ∈ patterns, ∀ name, Path.fileName? path = some name → p.accepts name = false
  language : languages = [] ∨ ∃ l ∈ languages, Language.ofPath? path = some l

theorem admits_iff {languages : List Language} {path : List Char} :
    Language.admits languages path = true ↔
      languages = [] ∨ ∃ l ∈ languages, Language.ofPath? path = some l := by
  rw [Language.admits, Bool.or_eq_true, List.isEmpty_iff]
  refine or_congr_right ?_
  cases Language.ofPath? path <;> simp

theorem passes_iff {patterns : List Exclude.Pattern} {languages : List Language}
    {path : List Char} : Passes patterns languages path ↔
      (!Exclude.excludes patterns path && Language.admits languages path) = true := by
  rw [Bool.and_eq_true, Bool.not_eq_true', excludes_eq_false_iff, admits_iff]
  constructor
  · intro h
    exact ⟨fun p hp => ⟨h.whole p hp, h.name p hp⟩, h.language⟩
  · rintro ⟨hpatterns, hlanguage⟩
    exact ⟨fun p hp => (hpatterns p hp).1, fun p hp => (hpatterns p hp).2, hlanguage⟩

instance (patterns : List Exclude.Pattern) (languages : List Language) (path : List Char) :
    Decidable (Passes patterns languages path) :=
  decidable_of_iff _ passes_iff.symm

namespace Job

structure Restricts (added : List Exclude.Pattern) (job job' : Job) : Prop where
  settings : job' = { job with
    walk := { job.walk with exclude := job'.walk.exclude }, languages := job'.languages }
  exclude : ∀ p, p ∈ job'.walk.exclude ↔ p ∈ job.walk.exclude ∨ p ∈ added
  languages : job'.languages = job.languages ∨
    job'.languages ≠ [] ∧ (job.languages = [] ∨ job'.languages ⊆ job.languages)

variable {added : List Exclude.Pattern} {job job' : Job} {tree : FileTree}
  {entries : List FileEntry} {r : Report}

theorem Restricts.admits (h : Restricts added job job') {path : List Char}
    (hadmits : Language.admits job'.languages path = true) :
    Language.admits job.languages path = true := by
  rw [admits_iff] at hadmits ⊢
  rcases h.languages with he | ⟨hne, hnil | hsub⟩
  · rwa [← he]
  · exact .inl hnil
  · rcases hadmits with hnil | ⟨l, hl, hpath⟩
    · exact absurd hnil hne
    · exact .inr ⟨l, hsub hl, hpath⟩

theorem Restricts.entries_eq (h : Restricts added job job') {found : List FileEntry}
    (hfolder : tree.stat job.root = .ok .folder)
    (hfound : Walk.files tree job.walk job.root = .ok found) :
    job'.entries tree = .ok (found.filter fun e => Passes added job'.languages e.relative) := by
  have hfiles : Walk.files tree job'.walk job'.root =
      .ok (found.filter fun e => !Exclude.excludes added e.relative) := by
    have hroot : job'.root = job.root := by rw [h.settings]
    have hwalk : job'.walk = { job.walk with exclude := job'.walk.exclude } := by
      conv_lhs => rw [h.settings]
    rw [hroot, hwalk]
    exact Walk.files_of_mem_iff h.exclude hfolder hfound
  refine entries_eq_ok_iff.mpr ⟨_, hfiles, ?_⟩
  rw [List.filter_filter]
  refine List.filter_congr fun e _ => ?_
  rw [Bool.eq_iff_iff, decide_eq_true_iff, passes_iff, Bool.and_comm]

theorem Restricts.entries_filter (h : Restricts added job job')
    (hfolder : tree.stat job.root = .ok .folder) (hentries : job.entries tree = .ok entries) :
    job'.entries tree = .ok (entries.filter fun e => Passes added job'.languages e.relative) := by
  obtain ⟨found, hfound, rfl⟩ := entries_eq_ok_iff.mp hentries
  rw [h.entries_eq hfolder hfound, List.filter_filter]
  congr 1
  refine List.filter_congr fun e _ => ?_
  -- what passes was admitted by the first job as well
  by_cases hpasses : Passes added job'.languages e.relative
  · have hadmits := (Bool.and_eq_true_iff.mp (passes_iff.mp hpasses)).2
    rw [h.admits hadmits, Bool.and_true]
  · rw [decide_eq_false hpasses, Bool.false_and]

theorem Restricts.outcomes_filter (h : Restricts added job job') {outcomes : List Outcome}
    (hall : entries.map (job.process tree) = outcomes.map .ok) :
    (entries.filter fun e => Passes added job'.languages e.relative).map (job'.process tree) =
      (outcomes.filter fun o => Passes added job'.languages o.path).map .ok := by
  have hprocess : job'.process tree = job.process tree := by
    rw [h.settings]
    rfl
  rw [hprocess]
  refine filter_collected (fun e o ho => ?_) hall
  rw [process_path ho]

theorem Restricts.report_eq (h : Restricts added job job') (outcomes : List Outcome) :
    job'.report outcomes = job.report outcomes := by
  rw [h.settings]
  rfl

theorem report_filter (p : List Char → Bool) (outcomes : List Outcome) :
    (job.report (outcomes.filter fun o => p o.path)).files =
        (job.report outcomes).files.filter (fun f => p f.path) ∧
      (job.report (outcomes.filter fun o => p o.path)).skipped =
        (job.report outcomes).skipped.filter fun s => p s.path :=
  ⟨Outcome.filterMap_filter_path Outcome.path_of_file? p outcomes,
    Outcome.filterMap_filter_path Outcome.path_of_skipped? p outcomes⟩

theorem compileAll_append {texts texts' : List (List Char)}
    {patterns patterns' : List Exclude.Pattern}
    (h : Exclude.compileAll texts = .ok patterns) (h' : Exclude.compileAll texts' = .ok patterns') :
    Exclude.compileAll (texts ++ texts') = .ok (patterns ++ patterns') := by
  refine mapM_eq_ok_iff.mpr ?_
  rw [List.map_append, List.map_append, mapM_eq_ok_iff.mp h, mapM_eq_ok_iff.mp h']

theorem ofConfig_restricts {root : List Char} {config : Config} {texts : List (List Char)}
    {languages : List Language} (hjob : ofConfig root config = .ok job)
    (htexts : Exclude.compileAll texts = .ok added)
    (hlanguages : languages = config.languages ∨
      languages ≠ [] ∧ (config.languages = [] ∨ languages ⊆ config.languages)) :
    ∃ job', ofConfig root { config with
        exclude := config.exclude ++ texts, languages := languages } = .ok job' ∧
      Restricts added job job' ∧ job'.languages = languages := by
  unfold ofConfig at hjob
  split at hjob
  · cases hjob
  · next patterns hpatterns =>
    cases hjob
    rw [ofConfig, compileAll_append hpatterns htexts]
    exact ⟨_, rfl, ⟨rfl, fun p => List.mem_append, hlanguages⟩, rfl⟩

/-- Restricting a job below a folder only takes files out of its report: those that pass have the
same maps, or the same reasons to be left out, in the same order. If none passes, no files are
found. -/
theorem run_restricts (h : Restricts added job job') (hfolder : tree.stat job.root = .ok .folder)
    (hrun : job.run tree = .ok r) :
    ∃ found, Walk.files tree job.walk job.root = .ok found ∧
      ((∀ e ∈ found, ¬Passes added job'.languages e.relative) →
        job'.run tree = .error (.noFilesFound job.root)) ∧
      ((∃ e ∈ found, Passes added job'.languages e.relative) →
        ∃ r', job'.run tree = .ok r' ∧
          r'.files = r.files.filter (fun f => Passes added job'.languages f.path) ∧
          r'.skipped = r.skipped.filter fun s => Passes added job'.languages s.path) := by
  obtain ⟨entries, outcomes, hexists, hentries, -, hall, rfl⟩ := run_eq_ok_iff.mp hrun
  obtain ⟨found, hfound, -⟩ := entries_eq_ok_iff.mp hentries
  have hroot : job'.root = job.root := by rw [h.settings]
  rw [← hroot] at hexists
  have hpasses := h.entries_eq hfolder hfound
  have hpasses' := h.entries_filter hfolder hentries
  refine ⟨found, hfound, fun hnone => ?_, fun ⟨e, he, hsome⟩ => ?_⟩
  · have hnil : (found.filter fun e => Passes added job'.languages e.relative) = [] :=
      List.filter_eq_nil_iff.mpr fun e he => by simpa using hnone e he
    rw [hnil] at hpasses
    rw [run_of_no_entries hexists hpasses, hroot]
  · have hne : (entries.filter fun e => Passes added job'.languages e.relative) ≠ [] := by
      rw [← Except.ok.inj (hpasses.symm.trans hpasses')]
      exact List.ne_nil_of_mem (List.mem_filter.mpr ⟨he, decide_eq_true hsome⟩)
    refine ⟨_, run_eq_ok_iff.mpr ⟨_, _, hexists, hpasses', hne, h.outcomes_filter hall, rfl⟩, ?_⟩
    rw [h.report_eq]
    exact report_filter (fun path => Passes added job'.languages path) outcomes

def nestedTree : FileTree :=
  (FileTree.empty.addFile "a.txt".toList [104, 105]).addFile "sub/b.txt".toList [104, 111]

def nestedEntries : List FileEntry :=
  [⟨"./a.txt".toList, "a.txt".toList⟩, ⟨"./sub/b.txt".toList, "sub/b.txt".toList⟩]

def nestedOutcomes : List Outcome :=
  [.mapped ⟨"a.txt".toList, none, "hi".toList⟩ none,
    .mapped ⟨"sub/b.txt".toList, none, "ho".toList⟩ none]

theorem run_restricts_nested :
    ∃ job job' r r', ofConfig ['.'] {} = .ok job ∧
      ofConfig ['.'] { exclude := ["SUB/*".toList] } = .ok job' ∧
      job.run nestedTree = .ok r ∧ job'.run nestedTree = .ok r' ∧
      r.files.map FileMap.path = ["a.txt".toList, "sub/b.txt".toList] ∧
      r'.files.map FileMap.path = ["a.txt".toList] := by
  have hcompiled : Exclude.compileAll ["SUB/*".toList] =
      .ok [[.char 'S', .char 'U', .char 'B', .char '/', .sequence]] := by decide +kernel
  have hroot : nestedTree.pathExists ['.'] = true := by decide +kernel
  have hplace : nestedTree.locate ['.'] = .ok [] := by decide +kernel
  have hfolder : nestedTree.stat ['.'] = .ok .folder := by decide +kernel
  have hfound : Walk.files nestedTree {} ['.'] = .ok nestedEntries :=
    Walk.files_eq_of_perm hplace rfl (by decide +kernel) (by decide +kernel)
  have hall : nestedEntries.map (process { root := ['.'] } nestedTree) =
      nestedOutcomes.map .ok := by decide +kernel
  have hrun : run { root := ['.'] } nestedTree = .ok (report { root := ['.'] } nestedOutcomes) :=
    run_eq_ok_iff.mpr ⟨nestedEntries, _, hroot,
      entries_eq_ok_iff.mpr ⟨_, hfound, by decide +kernel⟩, List.cons_ne_nil _ _, hall, rfl⟩
  have hjob : ofConfig ['.'] {} = .ok { root := ['.'] } := rfl
  obtain ⟨job', hjob', hrestricts, hlanguages⟩ := ofConfig_restricts hjob hcompiled (.inl rfl)
  obtain ⟨found, hfound', -, hpasses⟩ := run_restricts hrestricts hfolder hrun
  obtain rfl := Except.ok.inj (hfound.symm.trans hfound')
  obtain ⟨r', hrun', hfiles, -⟩ := hpasses ⟨_, .head _, by rw [hlanguages]; decide⟩
  refine ⟨_, job', _, r', hjob, hjob', hrun, hrun', rfl, ?_⟩
  rw [hfiles, hlanguages]
  decide

end Job
end Synopsis
