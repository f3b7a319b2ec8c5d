import Synopsis.Proofs.Reporting

/-!
# Leaving failing files out

A run that leaves failing files out gives the report that a run which stops at a failure gives,
where there is one. Otherwise it maps the files that do not fail, as a run would in which the
failing files did not occur.
-/

namespace Synopsis

theorem filterMap_filter_of_none {α β : Type} {p : α → Bool} {f : α → Option β}
    (h : ∀ x, p x = false → f x = none) (xs : List α) :
    (xs.filter p).filterMap f = xs.filterMap f := by
  rw [List.filterMap_filter]
  refine List.filterMap_congr fun x _ => ?_
  cases hx : p x with
  | true => rfl
  | false => exact (h x hx).symm

namespace Job

def withPolicy (job : Job) (policy : ErrorPolicy) : Job := { job with policy := policy }

def succeeds (job : Job) (tree : FileTree) (entry : FileEntry) : Bool :=
  (job.attempt tree entry).toOption.isSome

section Same

variable {job job' : Job} {tree tree' : FileTree} {entry : FileEntry}

theorem succeeds_iff : job.succeeds tree entry = true ↔ ∃ o, job.attempt tree entry = .ok o := by
  unfold succeeds
  cases job.attempt tree entry <;> simp [Except.toOption]

theorem not_succeeds_iff :
    job.succeeds tree entry = false ↔ ∃ e, job.attempt tree entry = .error e := by
  unfold succeeds
  cases job.attempt tree entry <;> simp [Except.toOption]

theorem mapOf?_of_fails (h : job.succeeds tree entry = false) : job.mapOf? tree entry = none := by
  obtain ⟨e, he⟩ := not_succeeds_iff.mp h
  rcases attempt_cases job tree entry with ⟨_, -, -, hnone⟩ | ⟨_, -, hnone⟩ | ⟨_, _, -, -, -, hok⟩
  · exact hnone
  · exact hnone
  · rw [hok] at he
    cases he

theorem sizesOf?_of_fails (h : job.succeeds tree entry = false) (encoding : Encoding) :
    job.sizesOf? tree encoding entry = none := by
  simp [sizesOf?, mapOf?_of_fails h]

theorem attempt_congr (hmap : job'.map = job.map) (hencoding : job'.encoding = job.encoding)
    (hread : tree'.read entry.path = tree.read entry.path) :
    job'.attempt tree' entry = job.attempt tree entry := by
  simp only [attempt, mapText, hmap, hencoding, hread]

theorem mapOf?_congr (hmap : job'.map = job.map)
    (hread : tree'.read entry.path = tree.read entry.path) :
    job'.mapOf? tree' entry = job.mapOf? tree entry := by
  simp only [mapOf?, FileTree.textOf?, hmap, hread]

theorem sizesOf?_congr (hmap : job'.map = job.map)
    (hread : tree'.read entry.path = tree.read entry.path) (encoding : Encoding) :
    job'.sizesOf? tree' encoding entry = job.sizesOf? tree encoding entry := by
  simp only [sizesOf?, mapOf?_congr hmap hread, FileTree.textOf?, hread]

end Same

/-- The second run is about the files of the first one that do not fail, reads the same in them and
abridges and measures them in the same way. -/
structure WithoutFailing (job : Job) (tree : FileTree) (entries : List FileEntry) (job' : Job)
    (tree' : FileTree) : Prop where
  map : job'.map = job.map
  encoding : job'.encoding = job.encoding
  root : tree'.pathExists job'.root = true
  listed : job'.entries tree' = .ok (entries.filter (job.succeeds tree))
  read : ∀ entry ∈ entries.filter (job.succeeds tree), tree'.read entry.path = tree.read entry.path

section Extends

variable {job job' : Job} {tree tree' : FileTree} {entries : List FileEntry} {r : Report}
  {outcomes : List Outcome} {e : MapError}

theorem run_skip_of_abort (hrun : (job.withPolicy .abort).run tree = .ok r) :
    (job.withPolicy .skip).run tree = .ok r := by
  obtain ⟨entries, outcomes, hroot, hentries, hne, hall, rfl⟩ := run_eq_ok_iff.mp hrun
  refine run_eq_ok_iff.mpr ⟨entries, outcomes, hroot, hentries, hne, ?_, rfl⟩
  rw [← hall]
  refine List.map_congr_left fun entry he => ?_
  obtain ⟨o, -, hprocess⟩ := ok_of_mapM_eq_ok (mapM_eq_ok_iff.mpr hall) he
  rw [hprocess]
  -- the aborting run got through, so it met no failure that skipping could hide
  rw [process_of_abort rfl] at hprocess
  exact process_of_ok hprocess

theorem run_skip_of_abort_error {f : Failure} (hf : ∀ e, f ≠ .map e)
    (hrun : (job.withPolicy .abort).run tree = .error f) :
    (job.withPolicy .skip).run tree = .error f := by
  rcases run_cases (job.withPolicy .abort) tree with ⟨hroot, he⟩ | ⟨hroot, hentries, he⟩ |
    ⟨entries, -, -, -, he⟩
  · rw [he] at hrun
    cases hrun
    exact run_of_missing hroot
  · rw [he] at hrun
    cases hrun
    exact run_of_no_entries hroot hentries
  · rw [he] at hrun
    split at hrun
    · cases hrun
      exact absurd rfl (hf _)
    · cases hrun

theorem WithoutFailing.run_eq (hw : WithoutFailing job tree entries job' tree')
    (hne : entries.filter (job.succeeds tree) ≠ [])
    (hall : entries.map (job.process tree) = outcomes.map .ok) :
    ∃ r', job'.run tree' = .ok r' ∧ r'.files = (job.report outcomes).files ∧
      r'.reduction = (job.report outcomes).reduction := by
  have hprocess : ∀ entry ∈ entries.filter (job.succeeds tree),
      ∃ o, job'.process tree' entry = .ok o := by
    intro entry he
    obtain ⟨o, ho⟩ := succeeds_iff.mp (List.mem_filter.mp he).2
    rw [← attempt_congr hw.map hw.encoding (hw.read entry he)] at ho
    exact ⟨o, process_of_ok ho⟩
  obtain ⟨outcomes', hall'⟩ := exists_collected hprocess
  have hrun : job'.run tree' = .ok (job'.report outcomes') :=
    run_eq_ok_iff.mpr ⟨_, outcomes', hw.root, hw.listed, hne, hall', rfl⟩
  refine ⟨_, hrun, ?_, ?_⟩
  -- a failing file has neither a map nor sizes, so it shows in none of the lists
  · rw [report_files hall, report_files hall',
      ← filterMap_filter_of_none (fun _ => mapOf?_of_fails) entries]
    exact List.filterMap_congr fun entry he => mapOf?_congr hw.map (hw.read entry he)
  · cases hencoding : job.encoding with
    | none => simp [report, hw.encoding, hencoding]
    | some encoding =>
      rw [report_reduction hall hencoding, report_reduction hall' (hw.encoding.trans hencoding),
        ← filterMap_filter_of_none (fun _ h => sizesOf?_of_fails h encoding) entries]
      rw [List.filterMap_congr fun entry he => sizesOf?_congr hw.map (hw.read entry he) encoding]

/-- The report has the maps of the files that do not fail, as they are without the failing ones.
Each failing file is left out, with the message of its failure as the reason. -/
structure LeavesOut (job : Job) (tree : FileTree) (entries : List FileEntry) (r : Report) :
    Prop where
  files : r.files = entries.filterMap (job.mapOf? tree)
  failing : ∀ entry ∈ entries, ∀ e, job.attempt tree entry = .error e →
    e.fatal = false ∧ e.path? = some entry.relative ∧
      ⟨entry.relative, e.message⟩ ∈ r.skipped ∧ ∀ file ∈ r.files, file.path ≠ entry.relative
  others : ∀ job' tree', WithoutFailing job tree entries job' tree' →
    entries.filter (job.succeeds tree) ≠ [] →
      ∃ r', job'.run tree' = .ok r' ∧ r'.files = r.files ∧ r'.reduction = r.reduction

theorem report_leavesOut (hskip : job.policy = .skip)
    (hsorted : Path.Ascending (entries.map FileEntry.relative))
    (hall : entries.map (job.process tree) = outcomes.map .ok) :
    LeavesOut job tree entries (job.report outcomes) where
  files := report_files hall
  failing entry he e hfail := by
    have haccounts := report_accounts hsorted hall
    have hmem := mem_skipped hall he (process_of_skip hskip hfail)
    refine ⟨(attempt_error hfail).2, (attempt_error hfail).1, hmem, fun file hfile hpath => ?_⟩
    have hmapped : entry.relative ∈ (job.report outcomes).files.map FileMap.path :=
      hpath ▸ List.mem_map_of_mem hfile
    rcases haccounts.exactlyOne entry he with ⟨-, hno⟩ | ⟨-, hno⟩
    · exact hno (List.mem_map_of_mem hmem)
    · exact hno hmapped
  others job' tree' hw hne := hw.run_eq hne hall

/-- Leaving failing files out extends stopping at the first of them: a report stays the same, a run
that a failing file ends gives the maps of the others, and a run that fails before any file is
dealt with fails in the same way. -/
theorem skip_extends_abort (h : tree.Sound) (job : Job) :
    (∀ r, (job.withPolicy .abort).run tree = .ok r → (job.withPolicy .skip).run tree = .ok r) ∧
    (∀ e, (job.withPolicy .abort).run tree = .error (.map e) →
      ∃ entries r, job.entries tree = .ok entries ∧ (job.withPolicy .skip).run tree = .ok r ∧
        (∃ entry ∈ entries, job.attempt tree entry = .error e) ∧ LeavesOut job tree entries r) ∧
    ∀ f, (∀ e, f ≠ .map e) → (job.withPolicy .abort).run tree = .error f →
      (job.withPolicy .skip).run tree = .error f := by
  refine ⟨fun r hrun => run_skip_of_abort hrun, fun e hrun => ?_,
    fun f hf hrun => run_skip_of_abort_error hf hrun⟩
  obtain ⟨entries, hroot, hentries, hne, entry, he, hprocess⟩ := exists_failing_of_run hrun
  have hskip : (job.withPolicy .skip).policy = .skip := rfl
  obtain ⟨outcomes, hall⟩ := exists_outcomes_of_skip hskip tree entries
  refine ⟨entries, (job.withPolicy .skip).report outcomes, hentries, ?_, ⟨entry, he, ?_⟩, ?_⟩
  · exact run_eq_ok_iff.mpr ⟨entries, outcomes, hroot, hentries, hne, hall, rfl⟩
  · rw [process_of_abort rfl] at hprocess
    exact hprocess
  · have hleaves := report_leavesOut hskip (entries_ascending h hentries) hall
    exact ⟨hleaves.files, hleaves.failing, fun job' tree' hw => hleaves.others job' tree'
      ⟨hw.map, hw.encoding, hw.root, hw.listed, hw.read⟩⟩

end Extends

def plainTree : FileTree := FileTree.empty.addFile "b.txt".toList [104, 105]

def brokenTree : FileTree := plainTree.addFile "a.go".toList [41]

def brokenEntry : FileEntry := ⟨"./a.go".toList, "a.go".toList⟩

def plainEntry : FileEntry := ⟨"./b.txt".toList, "b.txt".toList⟩

def brokenEntries : List FileEntry := [brokenEntry, plainEntry]

def brokenJob : Job := { root := ['.'], encoding := some .o200kBase }

theorem attempt_brokenEntry : ∃ e, brokenJob.attempt brokenTree brokenEntry = .error e := by
  have hread : brokenTree.read brokenEntry.path = .ok [41] := by decide +kernel
  have htext : Content.text [41] = .ok [')'] := by decide +kernel
  have hnone : (Abridge.file "a.go".toList [')'] {}).toOption = none := by decide +kernel
  cases hfile : Abridge.file "a.go".toList [')'] {} with
  | ok content =>
    rw [hfile] at hnone
    cases hnone
  | error e => exact ⟨e, (attempt_of_text hread htext).trans (mapText_of_error hfile)⟩

theorem brokenEntries_filter :
    brokenEntries.filter (brokenJob.succeeds brokenTree) = [plainEntry] := by
  have hbroken : brokenJob.succeeds brokenTree brokenEntry = false :=
    not_succeeds_iff.mpr attempt_brokenEntry
  have hplain : brokenJob.succeeds brokenTree plainEntry = true := by decide +kernel
  rw [brokenEntries, List.filter_cons, hbroken, List.filter_cons, hplain]
  rfl

theorem plainTree_withoutFailing :
    WithoutFailing brokenJob brokenTree brokenEntries brokenJob plainTree where
  map := rfl
  encoding := rfl
  root := by decide +kernel
  listed := by
    rw [brokenEntries_filter]
    decide +kernel
  read entry he := by
    rw [brokenEntries_filter, List.mem_singleton] at he
    subst he
    decide +kernel

theorem skip_extends_abort_broken : brokenTree.Sound ∧
    ∃ e r, (brokenJob.withPolicy .abort).run brokenTree = .error (.map e) ∧
      (brokenJob.withPolicy .skip).run brokenTree = .ok r ∧
      ⟨"a.go".toList, e.message⟩ ∈ r.skipped ∧
      ∃ r', brokenJob.run plainTree = .ok r' ∧ r'.files = r.files ∧
        r'.reduction = r.reduction := by
  have hsound : brokenTree.Sound := (FileTree.sound_empty.addFile _ _).addFile _ _
  have hroot : brokenTree.pathExists (brokenJob.withPolicy .abort).root = true := by decide +kernel
  have hplace : brokenTree.locate ['.'] = .ok [] := by decide +kernel
  have hfiles : Walk.files brokenTree {} ['.'] = .ok brokenEntries :=
    Walk.files_eq_of_perm hplace rfl (by decide +kernel) (by decide +kernel)
  have hentries : brokenJob.entries brokenTree = .ok brokenEntries :=
    entries_eq_ok_iff.mpr ⟨_, hfiles, by decide +kernel⟩
  have habort : (brokenJob.withPolicy .abort).entries brokenTree = .ok brokenEntries := hentries
  obtain ⟨e, he⟩ := attempt_brokenEntry
  have hrun : (brokenJob.withPolicy .abort).run brokenTree = .error (.map e) := by
    have hprocess : (brokenJob.withPolicy .abort).process brokenTree brokenEntry = .error e :=
      (process_of_abort rfl).trans he
    rw [run_of_entries hroot habort (List.cons_ne_nil _ _), brokenEntries, List.mapM_cons, hprocess]
    rfl
  obtain ⟨entries, r, hfound, hskip, -, hleaves⟩ := (skip_extends_abort hsound brokenJob).2.1 e hrun
  obtain rfl : brokenEntries = entries := Except.ok.inj (hentries.symm.trans hfound)
  refine ⟨hsound, e, r, hrun, hskip, (hleaves.failing brokenEntry (.head _) e he).2.2.1, ?_⟩
  refine hleaves.others brokenJob plainTree plainTree_withoutFailing ?_
  rw [brokenEntries_filter]
  exact List.cons_ne_nil _ _

end Job
end Synopsis
