import Mathlib.Algebra.GroupWithZero.Nat
import Synopsis.Proofs.Running

/-!
# What a report accounts for

A run that succeeds has every file among the maps or among the files left out, each in the order of
the paths. The maps are those that the texts of the mapped files have when they are given as texts,
and the totals are the sums over these files.
-/

namespace Synopsis

theorem xor_mem_of_perm {α : Type} {l₁ l₂ l : List α} (hp : (l₁ ++ l₂).Perm l) (hn : l.Nodup)
    {a : α} (ha : a ∈ l) : Xor (a ∈ l₁) (a ∈ l₂) := by
  have hapart := (List.nodup_append.mp (hp.nodup_iff.mpr hn)).2.2
  rcases List.mem_append.mp (hp.mem_iff.mpr ha) with h₁ | h₂
  · exact .inl ⟨h₁, fun h₂ => hapart a h₁ a h₂ rfl⟩
  · exact .inr ⟨h₂, fun h₁ => hapart a h₁ a h₂ rfl⟩

namespace Reduction

theorem sum_field (field : Reduction → Nat) (hzero : field zero = 0)
    (hadd : ∀ a b, field (add a b) = field a + field b) (rs : List Reduction) :
    field (sum rs) = (rs.map field).sum := by
  have hfold : ∀ total, field (rs.foldl add total) = field total + (rs.map field).sum := by
    induction rs with
    | nil => simp
    | cons r rs ih =>
      intro total
      rw [List.foldl_cons, ih, hadd, List.map_cons, List.sum_cons, Nat.add_assoc]
  rw [sum, hfold, hzero, Nat.zero_add]

section Measured

variable (count : List Char → Nat) (texts : List (List Char × List Char)) (files : List FileMap)

def measured : List Reduction :=
  (texts.zip files).map fun p => measure count p.1.2 p.2.content

variable {texts files} (hlength : texts.length = files.length)

include hlength

theorem files_measured : (sum (measured count texts files)).files = files.length := by
  have hone : (measured count texts files).map Reduction.files =
      List.replicate (texts.zip files).length 1 := by
    rw [measured, List.map_map]
    exact List.map_const'
  rw [sum_field Reduction.files rfl fun _ _ => rfl, hone]
  simp [hlength]

theorem sourceLines_measured : (sum (measured count texts files)).sourceLines =
    (texts.map fun t => Text.countLines t.2).sum := by
  have hmap := congrArg (List.map fun t => Text.countLines t.2)
    (List.map_fst_zip (Nat.le_of_eq hlength))
  rw [List.map_map] at hmap
  rw [sum_field Reduction.sourceLines rfl fun _ _ => rfl, measured, List.map_map]
  exact congrArg List.sum hmap

theorem mapLines_measured : (sum (measured count texts files)).mapLines =
    (files.map fun f => Text.countLines f.content).sum := by
  have hmap := congrArg (List.map fun f => Text.countLines f.content)
    (List.map_snd_zip (Nat.le_of_eq hlength.symm))
  rw [List.map_map] at hmap
  rw [sum_field Reduction.mapLines rfl fun _ _ => rfl, measured, List.map_map]
  exact congrArg List.sum hmap

end Measured

end Reduction

namespace Outcome

theorem paths_perm (outcomes : List Outcome) :
    ((outcomes.filterMap file?).map FileMap.path ++
      (outcomes.filterMap skipped?).map SkippedFile.path).Perm (outcomes.map path) := by
  induction outcomes with
  | nil => exact .nil
  | cons o outcomes ih =>
    cases o with
    | mapped file sizes => exact ih.cons file.path
    | skipped file => exact List.perm_middle.trans (ih.cons file.path)

end Outcome

def Report.sources (r : Report) (tree : FileTree) (entries : List FileEntry) :
    List (List Char × List Char) :=
  (entries.filter fun e => (r.files.map FileMap.path).contains e.relative).filterMap tree.sourceOf?

namespace Job

variable {job : Job} {tree : FileTree} {entries : List FileEntry} {outcomes : List Outcome}

section Report

variable (hall : entries.map (job.process tree) = outcomes.map .ok)

include hall

theorem outcomes_paths : outcomes.map Outcome.path = entries.map FileEntry.relative :=
  map_eq_of_collected (fun _ _ h => process_path h) hall

theorem report_files : (job.report outcomes).files = entries.filterMap (job.mapOf? tree) :=
  filterMap_eq_of_collected (fun _ _ h => process_file? h) hall

theorem mem_skipped {entry : FileEntry} (he : entry ∈ entries) {file : SkippedFile}
    (hskip : job.process tree entry = .ok (.skipped file)) :
    file ∈ (job.report outcomes).skipped := by
  obtain ⟨o, ho, hprocess⟩ := ok_of_mapM_eq_ok (mapM_eq_ok_iff.mpr hall) he
  rw [hskip] at hprocess
  cases hprocess
  exact List.mem_filterMap.mpr ⟨_, ho, rfl⟩

theorem report_reduction {encoding : Encoding} (hencoding : job.encoding = some encoding) :
    (job.report outcomes).reduction =
      some (Reduction.sum (entries.filterMap (job.sizesOf? tree encoding))) := by
  rw [report, hencoding, Option.map_some,
    filterMap_eq_of_collected (fun _ _ h => process_sizes? hencoding h) hall]

end Report

def mappedSources (job : Job) (tree : FileTree) (entries : List FileEntry) :
    List (List Char × List Char) :=
  (entries.filter fun e => (job.mapOf? tree e).isSome).filterMap tree.sourceOf?

theorem mappedSources_cons_none {entry : FileEntry} (h : job.mapOf? tree entry = none) :
    job.mappedSources tree (entry :: entries) = job.mappedSources tree entries := by
  simp [mappedSources, h]

theorem mappedSources_cons_some {entry : FileEntry} {file : FileMap} {text : List Char}
    (h : job.mapOf? tree entry = some file) (htext : tree.textOf? entry = some text) :
    job.mappedSources tree (entry :: entries) =
      (entry.relative, text) :: job.mappedSources tree entries := by
  simp [mappedSources, h, FileTree.sourceOf?, htext]

theorem fileMaps_mappedSources (entries : List FileEntry) :
    (job.mappedSources tree entries).map (fun t => Abridge.fileMap job.map t.1 t.2) =
      (entries.filterMap (job.mapOf? tree)).map .ok := by
  induction entries with
  | nil => rfl
  | cons entry entries ih =>
    cases h : job.mapOf? tree entry with
    | none => rw [mappedSources_cons_none h, List.filterMap_cons_none h, ih]
    | some file =>
      obtain ⟨text, htext, hmap⟩ := exists_text_of_mapOf? h
      rw [mappedSources_cons_some h htext, List.filterMap_cons_some h, List.map_cons,
        List.map_cons, ih, hmap]

theorem sizes_mappedSources {encoding : Encoding} (entries : List FileEntry) :
    entries.filterMap (job.sizesOf? tree encoding) = Reduction.measured encoding.countTokens
      (job.mappedSources tree entries) (entries.filterMap (job.mapOf? tree)) := by
  induction entries with
  | nil => rfl
  | cons entry entries ih =>
    cases h : job.mapOf? tree entry with
    | none =>
      have hnone : job.sizesOf? tree encoding entry = none := by simp [sizesOf?, h]
      rw [mappedSources_cons_none h, List.filterMap_cons_none h, List.filterMap_cons_none hnone,
        ih]
    | some file =>
      obtain ⟨text, htext, -⟩ := exists_text_of_mapOf? h
      have hsome : job.sizesOf? tree encoding entry =
          some (Reduction.measure encoding.countTokens text file.content) := by
        simp [sizesOf?, h, htext]
      rw [mappedSources_cons_some h htext, List.filterMap_cons_some h,
        List.filterMap_cons_some hsome, ih]
      rfl

theorem length_mappedSources (entries : List FileEntry) :
    (job.mappedSources tree entries).length = (entries.filterMap (job.mapOf? tree)).length := by
  simpa using congrArg List.length (fileMaps_mappedSources entries)

theorem report_totals (hall : entries.map (job.process tree) = outcomes.map .ok) :
    (job.report outcomes).reduction.map (fun t => (t.files, t.sourceLines, t.mapLines)) =
      job.encoding.map fun _ => ((entries.filterMap (job.mapOf? tree)).length,
        ((job.mappedSources tree entries).map fun t => Text.countLines t.2).sum,
        ((entries.filterMap (job.mapOf? tree)).map fun f => Text.countLines f.content).sum) := by
  cases hencoding : job.encoding with
  | none => simp [report, hencoding]
  | some encoding =>
    have hlength : (job.mappedSources tree entries).length =
        (entries.filterMap (job.mapOf? tree)).length := length_mappedSources entries
    rw [report_reduction hall hencoding, sizes_mappedSources]
    simp only [Option.map_some, Reduction.files_measured encoding.countTokens hlength,
      Reduction.sourceLines_measured encoding.countTokens hlength,
      Reduction.mapLines_measured encoding.countTokens hlength]

section Accounts

variable {r : Report}

theorem mem_file_paths_iff (hn : (entries.map FileEntry.relative).Nodup)
    (hfiles : r.files = entries.filterMap (job.mapOf? tree)) {entry : FileEntry}
    (he : entry ∈ entries) :
    entry.relative ∈ r.files.map FileMap.path ↔ (job.mapOf? tree entry).isSome = true := by
  rw [hfiles]
  constructor
  · intro h
    obtain ⟨file, hfile, hpath⟩ := List.mem_map.mp h
    obtain ⟨other, hother, hmap⟩ := List.mem_filterMap.mp hfile
    -- no two listed files share a path, so the map is that of the entry itself
    have hrelative : other.relative = entry.relative := (mapOf?_path hmap).symm.trans hpath
    obtain rfl := List.inj_on_of_nodup_map hn hother he hrelative
    rw [hmap, Option.isSome_some]
  · intro h
    obtain ⟨file, hmap⟩ := Option.isSome_iff_exists.mp h
    exact List.mem_map.mpr ⟨file, List.mem_filterMap.mpr ⟨entry, he, hmap⟩, mapOf?_path hmap⟩

theorem sources_eq_mappedSources (hn : (entries.map FileEntry.relative).Nodup)
    (hfiles : r.files = entries.filterMap (job.mapOf? tree)) :
    r.sources tree entries = job.mappedSources tree entries := by
  unfold Report.sources mappedSources
  congr 1
  refine List.filter_congr fun entry he => ?_
  rw [Bool.eq_iff_iff, List.contains_iff_mem]
  exact mem_file_paths_iff hn hfiles he

theorem sources_mappedSources
    (h : Path.Ascending ((entries.filterMap (job.mapOf? tree)).map FileMap.path)) :
    Abridge.sources job.map (job.mappedSources tree entries) =
      .ok (entries.filterMap (job.mapOf? tree)) := by
  refine Abridge.sources_eq_ok_iff.mpr ⟨_, fileMaps_mappedSources entries, ?_⟩
  -- the listing is sorted already, so sorting the maps changes nothing
  refine List.mergeSort_of_pairwise ((List.pairwise_map.mp h).imp fun {a b} hab => ?_)
  exact Path.le_iff.mpr (List.le_of_lt hab)

/-- The report accounts for the listed files: each is mapped or left out, and not both, in the order
of the paths; a file without text is left out for the reason it has none; the maps are those that
the texts of the mapped files have by themselves, and the totals are taken over these alone. -/
structure Accounts (job : Job) (tree : FileTree) (entries : List FileEntry) (r : Report) :
    Prop where
  once : (r.files.map FileMap.path ++ r.skipped.map SkippedFile.path).Perm
    (entries.map FileEntry.relative)
  exactlyOne : ∀ e ∈ entries, Xor (e.relative ∈ r.files.map FileMap.path)
    (e.relative ∈ r.skipped.map SkippedFile.path)
  files_ascending : Path.Ascending (r.files.map FileMap.path)
  skipped_ascending : Path.Ascending (r.skipped.map SkippedFile.path)
  binary : ∀ e ∈ entries, ∀ bytes, tree.read e.path = .ok bytes → 0 ∈ bytes.take 8192 →
    ⟨e.relative, "binary content".toList⟩ ∈ r.skipped
  notUtf8 : ∀ e ∈ entries, ∀ bytes, tree.read e.path = .ok bytes → 0 ∉ bytes.take 8192 →
    (∀ text, Text.encode text ≠ bytes) → ⟨e.relative, "not valid UTF-8".toList⟩ ∈ r.skipped
  mapped : ∀ e ∈ entries, e.relative ∈ r.files.map FileMap.path ↔
    ∃ text, tree.textOf? e = some text ∧ ¬Abridge.Fails job.map (e.relative, text)
  maps : Abridge.sources job.map (r.sources tree entries) = .ok r.files
  totals : r.reduction.map (fun t => (t.files, t.sourceLines, t.mapLines)) =
    job.encoding.map fun _ => (r.files.length,
      ((r.sources tree entries).map fun t => Text.countLines t.2).sum,
      (r.files.map fun f => Text.countLines f.content).sum)

theorem report_accounts (hsorted : Path.Ascending (entries.map FileEntry.relative))
    (hall : entries.map (job.process tree) = outcomes.map .ok) :
    Accounts job tree entries (job.report outcomes) := by
  have hpaths := outcomes_paths hall
  have hfiles := report_files hall
  have hsources := sources_eq_mappedSources hsorted.nodup hfiles
  have hperm : ((job.report outcomes).files.map FileMap.path ++
      (job.report outcomes).skipped.map SkippedFile.path).Perm
        (entries.map FileEntry.relative) := hpaths ▸ Outcome.paths_perm outcomes
  have hascending : Path.Ascending ((job.report outcomes).files.map FileMap.path) :=
    (hpaths ▸ hsorted).sublist (Outcome.map_filterMap_sublist Outcome.path_of_file? outcomes)
  exact {
    once := hperm
    exactlyOne := fun e he => xor_mem_of_perm hperm hsorted.nodup (List.mem_map_of_mem he)
    files_ascending := hascending
    skipped_ascending :=
      (hpaths ▸ hsorted).sublist (Outcome.map_filterMap_sublist Outcome.path_of_skipped? outcomes)
    binary := fun e he bytes hread hzero => mem_skipped hall he
      (process_of_ok (attempt_of_rejected hread (Content.text_eq_binary hzero)))
    notUtf8 := fun e he bytes hread hzero hnot => mem_skipped hall he
      (process_of_ok (attempt_of_rejected hread (Content.text_eq_notUtf8 hzero hnot)))
    mapped := fun e he =>
      (mem_file_paths_iff hsorted.nodup hfiles he).trans mapOf?_isSome_iff
    maps := by
      rw [hsources, hfiles]
      exact sources_mappedSources (hfiles ▸ hascending)
    totals := by
      rw [hsources, hfiles]
      exact report_totals hall }

end Accounts

end Job
end Synopsis
