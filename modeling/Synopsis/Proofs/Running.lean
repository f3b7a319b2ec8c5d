import Synopsis.Proofs.Listing
import Synopsis.Proofs.Text.Decoding

/-!
# What becomes of the files of a run

Each file that a job is about is dealt with by itself. Its map, if it has one, depends on nothing
but the way texts are abridged, its path and its bytes, whatever becomes of the other files.
-/

namespace Synopsis

namespace Outcome

def path : Outcome → List Char
  | mapped file _ => file.path
  | skipped file => file.path

theorem path_of_file? {o : Outcome} {f : FileMap} (h : o.file? = some f) : f.path = o.path := by
  cases o with
  | mapped file sizes =>
    cases h
    rfl
  | skipped file => cases h

theorem path_of_skipped? {o : Outcome} {f : SkippedFile} (h : o.skipped? = some f) :
    f.path = o.path := by
  cases o with
  | mapped file sizes => cases h
  | skipped file =>
    cases h
    rfl

section View

variable {α : Type} {view : Outcome → Option α} {key : α → List Char}
  (hview : ∀ {o x}, view o = some x → key x = o.path)

include hview

theorem map_filterMap_sublist (outcomes : List Outcome) :
    ((outcomes.filterMap view).map key).Sublist (outcomes.map path) := by
  induction outcomes with
  | nil => exact .slnil
  | cons o outcomes ih =>
    cases h : view o with
    | none =>
      rw [List.filterMap_cons_none h]
      exact ih.cons o.path
    | some x =>
      rw [List.filterMap_cons_some h, List.map_cons, hview h]
      exact ih.cons_cons o.path

theorem filterMap_filter_path (p : List Char → Bool) (outcomes : List Outcome) :
    (outcomes.filter fun o => p o.path).filterMap view =
      (outcomes.filterMap view).filter fun x => p (key x) := by
  induction outcomes with
  | nil => rfl
  | cons o outcomes ih =>
    cases h : view o with
    | none => cases hp : p o.path <;> simp [h, hp, ih]
    | some x => cases hp : p o.path <;> simp [h, hp, ih, hview h]

end View

end Outcome

def FileTree.textOf? (tree : FileTree) (entry : FileEntry) : Option (List Char) :=
  (tree.read entry.path).toOption.bind fun bytes => (Content.text bytes).toOption

def FileTree.sourceOf? (tree : FileTree) (entry : FileEntry) : Option (List Char × List Char) :=
  (tree.textOf? entry).map fun text => (entry.relative, text)

namespace Job

variable {job : Job} {tree : FileTree} {entry : FileEntry}

def mapOf? (job : Job) (tree : FileTree) (entry : FileEntry) : Option FileMap :=
  (tree.textOf? entry).bind fun text => (Abridge.fileMap job.map entry.relative text).toOption

theorem attempt_of_rejected {bytes : List UInt8} {reason : Rejection}
    (hread : tree.read entry.path = .ok bytes) (htext : Content.text bytes = .error reason) :
    job.attempt tree entry = .ok (.skipped ⟨entry.relative, reason.message.toList⟩) := by
  simp only [attempt, hread, htext]

theorem textOf?_of_ok {bytes : List UInt8} (hread : tree.read entry.path = .ok bytes) :
    tree.textOf? entry = (Content.text bytes).toOption := by
  rw [FileTree.textOf?, hread]
  rfl

theorem attempt_of_text {bytes : List UInt8} {text : List Char}
    (hread : tree.read entry.path = .ok bytes) (htext : Content.text bytes = .ok text) :
    job.attempt tree entry = job.mapText entry.relative text := by
  simp only [attempt, hread, htext]

theorem mapText_of_error {path text : List Char} {e : MapError}
    (h : Abridge.file path text job.map = .error e) : job.mapText path text = .error e :=
  map_eq_error_iff.mpr (Abridge.fileMap_eq_error_iff.mpr h)

theorem attempt_cases (job : Job) (tree : FileTree) (entry : FileEntry) :
    (∃ e, job.attempt tree entry = .error e ∧ e.path? = some entry.relative ∧
      job.mapOf? tree entry = none) ∨
    (∃ reason, job.attempt tree entry = .ok (.skipped ⟨entry.relative, reason⟩) ∧
      job.mapOf? tree entry = none) ∨
    ∃ text file, tree.textOf? entry = some text ∧ job.mapOf? tree entry = some file ∧
      file.path = entry.relative ∧ job.attempt tree entry =
        .ok (.mapped file
          (job.encoding.map fun e => Reduction.measure e.countTokens text file.content)) := by
  cases hread : tree.read entry.path with
  | error cause =>
    refine .inl ⟨.readFailed entry.relative cause.message.toList, ?_, rfl, ?_⟩
    · simp only [attempt, hread]
    · rw [mapOf?, FileTree.textOf?, hread]
      rfl
  | ok bytes =>
    cases htext : Content.text bytes with
    | error reason =>
      refine .inr (.inl ⟨_, attempt_of_rejected hread htext, ?_⟩)
      rw [mapOf?, textOf?_of_ok hread, htext]
      rfl
    | ok text =>
      have hsome : tree.textOf? entry = some text := by
        rw [textOf?_of_ok hread, htext]
        rfl
      have hmapOf : job.mapOf? tree entry =
          (Abridge.fileMap job.map entry.relative text).toOption := by
        rw [mapOf?, hsome, Option.bind_some]
      cases hmap : Abridge.fileMap job.map entry.relative text with
      | error e =>
        have hfile := Abridge.fileMap_eq_error_iff.mp hmap
        refine .inl ⟨e, ?_, Abridge.file_error hfile, ?_⟩
        · exact (attempt_of_text hread htext).trans (mapText_of_error hfile)
        · rw [hmapOf, hmap]
          rfl
      | ok file =>
        refine .inr (.inr ⟨text, file, hsome, ?_, (Abridge.fileMap_eq_ok_iff.mp hmap).1, ?_⟩)
        · rw [hmapOf, hmap]
          rfl
        · rw [attempt_of_text hread htext, mapText, hmap]
          rfl

theorem attempt_error {e : MapError} (h : job.attempt tree entry = .error e) :
    e.path? = some entry.relative ∧ e.fatal = false := by
  rcases attempt_cases job tree entry with ⟨e', he, hpath, -⟩ | ⟨_, he, -⟩ | ⟨_, _, -, -, -, he⟩
  · rw [he] at h
    cases h
    exact ⟨hpath, by rw [MapError.fatal_eq, hpath, Option.isNone_some]⟩
  · rw [he] at h
    cases h
  · rw [he] at h
    cases h

theorem process_of_ok {o : Outcome} (h : job.attempt tree entry = .ok o) :
    job.process tree entry = .ok o := by
  rw [process, h]

theorem process_of_skip (hskip : job.policy = .skip) {e : MapError}
    (h : job.attempt tree entry = .error e) :
    job.process tree entry = .ok (.skipped ⟨entry.relative, e.message⟩) := by
  rw [process, h]
  exact if_pos ⟨hskip, by rw [(attempt_error h).2]; rfl⟩

theorem process_of_abort (habort : job.policy = .abort) :
    job.process tree entry = job.attempt tree entry := by
  unfold process
  cases job.attempt tree entry with
  | ok o => rfl
  | error e => exact if_neg fun hc => by rw [habort] at hc; cases hc.1

theorem process_cases {o : Outcome} (h : job.process tree entry = .ok o) :
    (∃ reason, o = .skipped ⟨entry.relative, reason⟩ ∧ job.mapOf? tree entry = none) ∨
    ∃ text file, tree.textOf? entry = some text ∧ job.mapOf? tree entry = some file ∧
      file.path = entry.relative ∧
      o = .mapped file
        (job.encoding.map fun e => Reduction.measure e.countTokens text file.content) := by
  rcases attempt_cases job tree entry with ⟨e, he, -, hnone⟩ | ⟨reason, he, hnone⟩ |
    ⟨text, file, htext, hfile, hpath, he⟩
  · cases hpolicy : job.policy with
    | abort =>
      rw [process_of_abort hpolicy, he] at h
      cases h
    | skip =>
      rw [process_of_skip hpolicy he] at h
      exact .inl ⟨_, (Except.ok.inj h).symm, hnone⟩
  · rw [process_of_ok he] at h
    exact .inl ⟨_, (Except.ok.inj h).symm, hnone⟩
  · rw [process_of_ok he] at h
    exact .inr ⟨text, file, htext, hfile, hpath, (Except.ok.inj h).symm⟩

theorem process_path {o : Outcome} (h : job.process tree entry = .ok o) :
    o.path = entry.relative := by
  rcases process_cases h with ⟨reason, rfl, -⟩ | ⟨text, file, -, -, hpath, rfl⟩
  · rfl
  · exact hpath

theorem process_file? {o : Outcome} (h : job.process tree entry = .ok o) :
    o.file? = job.mapOf? tree entry := by
  rcases process_cases h with ⟨reason, rfl, hnone⟩ | ⟨text, file, -, hfile, -, rfl⟩
  · exact hnone.symm
  · exact hfile.symm

def sizesOf? (job : Job) (tree : FileTree) (encoding : Encoding) (entry : FileEntry) :
    Option Reduction :=
  (tree.textOf? entry).bind fun text =>
    (job.mapOf? tree entry).map fun file => Reduction.measure encoding.countTokens text file.content

theorem process_sizes? {encoding : Encoding} (hencoding : job.encoding = some encoding)
    {o : Outcome} (h : job.process tree entry = .ok o) :
    o.sizes? = job.sizesOf? tree encoding entry := by
  rcases process_cases h with ⟨reason, rfl, hnone⟩ | ⟨text, file, htext, hfile, -, rfl⟩
  · simp [Outcome.sizes?, sizesOf?, hnone]
  · simp [Outcome.sizes?, sizesOf?, htext, hfile, hencoding]

theorem exists_text_of_mapOf? {file : FileMap} (h : job.mapOf? tree entry = some file) :
    ∃ text, tree.textOf? entry = some text ∧
      Abridge.fileMap job.map entry.relative text = .ok file := by
  obtain ⟨text, htext, hmap⟩ := Option.bind_eq_some_iff.mp h
  refine ⟨text, htext, ?_⟩
  cases hfile : Abridge.fileMap job.map entry.relative text with
  | error e =>
    rw [hfile] at hmap
    cases hmap
  | ok found =>
    rw [hfile] at hmap
    rw [Option.some.inj hmap]

theorem mapOf?_path {file : FileMap} (h : job.mapOf? tree entry = some file) :
    file.path = entry.relative := by
  obtain ⟨text, -, hmap⟩ := exists_text_of_mapOf? h
  exact (Abridge.fileMap_eq_ok_iff.mp hmap).1

theorem mapOf?_isSome_iff : (job.mapOf? tree entry).isSome = true ↔
    ∃ text, tree.textOf? entry = some text ∧ ¬Abridge.Fails job.map (entry.relative, text) := by
  constructor
  · intro h
    obtain ⟨file, hfile⟩ := Option.isSome_iff_exists.mp h
    obtain ⟨text, htext, hmap⟩ := exists_text_of_mapOf? hfile
    refine ⟨text, htext, ?_⟩
    rintro ⟨e, he⟩
    rw [Abridge.fileMap_eq_error_iff.mpr he] at hmap
    cases hmap
  · rintro ⟨text, htext, hnot⟩
    rw [mapOf?, htext, Option.bind_some]
    cases hmap : Abridge.fileMap job.map entry.relative text with
    | error e => exact absurd ⟨e, Abridge.fileMap_eq_error_iff.mp hmap⟩ hnot
    | ok file => rfl

section Run

variable {entries : List FileEntry} {outcomes : List Outcome} {r : Report} {e : MapError}

theorem run_of_missing (h : tree.pathExists job.root = false) :
    job.run tree = .error (.pathNotFound job.root) := by
  rw [run, h]
  rfl

theorem run_of_no_entries (h : tree.pathExists job.root = true)
    (hentries : job.entries tree = .ok []) : job.run tree = .error (.noFilesFound job.root) := by
  rw [run, h, hentries]
  rfl

theorem run_of_entries (h : tree.pathExists job.root = true)
    (hentries : job.entries tree = .ok entries) (hne : entries ≠ []) :
    job.run tree = match entries.mapM (job.process tree) with
      | .error e => .error (.map e)
      | .ok outcomes => .ok (job.report outcomes) := by
  cases entries with
  | nil => exact absurd rfl hne
  | cons entry rest =>
    rw [run, h, hentries]
    rfl

theorem run_cases (job : Job) (tree : FileTree) :
    (tree.pathExists job.root = false ∧ job.run tree = .error (.pathNotFound job.root)) ∨
    (tree.pathExists job.root = true ∧ job.entries tree = .ok [] ∧
      job.run tree = .error (.noFilesFound job.root)) ∨
    ∃ entries, tree.pathExists job.root = true ∧ job.entries tree = .ok entries ∧
      entries ≠ [] ∧ job.run tree = match entries.mapM (job.process tree) with
        | .error e => .error (.map e)
        | .ok outcomes => .ok (job.report outcomes) := by
  cases h : tree.pathExists job.root with
  | false => exact .inl ⟨rfl, run_of_missing h⟩
  | true =>
    obtain ⟨entries, hentries⟩ := exists_entries h
    by_cases hne : entries = []
    · subst hne
      exact .inr (.inl ⟨rfl, hentries, run_of_no_entries h hentries⟩)
    · exact .inr (.inr ⟨entries, rfl, hentries, hne, run_of_entries h hentries hne⟩)

theorem run_eq_ok_iff : job.run tree = .ok r ↔
    ∃ entries outcomes, tree.pathExists job.root = true ∧ job.entries tree = .ok entries ∧
      entries ≠ [] ∧ entries.map (job.process tree) = outcomes.map .ok ∧
      job.report outcomes = r := by
  constructor
  · intro hrun
    rcases run_cases job tree with ⟨-, he⟩ | ⟨-, -, he⟩ | ⟨entries, h, hentries, hne, he⟩
    · rw [he] at hrun
      cases hrun
    · rw [he] at hrun
      cases hrun
    · rw [he] at hrun
      split at hrun
      · cases hrun
      · next outcomes hall =>
        exact ⟨entries, outcomes, h, hentries, hne, mapM_eq_ok_iff.mp hall, Except.ok.inj hrun⟩
  · rintro ⟨entries, outcomes, h, hentries, hne, hall, rfl⟩
    rw [run_of_entries h hentries hne, mapM_eq_ok_iff.mpr hall]

theorem exists_failing_of_run (hrun : job.run tree = .error (.map e)) :
    ∃ entries, tree.pathExists job.root = true ∧ job.entries tree = .ok entries ∧
      entries ≠ [] ∧ ∃ entry ∈ entries, job.process tree entry = .error e := by
  rcases run_cases job tree with ⟨-, he⟩ | ⟨-, -, he⟩ | ⟨entries, h, hentries, hne, he⟩
  · rw [he] at hrun
    cases hrun
  · rw [he] at hrun
    cases hrun
  · rw [he] at hrun
    split at hrun
    · next hall =>
      cases hrun
      exact ⟨entries, h, hentries, hne, exists_of_mapM_eq_error hall⟩
    · cases hrun

theorem exists_outcomes_of_skip (hskip : job.policy = .skip) (tree : FileTree)
    (entries : List FileEntry) :
    ∃ outcomes : List Outcome, entries.map (job.process tree) = outcomes.map .ok := by
  -- no failure of a file is fatal, so each one is left out
  refine exists_collected fun entry _ => ?_
  cases h : job.attempt tree entry with
  | ok o => exact ⟨o, process_of_ok h⟩
  | error e => exact ⟨_, process_of_skip hskip h⟩

end Run

end Job
end Synopsis
