import Mathlib.Data.List.Nodup
import Mathlib.Data.List.Perm.Basic
import Synopsis.Abridge
import Synopsis.Proofs.Sorting

/-!
# The maps of several texts

Each text is abridged by itself, and only then are the maps sorted by their paths. So the order in
which texts are given shows only among texts with the same path, and in the choice of the failure
that is told where several texts fail.
-/

namespace Synopsis

section Collect

variable {α β ε : Type} {f : α → Except ε β}

theorem map_eq_ok_iff {x : Except ε α} {g : α → β} {b : β} :
    x.map g = .ok b ↔ ∃ a, x = .ok a ∧ g a = b := by
  cases x <;> simp [Except.map]

theorem map_eq_error_iff {x : Except ε α} {g : α → β} {e : ε} :
    x.map g = .error e ↔ x = .error e := by
  cases x <;> simp [Except.map]

theorem mapM_eq_ok_iff {xs : List α} {ys : List β} :
    xs.mapM f = .ok ys ↔ xs.map f = ys.map .ok := by
  induction xs generalizing ys with
  | nil => cases ys <;> simp [pure, Except.pure]
  | cons x xs ih =>
    rw [List.mapM_cons]
    cases hx : f x with
    | error e => cases ys <;> simp [bind, Except.bind, hx]
    | ok y =>
      cases hxs : xs.mapM f with
      | error e => cases ys <;> simp [bind, Except.bind, hx, ← ih, hxs]
      | ok rest => cases ys <;> simp [bind, Except.bind, pure, Except.pure, hx, ← ih, hxs]

theorem exists_of_mapM_eq_error {xs : List α} {e : ε} (h : xs.mapM f = .error e) :
    ∃ x ∈ xs, f x = .error e := by
  induction xs with
  | nil => cases h
  | cons x xs ih =>
    rw [List.mapM_cons] at h
    cases hx : f x with
    | error e' =>
      rw [hx] at h
      cases h
      exact ⟨x, .head _, hx⟩
    | ok y =>
      cases hxs : xs.mapM f with
      | error e' =>
        rw [hx, hxs] at h
        cases h
        obtain ⟨z, hz, hfz⟩ := ih hxs
        exact ⟨z, .tail _ hz, hfz⟩
      | ok rest =>
        rw [hx, hxs] at h
        cases h

theorem ok_of_mapM_eq_ok {xs : List α} {ys : List β} (h : xs.mapM f = .ok ys) {x : α}
    (hx : x ∈ xs) : ∃ y ∈ ys, f x = .ok y := by
  have hmem : f x ∈ ys.map .ok := mapM_eq_ok_iff.mp h ▸ List.mem_map_of_mem hx
  obtain ⟨y, hy, he⟩ := List.mem_map.mp hmem
  exact ⟨y, hy, he.symm⟩

theorem exists_collected {xs : List α} (h : ∀ x ∈ xs, ∃ y, f x = .ok y) :
    ∃ ys : List β, xs.map f = ys.map .ok := by
  cases hall : xs.mapM f with
  | ok ys => exact ⟨ys, mapM_eq_ok_iff.mp hall⟩
  | error e =>
    obtain ⟨x, hx, hfail⟩ := exists_of_mapM_eq_error hall
    obtain ⟨y, hy⟩ := h x hx
    rw [hy] at hfail
    cases hfail

theorem map_eq_of_collected {γ : Type} {p : α → γ} {q : β → γ}
    (hpq : ∀ x y, f x = .ok y → q y = p x) {xs : List α} {ys : List β}
    (h : xs.map f = ys.map .ok) : ys.map q = xs.map p := by
  induction xs generalizing ys with
  | nil =>
    cases ys with
    | nil => rfl
    | cons y ys => cases h
  | cons x xs ih =>
    cases ys with
    | nil => cases h
    | cons y ys =>
      obtain ⟨hx, hxs⟩ := List.cons.inj h
      rw [List.map_cons, List.map_cons, hpq x y hx, ih hxs]

theorem filterMap_eq_of_collected {γ : Type} {p : α → Option γ} {q : β → Option γ}
    (hpq : ∀ x y, f x = .ok y → q y = p x) {xs : List α} {ys : List β}
    (h : xs.map f = ys.map .ok) : ys.filterMap q = xs.filterMap p := by
  have hmap := congrArg (List.filterMap id) (map_eq_of_collected hpq h)
  rwa [List.filterMap_map, List.filterMap_map] at hmap

theorem filter_collected {p : α → Bool} {q : β → Bool} (hpq : ∀ x y, f x = .ok y → q y = p x)
    {xs : List α} {ys : List β} (h : xs.map f = ys.map .ok) :
    (xs.filter p).map f = (ys.filter q).map .ok := by
  induction xs generalizing ys with
  | nil =>
    cases ys with
    | nil => rfl
    | cons y ys => cases h
  | cons x xs ih =>
    cases ys with
    | nil => cases h
    | cons y ys =>
      obtain ⟨hx, hxs⟩ := List.cons.inj h
      rw [List.filter_cons, List.filter_cons, hpq x y hx]
      split
      · rw [List.map_cons, List.map_cons, hx, ih hxs]
      · exact ih hxs

end Collect

theorem MapError.fatal_eq (e : MapError) : e.fatal = e.path?.isNone := by cases e <;> rfl

namespace Abridge

variable {options : MapOptions} {path text : List Char} {e : MapError}

theorem layout_error {language : Language} (h : layout language path text = .error e) :
    e.path? = some path := by
  unfold layout layoutTree at h
  dsimp only at h
  split at h
  · cases h
    rfl
  · cases h

theorem withOutline_error {language : Language} {outline : Outline}
    (h : withOutline language path text options outline = .error e) : e.path? = some path := by
  unfold withOutline at h
  split at h
  · cases h
    rfl
  · dsimp only at h
    split at h
    · exact layout_error h
    · cases h

theorem file_error (h : file path text options = .error e) : e.path? = some path := by
  unfold file at h
  split at h
  · exact withOutline_error h
  · cases h

theorem fileMap_eq_ok_iff {f : FileMap} : fileMap options path text = .ok f ↔
    f.path = path ∧ f.language = Language.ofPath? path ∧
      file path text options = .ok f.content := by
  cases f
  simp only [fileMap, map_eq_ok_iff, FileMap.mk.injEq]
  constructor
  · rintro ⟨content, hfile, rfl, rfl, rfl⟩
    exact ⟨rfl, rfl, hfile⟩
  · rintro ⟨rfl, rfl, hfile⟩
    exact ⟨_, hfile, rfl, rfl, rfl⟩

theorem fileMap_eq_error_iff :
    fileMap options path text = .error e ↔ file path text options = .error e :=
  map_eq_error_iff

def Fails (options : MapOptions) (source : List Char × List Char) : Prop :=
  ∃ e, file source.1 source.2 options = .error e

section Sorted

variable {texts : List (List Char × List Char)} {files : List FileMap}

theorem byPath_trans (a b c : FileMap) (hab : Path.le a.path b.path = true)
    (hbc : Path.le b.path c.path = true) : Path.le a.path c.path = true :=
  Path.le_trans _ _ _ hab hbc

theorem byPath_total (a b : FileMap) : (Path.le a.path b.path || Path.le b.path a.path) = true :=
  Path.le_total _ _

theorem sources_eq_ok_iff : sources options texts = .ok files ↔
    ∃ maps : List FileMap, texts.map (fun t => fileMap options t.1 t.2) = maps.map .ok ∧
      maps.mergeSort (fun a b => Path.le a.path b.path) = files := by
  simp only [sources, map_eq_ok_iff, mapM_eq_ok_iff]

theorem exists_of_sources_eq_error (h : sources options texts = .error e) :
    ∃ t ∈ texts, file t.1 t.2 options = .error e := by
  obtain ⟨t, ht, hfail⟩ := exists_of_mapM_eq_error (map_eq_error_iff.mp h)
  exact ⟨t, ht, fileMap_eq_error_iff.mp hfail⟩

theorem sources_isOk_iff :
    (∃ files, sources options texts = .ok files) ↔ ∀ t ∈ texts, ¬Fails options t := by
  constructor
  · rintro ⟨files, h⟩ t ht ⟨e, he⟩
    obtain ⟨maps, hmaps, -⟩ := sources_eq_ok_iff.mp h
    obtain ⟨f, -, hf⟩ := ok_of_mapM_eq_ok (mapM_eq_ok_iff.mpr hmaps) ht
    rw [fileMap_eq_error_iff.mpr he] at hf
    cases hf
  · intro hall
    cases h : sources options texts with
    | ok files => exact ⟨files, rfl⟩
    | error e =>
      obtain ⟨t, ht, he⟩ := exists_of_sources_eq_error h
      exact absurd ⟨e, he⟩ (hall t ht)

theorem sources_sorted (h : sources options texts = .ok files) :
    files.Pairwise fun a b => Path.le a.path b.path = true := by
  obtain ⟨maps, -, rfl⟩ := sources_eq_ok_iff.mp h
  exact List.pairwise_mergeSort byPath_trans byPath_total maps

theorem sources_paths_perm (h : sources options texts = .ok files) :
    (files.map FileMap.path).Perm (texts.map Prod.fst) := by
  obtain ⟨maps, hmaps, rfl⟩ := sources_eq_ok_iff.mp h
  rw [← map_eq_of_collected (fun t f hf => (fileMap_eq_ok_iff.mp hf).1) hmaps]
  exact (List.mergeSort_perm _ _).map _

theorem sources_ascending (h : sources options texts = .ok files)
    (hn : (texts.map Prod.fst).Nodup) : Path.Ascending (files.map FileMap.path) :=
  Path.ascending_of_sorted (List.pairwise_map.mpr (sources_sorted h))
    ((sources_paths_perm h).nodup_iff.mpr hn)

theorem exists_file_of_mem (h : sources options texts = .ok files) {t : List Char × List Char}
    (ht : t ∈ texts) : ∃ f ∈ files, fileMap options t.1 t.2 = .ok f := by
  obtain ⟨maps, hmaps, rfl⟩ := sources_eq_ok_iff.mp h
  obtain ⟨f, hf, hmap⟩ := ok_of_mapM_eq_ok (mapM_eq_ok_iff.mpr hmaps) ht
  exact ⟨f, List.mem_mergeSort.mpr hf, hmap⟩

theorem sources_filter_path (h : sources options texts = .ok files) (path : List Char) :
    (files.filter fun f => f.path = path).map .ok =
      (texts.filter fun t => t.1 = path).map fun t => fileMap options t.1 t.2 := by
  obtain ⟨maps, hmaps, rfl⟩ := sources_eq_ok_iff.mp h
  have hsame : ∀ a b : FileMap, decide (a.path = path) = true → decide (b.path = path) = true →
      Path.le a.path b.path = true := by
    intro a b ha hb
    rw [of_decide_eq_true ha, of_decide_eq_true hb]
    simpa using Path.le_total path path
  rw [filter_mergeSort byPath_trans byPath_total hsame]
  refine (filter_collected (fun t f hf => ?_) hmaps).symm
  rw [(fileMap_eq_ok_iff.mp hf).1]

theorem sources_maps_perm {texts' : List (List Char × List Char)} {files' : List FileMap}
    (hp : texts.Perm texts') (h : sources options texts = .ok files)
    (h' : sources options texts' = .ok files') : files.Perm files' := by
  obtain ⟨maps, hmaps, rfl⟩ := sources_eq_ok_iff.mp h
  obtain ⟨maps', hmaps', rfl⟩ := sources_eq_ok_iff.mp h'
  have hok := hp.map fun t => fileMap options t.1 t.2
  rw [hmaps, hmaps'] at hok
  have hperm := (List.map_perm_map_iff fun a b hab => Except.ok.inj hab).mp hok
  exact ((List.mergeSort_perm _ _).trans hperm).trans (List.mergeSort_perm _ _).symm

theorem sources_perm {texts' : List (List Char × List Char)} (hp : texts.Perm texts')
    (hn : (texts.map Prod.fst).Nodup)
    (hone : ∀ s ∈ texts, ∀ t ∈ texts, Fails options s → Fails options t → s = t) :
    sources options texts = sources options texts' := by
  cases h : sources options texts with
  | error e =>
    obtain ⟨s, hs, hse⟩ := exists_of_sources_eq_error h
    cases h' : sources options texts' with
    | error e' =>
      obtain ⟨t, ht, hte⟩ := exists_of_sources_eq_error h'
      obtain rfl := hone s hs t (hp.mem_iff.mpr ht) ⟨e, hse⟩ ⟨e', hte⟩
      rw [hse] at hte
      cases hte
      rfl
    | ok files' => exact absurd ⟨e, hse⟩ (sources_isOk_iff.mp ⟨files', h'⟩ s (hp.mem_iff.mp hs))
  | ok files =>
    have hall := sources_isOk_iff.mp ⟨files, h⟩
    obtain ⟨files', h'⟩ := sources_isOk_iff.mpr fun t ht => hall t (hp.mem_iff.mpr ht)
    rw [h']
    congr 1
    have hn' : (texts'.map Prod.fst).Nodup := (hp.map Prod.fst).nodup_iff.mp hn
    exact Path.eq_of_perm_of_ascending (sources_maps_perm hp h h') (sources_ascending h hn)
      (sources_ascending h' hn')

end Sorted

/-- Texts with different paths, of which at most one fails, may be given in any order: the result is
the failure of that text, which names its path, or the maps of the texts in the order of their
paths, each as the text alone gives it. Texts that share a path keep their order. -/
theorem sources_order_independent (options : MapOptions) :
    (∀ texts texts', texts.Perm texts' → (texts.map Prod.fst).Nodup →
      (∀ s ∈ texts, ∀ t ∈ texts, Fails options s → Fails options t → s = t) →
      sources options texts = sources options texts' ∧
      ((∃ t ∈ texts, ∃ e, file t.1 t.2 options = .error e ∧
          sources options texts = .error e ∧ e.path? = some t.1) ∨
        ∃ files, sources options texts = .ok files ∧
          Path.Ascending (files.map FileMap.path) ∧ files.length = texts.length ∧
          ∀ t ∈ texts, ∃ f ∈ files, f.path = t.1 ∧ f.language = Language.ofPath? t.1 ∧
            file t.1 t.2 options = .ok f.content)) ∧
    ∀ texts, (∀ t ∈ texts, ¬Fails options t) →
      ∃ files, sources options texts = .ok files ∧
        (files.Pairwise fun a b => Path.le a.path b.path = true) ∧
        ∀ path, (files.filter fun f => f.path = path).map .ok =
          (texts.filter fun t => t.1 = path).map fun t => fileMap options t.1 t.2 := by
  refine ⟨fun texts texts' hp hn hone => ⟨sources_perm hp hn hone, ?_⟩, fun texts hall => ?_⟩
  · cases h : sources options texts with
    | error e =>
      obtain ⟨t, ht, he⟩ := exists_of_sources_eq_error h
      exact .inl ⟨t, ht, e, he, rfl, file_error he⟩
    | ok files =>
      have hlength : files.length = texts.length := by
        simpa using (sources_paths_perm h).length_eq
      refine .inr ⟨files, rfl, sources_ascending h hn, hlength, fun t ht => ?_⟩
      obtain ⟨f, hf, hmap⟩ := exists_file_of_mem h ht
      exact ⟨f, hf, fileMap_eq_ok_iff.mp hmap⟩
  · obtain ⟨files, h⟩ := sources_isOk_iff.mpr hall
    exact ⟨files, h, sources_sorted h, sources_filter_path h⟩

def shuffled : List (List Char × List Char) :=
  [("a/b.go".toList, "func f() \x7b g() \x7d".toList), ("a-b/x.py".toList, "x = 1".toList)]

theorem sources_order_independent_shuffled :
    sources {} shuffled = sources {} shuffled.reverse ∧
    ∃ files, sources {} shuffled = .ok files ∧ Path.Ascending (files.map FileMap.path) ∧
      ∃ f ∈ files, f.path = "a/b.go".toList ∧ f.content = "func f()".toList := by
  have hok : ∀ t ∈ shuffled, (file t.1 t.2 {}).toOption.isSome = true := by decide +kernel
  have hnone : ∀ t ∈ shuffled, ¬Fails {} t := by
    rintro t ht ⟨e, he⟩
    have h := hok t ht
    rw [he] at h
    cases h
  have hcontent : (file "a/b.go".toList "func f() \x7b g() \x7d".toList {}).toOption =
      some "func f()".toList := by decide +kernel
  obtain ⟨hsame, hresult⟩ := (sources_order_independent {}).1 shuffled shuffled.reverse
    shuffled.reverse_perm.symm (by decide) fun s hs _ _ hfail _ => absurd hfail (hnone s hs)
  refine ⟨hsame, ?_⟩
  rcases hresult with ⟨t, ht, e, he, -⟩ | ⟨files, h, hascending, -, hall⟩
  · exact absurd ⟨e, he⟩ (hnone t ht)
  · obtain ⟨f, hf, hpath, -, hfile⟩ := hall _ (.head _)
    refine ⟨files, h, hascending, f, hf, hpath, ?_⟩
    rw [hfile] at hcontent
    exact Option.some.inj hcontent

end Abridge
end Synopsis
