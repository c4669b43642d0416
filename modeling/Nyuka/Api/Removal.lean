import Nyuka.Api.Problem
import Nyuka.Packaging.Store
import Nyuka.Persistence.Removal

/-! `DELETE /api/v1/manga/{id}`: a series, and with it its archives when they are asked for. The
archives go one by one before the rows do, and nothing puts back the ones that are gone when a
later step fails. -/
namespace Nyuka
namespace Api
open Packaging Persistence Tables

/-- The paths of a series' archives, a join of the downloads with the chapters. -/
def downloadedPathsForManga (db : Database) (manga : MangaId) : List String :=
  db.downloads.rows.flatMap fun d =>
    (db.chapters.rows.filter fun c => c.id == d.chapterId && c.mangaId == manga).map
      fun _ => d.relativePath

/-- The rows of the library and the archives below its root. -/
structure Shelves where
  db : Database
  files : Files

/-- What fails while a series is removed: the read of the paths, the deletion of the `n`th
archive, the deletion of the row. -/
structure RemovalFaults where
  read : Option DomainError
  file : ℕ → Option DomainError
  row : Option DomainError

/-- The archives, one after the other until one cannot be deleted. -/
def deleteChapters (fault : ℕ → Option DomainError) :
    Files → List String → Files × Except DomainError Unit
  | files, [] => (files, .ok ())
  | files, path :: paths =>
    match fault 0 with
    | some e => (files, .error e)
    | none =>
      deleteChapters (fun n => fault (n + 1)) (fun p => if p = path then none else files p) paths

/-- `delete_manga`: whether there was a row is told by how many rows were deleted. -/
def deleteManga (fault : Option DomainError) (db : Database) (manga : MangaId) :
    Database × Except DomainError Unit :=
  match fault with
  | some e => (db, .error e)
  | none =>
    if db.mangas.rows.any fun m => m.id == manga then
      (db.deleteMangas fun m => m.id == manga, .ok ())
    else (db, .error .notFound)

/-- `DELETE /api/v1/manga/{id}`, with `files` as the query has it. -/
def remove (faults : RemovalFaults) (s : Shelves) (manga : MangaId) (files : Bool) :
    Shelves × Except Problem Unit :=
  match if files then faults.read else none with
  | some e => (s, .error (.ofDomainError e))
  | none =>
    let paths := if files then downloadedPathsForManga s.db manga else []
    match deleteChapters faults.file s.files paths with
    | (left, .error e) => (⟨s.db, left⟩, .error (.ofDomainError e))
    | (left, .ok ()) =>
      match deleteManga faults.row s.db manga with
      | (db, .error e) => (⟨db, left⟩, .error (.ofMissing e "series"))
      | (db, .ok ()) => (⟨db, left⟩, .ok ())

/-- The series, its records and every archive of it there was are still there. -/
structure Intact (manga : MangaId) (s t : Shelves) : Prop where
  db : t.db = s.db
  files : ∀ path ∈ downloadedPathsForManga s.db manga, t.files path = s.files path

/-- The removal ends with an error after so many of the archives were deleted. -/
def FailsAfter (faults : RemovalFaults) (s : Shelves) (manga : MangaId) (n : ℕ) : Prop :=
  faults.read = none ∧ n ≤ (downloadedPathsForManga s.db manga).length ∧
    (∀ i < n, faults.file i = none) ∧
    if n < (downloadedPathsForManga s.db manga).length then faults.file n ≠ none
    else faults.row ≠ none ∨ ∀ m ∈ s.db.mangas.rows, m.id ≠ manga

section Deletions

/-- The files without some of them. -/
def without (files : Files) (paths : List String) : Files :=
  fun p => if p ∈ paths then none else files p

@[simp] theorem without_nil (files : Files) : without files [] = files := by
  funext p
  simp [without]

@[simp] theorem without_cons (files : Files) (path : String) (paths : List String) :
    without (fun p => if p = path then none else files p) paths =
      without files (path :: paths) := by
  funext p
  unfold without
  by_cases hp : p = path
  · simp [hp]
  · simp [hp]

theorem without_eq_iff {files : Files} {paths gone : List String} (hgone : gone ⊆ paths) :
    (∀ p ∈ paths, without files gone p = files p) ↔ ∀ p ∈ gone, files p = none := by
  unfold without
  constructor
  · intro h p hp
    have heq := h p (hgone hp)
    rw [if_pos hp] at heq
    exact heq.symm
  · intro h p _
    split
    · next hp => exact (h p hp).symm
    · rfl

variable {fault : ℕ → Option DomainError} {files : Files} {paths : List String}

/-- Up to the first fault all archives are gone, and all the others are left. -/
theorem deleteChapters_of_fault {n : ℕ} {e : DomainError} (hbefore : ∀ i < n, fault i = none)
    (hfault : fault n = some e) (hn : n < paths.length) :
    deleteChapters fault files paths = (without files (paths.take n), .error e) := by
  induction n generalizing fault files paths with
  | zero =>
    cases paths with
    | nil => simp at hn
    | cons path paths =>
      rw [deleteChapters, hfault, List.take_zero, without_nil]
  | succ n ih =>
    cases paths with
    | nil => simp at hn
    | cons path paths =>
      have hrest := @ih (fun i => fault (i + 1)) (fun p => if p = path then none else files p) paths
        (fun i hi => hbefore (i + 1) (by omega)) hfault (by simpa using hn)
      rw [deleteChapters, hbefore 0 (by omega)]
      show deleteChapters _ _ paths = _
      rw [hrest, without_cons, List.take_succ_cons]

theorem deleteChapters_of_none (h : ∀ i < paths.length, fault i = none) :
    deleteChapters fault files paths = (without files paths, .ok ()) := by
  induction paths generalizing fault files with
  | nil =>
    rw [deleteChapters, without_nil]
  | cons path paths ih =>
    have hrest := @ih (fun i => fault (i + 1)) (fun p => if p = path then none else files p)
      fun i hi => h (i + 1) (by simpa using hi)
    rw [deleteChapters, h 0 (by simp)]
    show deleteChapters _ _ paths = _
    rw [hrest, without_cons]

/-- There is a first fault, or none. -/
theorem first_fault (fault : ℕ → Option DomainError) (length : ℕ) :
    (∃ n < length, (∀ i < n, fault i = none) ∧ fault n ≠ none) ∨ ∀ i < length, fault i = none := by
  by_cases h : ∃ n, n < length ∧ fault n ≠ none
  · classical
    refine Or.inl ⟨Nat.find h, (Nat.find_spec h).1, fun i hi => ?_, (Nat.find_spec h).2⟩
    have hleast := Nat.find_min h hi
    rw [not_and, not_not] at hleast
    exact hleast (hi.trans (Nat.find_spec h).1)
  · refine Or.inr fun i hi => ?_
    by_contra hfault
    exact h ⟨i, hi, hfault⟩

end Deletions

variable {faults : RemovalFaults} {s : Shelves} {manga : MangaId}

theorem deleteManga_error_iff {fault : Option DomainError} {db : Database} :
    (∃ e, (deleteManga fault db manga).2 = .error e) ↔
      fault ≠ none ∨ ∀ m ∈ db.mangas.rows, m.id ≠ manga := by
  unfold deleteManga
  cases fault with
  | some e => simp
  | none =>
    by_cases h : (db.mangas.rows.any fun m => m.id == manga) = true
    · rw [if_pos h]
      simp only [List.any_eq_true, beq_iff_eq] at h
      simpa using h
    · rw [if_neg h]
      simp only [List.any_eq_true, beq_iff_eq, not_exists, not_and] at h
      simpa using h

private theorem deleteManga_error {fault : Option DomainError} {db : Database} {e : DomainError}
    (h : (deleteManga fault db manga).2 = .error e) : (deleteManga fault db manga).1 = db := by
  unfold deleteManga at *
  split at h
  · rfl
  · split at h
    · cases h
    · next hnone => rw [if_neg hnone]

/-- A removal that fails leaves the rows, and has deleted the archives before the fault. -/
theorem remove_of_failsAfter {n : ℕ} (h : FailsAfter faults s manga n) :
    ∃ problem, remove faults s manga true =
      (⟨s.db, without s.files ((downloadedPathsForManga s.db manga).take n)⟩, .error problem) := by
  obtain ⟨hread, hle, hbefore, hfault⟩ := h
  unfold remove
  simp only [if_true, hread]
  split at hfault
  · next hlt =>
    obtain ⟨e, he⟩ := Option.ne_none_iff_exists'.mp hfault
    rw [deleteChapters_of_fault hbefore he hlt]
    exact ⟨_, rfl⟩
  · next hge =>
    have hn : n = (downloadedPathsForManga s.db manga).length := by omega
    rw [hn] at hbefore
    rw [deleteChapters_of_none hbefore]
    obtain ⟨e, he⟩ := deleteManga_error_iff.mpr hfault
    have hdb := deleteManga_error he
    have heq : deleteManga faults.row s.db manga = (s.db, .error e) := Prod.ext hdb he
    rw [heq, hn, List.take_length]
    exact ⟨_, rfl⟩

/-- A removal that fails does so before anything is read, or after some of the archives. -/
theorem failsAfter_of_error {t : Shelves} {problem : Problem}
    (h : remove faults s manga true = (t, .error problem)) :
    t = s ∨ ∃ n, FailsAfter faults s manga n := by
  unfold remove at h
  simp only [if_true] at h
  cases hread : faults.read with
  | some e =>
    rw [hread] at h
    cases h
    exact Or.inl rfl
  | none =>
    rw [hread] at h
    right
    rcases first_fault faults.file (downloadedPathsForManga s.db manga).length with
      ⟨n, hlt, hbefore, hfault⟩ | hnone
    · exact ⟨n, hread, hlt.le, hbefore, by rwa [if_pos hlt]⟩
    · refine ⟨_, hread, Nat.le_refl _, hnone, ?_⟩
      rw [if_neg (Nat.lt_irrefl _)]
      apply deleteManga_error_iff.mp
      rw [deleteChapters_of_none hnone] at h
      cases hrow : deleteManga faults.row s.db manga with
      | mk db answer =>
        cases answer with
        | error e => exact ⟨e, rfl⟩
        | ok u =>
          rw [hrow] at h
          cases h

/-- A removal that is answered with an error leaves the series as it was if and only if it fails
before the first of the archives there were. -/
theorem remove_intact_iff (faults : RemovalFaults) (s : Shelves) (manga : MangaId) :
    (∀ t problem, remove faults s manga true = (t, .error problem) → Intact manga s t) ↔
      ∀ n, FailsAfter faults s manga n →
        ∀ path ∈ (downloadedPathsForManga s.db manga).take n, s.files path = none := by
  constructor
  · intro h n hfails
    obtain ⟨problem, hremove⟩ := remove_of_failsAfter hfails
    exact (without_eq_iff (List.take_subset _ _)).mp (h _ problem hremove).files
  · intro h t problem hremove
    rcases failsAfter_of_error hremove with rfl | ⟨n, hfails⟩
    · exact ⟨rfl, fun _ _ => rfl⟩
    · obtain ⟨problem', heq⟩ := remove_of_failsAfter hfails
      obtain rfl := (Prod.mk.inj (hremove.symm.trans heq)).1
      exact ⟨rfl, (without_eq_iff (List.take_subset _ _)).mpr (h n hfails)⟩

section Half

def halfSeries : MangaRow :=
  ⟨⟨⟨3⟩, LinkedDatabase.guya.id, "series", "Series", .unknown⟩, .ongoing, 0, 0⟩

def halfChapter (id : BitVec 128) (key : String) : ChapterRow :=
  ⟨⟨⟨id⟩, halfSeries.id, key, none, none⟩, 0⟩

def halfDownload (id : BitVec 128) (path : String) : DownloadedChapter :=
  ⟨⟨id⟩, path, 1, "00", 0⟩

theorem halfSeries_free : (Table.empty : MangaTable).Free halfSeries := by
  rintro i r ⟨⟩

theorem halfChapters_unique (i : Bool) : UniqueOn
    (Table.keyedByTwo (fun c : ChapterRow => c.id)
      (fun c : ChapterRow => (c.mangaId, c.externalKey)) i)
    [halfChapter 4 "1", halfChapter 5 "2"] := by
  cases i with
  | true => exact .of_nodup (by decide)
  | false => exact .of_nodup (by decide)

private theorem halfDownloads_unique (i : Unit) :
    UniqueOn (Table.keyedBy DownloadedChapter.chapterId i)
    [halfDownload 4 "Series/1.cbz", halfDownload 5 "Series/2.cbz"] :=
  .of_nodup (by decide)

/-- A series of two chapters that are both downloaded. -/
def halfShelves : Shelves where
  db := { LinkedDatabase.oneSource.toDatabase with
    mangas := Table.empty.insert halfSeries halfSeries_free
    chapters := { rows := [halfChapter 4 "1", halfChapter 5 "2"], unique := halfChapters_unique }
    downloads :=
      { rows := [halfDownload 4 "Series/1.cbz", halfDownload 5 "Series/2.cbz"]
        unique := halfDownloads_unique } }
  files p := if p = "Series/1.cbz" ∨ p = "Series/2.cbz" then some [80] else none

/-- The second archive cannot be deleted. -/
def lockedSecond : RemovalFaults where
  read := none
  file n := if n = 1 then some (.internal "Permission denied (os error 13)") else none
  row := none

/-- The first archive is gone although its record is left. -/
theorem halfShelves_not_intact : ¬ ∀ (faults : RemovalFaults) (s : Shelves) (manga : MangaId)
    (t : Shelves) (problem : Problem),
    remove faults s manga true = (t, .error problem) → Intact manga s t := by
  intro h
  have hfails : FailsAfter lockedSecond halfShelves halfSeries.id 1 := by
    refine ⟨rfl, by decide, fun i hi => ?_, by decide⟩
    obtain rfl : i = 0 := by omega
    rfl
  obtain ⟨problem, hremove⟩ := remove_of_failsAfter hfails
  have hfile := (h _ _ _ _ _ hremove).files "Series/1.cbz" (by decide)
  exact absurd hfile (by decide)

end Half
end Api
end Nyuka
