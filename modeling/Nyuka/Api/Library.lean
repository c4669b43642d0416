import Nyuka.Api.Files
import Nyuka.Foundation.Runs
import Nyuka.Packaging.Adapter

/-! The library: the rows of what was downloaded and the files below the root. A path is made of
a title and two numbers, so two chapters may be sent to one file, and the later one replaces it. -/
namespace Nyuka
namespace Api
open Packaging Runs Tables

/-- What a chapter is named after. -/
structure Label where
  title : String
  volume : Option Binary32
  number : Option Binary32
deriving DecidableEq, Repr

/-- Two chapters are sent to one file: their titles are the same name once sanitized, and their
volumes and numbers are written alike, or a name is cut and what is left agrees. -/
def Label.Clash (nfc : List Char → List Char) (a b : Label) : Prop :=
  match sanitizeComponent nfc a.title.toList, sanitizeComponent nfc b.title.toList with
  | .ok dir, .ok dir' => dir = dir' ∧
    ((SameNumber a.volume b.volume ∧ SameNumber a.number b.number) ∨
      ((TooLong nfc dir a.volume a.number ∨ TooLong nfc dir b.volume b.number) ∧
        cut (fullName nfc dir a.volume a.number) = cut (fullName nfc dir b.volume b.number)))
  | _, _ => False

instance (nfc : List Char → List Char) (a b : Label) : Decidable (a.Clash nfc b) := by
  unfold Label.Clash; split <;> infer_instance

/-- The directory and the stem behind a path. -/
theorem relativePath_ok {crates : Crates} {a : Label} {path : String}
    (h : relativePath crates a.title none a.volume a.number = .ok path) :
    ∃ dir stem, sanitizeComponent crates.nfc a.title.toList = .ok dir ∧ '/' ∉ dir ∧
      stem = cut (fullName crates.nfc dir a.volume a.number) ∧ path = joinPath dir stem := by
  simp only [relativePath, Results.bind_eq_ok, Results.pure_eq_ok] at h
  obtain ⟨dir, hdir, stem, hstem, rfl⟩ := h
  have hbase : sanitizeComponent crates.nfc a.title.toList = .ok dir := by
    simp only [seriesDir, Option.map_none] at hdir
    split at hdir
    · cases hdir
    · next hbase => rw [hbase]; exact hdir
  obtain ⟨dir', hdir', hstem⟩ := eq_cut_of_chapterStem hstem
  obtain rfl : dir = dir' := by rw [hbase] at hdir'; exact Except.ok.inj hdir'
  exact ⟨dir, stem, hbase, slash_notMem_sanitized hbase, hstem, rfl⟩

/-- Two chapters get the same path exactly when they clash. -/
theorem relativePath_eq_iff {crates : Crates} (hnfc : AsciiAppends crates.nfc) {a b : Label}
    {path path' : String} (ha : relativePath crates a.title none a.volume a.number = .ok path)
    (hb : relativePath crates b.title none b.volume b.number = .ok path') :
    path = path' ↔ a.Clash crates.nfc b := by
  obtain ⟨dir, stem, hdir, hslash, rfl, rfl⟩ := relativePath_ok ha
  obtain ⟨dir', stem', hdir', hslash', rfl, rfl⟩ := relativePath_ok hb
  simp only [Label.Clash, hdir, hdir']
  constructor
  · intro h
    obtain ⟨rfl, hstem⟩ := joinPath_inj hslash hslash' h
    exact ⟨rfl, (cut_eq_iff hnfc dir).mp hstem⟩
  · rintro ⟨rfl, h⟩
    rw [(cut_eq_iff hnfc dir).mpr h]

/-- A row of `downloaded_chapter`, with what its file was named after. -/
structure Shelved (crates : Crates) where
  record : DownloadedChapter
  mangaId : MangaId
  label : Label
  named : relativePath crates label.title none label.volume label.number = .ok record.relativePath

namespace Shelved

def chapterId {crates : Crates} (r : Shelved crates) : ChapterId := r.record.chapterId

def path {crates : Crates} (r : Shelved crates) : String := r.record.relativePath

end Shelved

structure Library (crates : Crates) where
  rows : Table (Table.keyedBy (@Shelved.chapterId crates))
  files : Files

def Library.empty (crates : Crates) : Library crates := ⟨Table.empty, fun _ => none⟩

/-- The record of a chapter, as `ChapterRepository::downloaded` returns it. -/
def Library.downloaded {crates : Crates} (lib : Library crates) (chapter : ChapterId) :
    Option DownloadedChapter := (lib.rows.get chapter).map Shelved.record

/-- A chapter to write and to record, with the series the handler read for it. -/
structure Download where
  manga : Manga
  chapter : Nyuka.Chapter
  pages : List (PageRef × Bytes)
  answers : WriteAnswers
  now : Time

def Download.label (d : Download) : Label := ⟨d.manga.title, d.chapter.volume, d.chapter.number⟩

variable {crates : Crates}

/-- `write_chapter`, and `record_download` when it succeeded. -/
def download (crates : Crates) (lib : Library crates) (d : Download) : Option (Library crates) :=
  match h : writeDownload crates lib.files d.manga d.chapter d.pages d.answers d.now with
  | (_, .error _) => none
  | (files, .ok record) =>
    some ⟨lib.rows.upsert ⟨record, d.manga.id, d.label, (writeDownload_ok h).2.1⟩, files⟩

/-- What one download does: a row for the chapter in place of the one it had, and a file at the
row's path with the size and the checksum the row holds. -/
theorem download_some {lib lib' : Library crates} {d : Download}
    (h : download crates lib d = some lib') :
    ∃ row : Shelved crates, ∃ bytes, row.chapterId = d.chapter.id ∧ row.label = d.label ∧
      lib'.rows = lib.rows.upsert row ∧ lib'.files = lib.files.place row.path bytes ∧
      row.record.sizeBytes = bytes.length ∧ row.record.checksum = checksum crates bytes := by
  unfold download at h
  split at h
  · cases h
  · next files record hwrite =>
    obtain ⟨hchapter, -, bytes, -, hfiles, hsize, hsum⟩ := writeDownload_ok hwrite
    cases h
    exact ⟨⟨record, d.manga.id, d.label, (writeDownload_ok hwrite).2.1⟩, bytes, hchapter, rfl, rfl,
      hfiles, hsize, hsum⟩

/-- `DELETE /api/v1/manga/{id}` with the files: they go one by one, before the rows do, and a
failure ends it. -/
def deleteFiles (answers : String → Except StoreError Unit) :
    Files → List String → Files × Except StoreError Unit
  | files, [] => (files, .ok ())
  | files, path :: paths =>
    match answers path with
    | .error e => (files, .error e)
    | .ok () => deleteFiles answers (fun p => if p = path then none else files p) paths

def Library.downloadedPaths (lib : Library crates) (manga : MangaId) : List String :=
  (lib.rows.rows.filter fun r => decide (r.mangaId = manga)).map Shelved.path

theorem deleteFiles_of_notMem {answers : String → Except StoreError Unit} {files : Files}
    {paths : List String} {path : String} (h : path ∉ paths) :
    (deleteFiles answers files paths).1 path = files path := by
  induction paths generalizing files with
  | nil => rfl
  | cons p paths ih =>
    obtain ⟨hne, hrest⟩ := not_or.mp (List.mem_cons.not.mp h)
    unfold deleteFiles
    split
    · rfl
    · rw [ih hrest, if_neg hne]

/-- What the library promises of its paths. -/
structure Sound (lib : Library crates) : Prop where
  distinct : ∀ r ∈ lib.rows.rows, ∀ r' ∈ lib.rows.rows, r.path = r'.path → r = r'
  described : ∀ r ∈ lib.rows.rows, ∃ bytes, lib.files r.path = some bytes ∧
    r.record.sizeBytes = bytes.length ∧ r.record.checksum = checksum crates bytes
  tagged : ∀ chapter headers answers response tag,
    file lib.files (.ok (lib.downloaded chapter)) headers answers = .ok response →
      response.header "etag" = some tag → ∃ r ∈ lib.rows.rows, r.chapterId = chapter ∧
        ∃ bytes, lib.files r.path = some bytes ∧ response.body <:+: bytes ∧
          tag = etagOf (checksum crates bytes)
  spared : ∀ manga answers, ∀ r ∈ lib.rows.rows, r.mangaId ≠ manga →
    (deleteFiles answers lib.files (lib.downloadedPaths manga)).1 r.path = lib.files r.path

/-- The tags and the removals follow from the paths and the records. -/
theorem Sound.of_distinct {lib : Library crates}
    (hdistinct : ∀ r ∈ lib.rows.rows, ∀ r' ∈ lib.rows.rows, r.path = r'.path → r = r')
    (hdescribed : ∀ r ∈ lib.rows.rows, ∃ bytes, lib.files r.path = some bytes ∧
      r.record.sizeBytes = bytes.length ∧ r.record.checksum = checksum crates bytes) :
    Sound lib where
  distinct := hdistinct
  described := hdescribed
  tagged chapter headers answers response tag h htag := by
    cases hget : lib.rows.get chapter with
    | none =>
      simp only [Library.downloaded, hget, Option.map_none, file] at h
      cases h
    | some r =>
      obtain ⟨hr, hchapter⟩ := Table.get_eq_some_iff.mp hget
      simp only [Library.downloaded, hget, Option.map_some] at h
      obtain ⟨htag, bytes, hfile, hbody⟩ := file_tagged h htag
      obtain ⟨bytes', hfile', -, hsum⟩ := hdescribed r hr
      obtain rfl : bytes' = bytes := Option.some.inj (hfile'.symm.trans hfile)
      exact ⟨r, hr, hchapter, bytes', hfile, hbody, by rw [htag, hsum, etagHeader_checksum]⟩
  spared manga answers r hr hother := by
    refine deleteFiles_of_notMem fun hmem => ?_
    obtain ⟨r', hr', hpath⟩ := List.mem_map.mp hmem
    obtain ⟨hr', hmanga⟩ := List.mem_filter.mp hr'
    rw [hdistinct r' hr' r hr hpath] at hmanga
    exact hother (by simpa using hmanga)

/-- The chapter clashes with none that the library holds. -/
def Fresh (lib : Library crates) (d : Download) : Prop :=
  ∀ r ∈ lib.rows.rows, r.chapterId ≠ d.chapter.id → ¬ r.label.Clash crates.nfc d.label

instance (lib : Library crates) (d : Download) : Decidable (Fresh lib d) := by
  unfold Fresh; infer_instance

/-- A download keeps the library sound exactly when its chapter clashes with none. -/
theorem sound_download_iff (hnfc : AsciiAppends crates.nfc) {lib lib' : Library crates}
    {d : Download} (hsound : Sound lib) (h : download crates lib d = some lib') :
    Sound lib' ↔ Fresh lib d := by
  obtain ⟨row, bytes, hchapter, hlabel, hrows, hfiles, hsize, hsum⟩ := download_some h
  have hpath {r : Shelved crates} : r.path = row.path ↔ r.label.Clash crates.nfc d.label := by
    rw [← hlabel]
    exact relativePath_eq_iff hnfc r.named row.named
  have hmem {r : Shelved crates} : r ∈ lib'.rows.rows ↔
      r = row ∨ r ∈ lib.rows.rows ∧ r.chapterId ≠ d.chapter.id := by
    rw [hrows, Table.mem_upsert, hchapter]
  constructor
  · intro hsound' r hr hother hclash
    have heq := hsound'.distinct r (hmem.mpr (Or.inr ⟨hr, hother⟩)) row (hmem.mpr (Or.inl rfl))
      (hpath.mpr hclash)
    exact hother (heq ▸ hchapter)
  · intro hfresh
    have hapart : ∀ r ∈ lib.rows.rows, r.chapterId ≠ d.chapter.id → r.path ≠ row.path :=
      fun r hr hother heq => hfresh r hr hother (hpath.mp heq)
    refine .of_distinct ?_ ?_
    · intro r hr r' hr' heq
      rcases hmem.mp hr with rfl | ⟨hr, hother⟩
      · rcases hmem.mp hr' with rfl | ⟨hr', hother'⟩
        · rfl
        · exact absurd heq.symm (hapart r' hr' hother')
      · rcases hmem.mp hr' with rfl | ⟨hr', -⟩
        · exact absurd heq (hapart r hr hother)
        · exact hsound.distinct r hr r' hr' heq
    · intro r hr
      rcases hmem.mp hr with rfl | ⟨hr, hother⟩
      · exact ⟨bytes, by simp [hfiles, Files.place], hsize, hsum⟩
      · obtain ⟨old, hold, hdescribed⟩ := hsound.described r hr
        refine ⟨old, ?_, hdescribed⟩
        rw [hfiles, Files.place, if_neg (hapart r hr hother), hold]

theorem sound_empty : Sound (Library.empty crates) := by
  refine .of_distinct ?_ ?_
  · intro r hr
    cases hr
  · intro r hr
    cases hr

/-- The library is sound throughout a run of downloads exactly when each of them is of a chapter
that clashes with none the library holds then. -/
theorem library_sound (crates : Crates) (hnfc : AsciiAppends crates.nfc) (run : List Download) :
    Always (download crates) Sound (Library.empty crates) run ↔
      Each (download crates) Fresh (Library.empty crates) run :=
  always_iff_each (I := fun _ => True) (fun _ _ _ _ _ => trivial)
    (fun _ _ _ _ hsound h => sound_download_iff hnfc hsound h) run trivial sound_empty

/-- Crates that leave ASCII as it is and tell all contents apart. -/
def plainCrates : Crates where
  nfc := id
  zip := fun entries => .ok (entries.tail.flatMap Entry.bytes)
  sha256 := id

def allWell : WriteAnswers := ⟨.ok (), .ok (), .ok (), .ok ()⟩

/-- A download of a chapter with one page. The series' uuid is its source's too. -/
def onePage (series chapter : Uuid) (number : Binary32) (page : UInt8) : Download where
  manga := ⟨⟨series⟩, ⟨series⟩, "key", "Blue", .unknown⟩
  chapter := ⟨⟨chapter⟩, ⟨series⟩, "chapter", some number, none⟩
  pages := [(⟨0, "0.jpg", []⟩, [page])]
  answers := allWell
  now := 0

/-- Chapters one and two of a series. -/
def numberedRun : List Download := [onePage 1 1 0x3F800000 1, onePage 1 2 0x40000000 2]

theorem numberedRun_sound :
    Always (download plainCrates) Sound (Library.empty plainCrates) numberedRun := by
  refine (library_sound plainCrates (fun _ _ _ => rfl) numberedRun).mpr ?_
  exact @Each.of_check _ _ _ _ (fun lib d => decide (Fresh lib d))
    (fun _ _ h => of_decide_eq_true h) _ _ (by decide +kernel)

/-- The first chapters of two series of one title, from two sources. -/
def sameTitleRun : List Download := [onePage 1 1 0x3F800000 1, onePage 2 2 0x3F800000 2]

/-- The second download replaces the file of the first, whose record then describes a file that
is no longer there. -/
theorem sameTitleRun_not_sound :
    ¬ Always (download plainCrates) Sound (Library.empty plainCrates) sameTitleRun := by
  obtain ⟨lib, hlib, htest⟩ := @exists_exec _ _ (download plainCrates) (Library.empty plainCrates)
    sameTitleRun (fun lib => lib.rows.rows.any fun r =>
      decide ((lib.files r.path).map (checksum plainCrates) ≠ some r.record.checksum))
    (by decide +kernel)
  refine not_always_of_exec hlib fun hsound => ?_
  obtain ⟨r, hr, hne⟩ := List.any_eq_true.mp htest
  obtain ⟨bytes, hfile, -, hsum⟩ := hsound.described r hr
  rw [hfile, hsum] at hne
  simp at hne

end Api
end Nyuka
