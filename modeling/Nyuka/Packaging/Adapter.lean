import Nyuka.Packaging.Store

/-! The library port over the store: from the domain's series and chapter to a name, and from a
list of fetched pages to the archive's order. -/
namespace Nyuka
namespace Packaging

/-- Builds the metadata for a chapter. -/
def infoFor (series : String) (number volume : Option Binary32) (pageCount : UInt32)
    (direction : ReadingDirection) : ComicInfo where
  series := series
  number := number
  volume := volume
  pageCount := pageCount
  direction := direction

/-- The images in the order of the page indexes; equal indexes keep the order they came in. -/
def orderedImages (pages : List (PageRef × Bytes)) : List PageImage :=
  (pages.mergeSort fun a b => a.1.index ≤ b.1.index).map fun page => ⟨page.1.url, page.2⟩

/-- In whatever order pages of increasing indexes come in, the images are in theirs. -/
theorem orderedImages_of_perm {pages listed : List (PageRef × Bytes)} (hperm : pages.Perm listed)
    (hindex : listed.Pairwise fun a b => a.1.index < b.1.index) :
    orderedImages pages = listed.map fun page => ⟨page.1.url, page.2⟩ := by
  have htrans : ∀ a b c : PageRef × Bytes, decide (a.1.index ≤ b.1.index) = true →
      decide (b.1.index ≤ c.1.index) = true → decide (a.1.index ≤ c.1.index) = true :=
    fun a b c hab hbc =>
      decide_eq_true (UInt32.le_trans (of_decide_eq_true hab) (of_decide_eq_true hbc))
  have htotal : ∀ a b : PageRef × Bytes,
      (decide (a.1.index ≤ b.1.index) || decide (b.1.index ≤ a.1.index)) = true := fun a b => by
    simpa using UInt32.le_total a.1.index b.1.index
  have hsorted := List.pairwise_mergeSort htrans htotal pages
  have hone : ∀ a ∈ listed, ∀ b ∈ listed, a.1.index ≤ b.1.index → b.1.index ≤ a.1.index →
      a = b := by
    intro a ha b hb hab hba
    by_contra hne
    have hnodup : (listed.map fun page => page.1.index).Nodup :=
      List.pairwise_map.mpr (hindex.imp fun h => UInt32.ne_of_lt h)
    exact hne (List.inj_on_of_nodup_map hnodup ha hb (UInt32.le_antisymm hab hba))
  have heq : (pages.mergeSort fun a b => decide (a.1.index ≤ b.1.index)) = listed := by
    refine List.Perm.eq_of_pairwise (fun a b ha hb hab hba => ?_) hsorted
      (hindex.imp fun h => by simpa using UInt32.le_of_lt h)
      ((List.mergeSort_perm _ _).trans hperm)
    have ha' : a ∈ listed := hperm.mem_iff.mp ((List.mergeSort_perm _ _).mem_iff.mp ha)
    exact hone a ha' b hb (by simpa using hab) (by simpa using hba)
  rw [orderedImages, heq]

def specFor (manga : Manga) (chapter : Chapter) (pageCount : ℕ) : ChapterSpec where
  seriesTitle := manga.title
  disambiguator := none
  volume := chapter.volume
  number := chapter.number
  info := infoFor manga.title chapter.number chapter.volume (UInt32.ofNat pageCount) manga.direction

/-- `LibraryStoreAdapter::write_chapter` -/
def writeDownload (crates : Crates) (files : Files) (manga : Manga) (chapter : Chapter)
    (pages : List (PageRef × Bytes)) (answers : WriteAnswers) (now : Time) :
    Files × Except DomainError DownloadedChapter :=
  if pages.isEmpty then
    (files, .error (.source s!"chapter {chapter.id.uuid.hyphenated} returned no pages" true))
  else
    match writeChapter crates files (specFor manga chapter (orderedImages pages).length)
      (orderedImages pages) answers with
    | (files, .error e) => (files, .error e.toDomainError)
    | (files, .ok placed) =>
      (files, .ok
        { chapterId := chapter.id, relativePath := placed.relativePath,
          sizeBytes := placed.sizeBytes, checksum := placed.checksum, packagedAt := now })

/-- What makes these images the archive of these bytes under this path. -/
structure Packs (crates : Crates) (manga : Manga) (chapter : Chapter) (answers : WriteAnswers)
    (images : List PageImage) (path : String) (bytes : Bytes) : Prop where
  named : relativePath crates manga.title none chapter.volume chapter.number = .ok path
  resolved : answers.resolved = .ok ()
  staged : answers.staged = .ok ()
  zipped : crates.zip (cbzEntries images (specFor manga chapter images.length).info) = .ok bytes
  written : answers.written = .ok ()
  placed : answers.placed = .ok ()

theorem packChapter_iff_packs {crates : Crates} {manga : Manga} {chapter : Chapter}
    {answers : WriteAnswers} {images : List PageImage} (hsome : images ≠ []) {path : String}
    {bytes : Bytes} :
    packChapter crates (specFor manga chapter images.length) images answers = .ok (path, bytes) ↔
      Packs crates manga chapter answers images path bytes := by
  have hcbz : ∀ info, writeCbz crates images info = .ok bytes ↔
      crates.zip (cbzEntries images info) = .ok bytes := by
    intro info
    rw [writeCbz, if_neg (by simpa using hsome)]
    split
    · next hzip => simp [hzip]
    · next hzip => simp [hzip]
  rw [packChapter_eq_ok, hcbz]
  exact ⟨fun ⟨hnamed, hresolved, hstaged, hzipped, hwritten, hplaced⟩ =>
      ⟨hnamed, hresolved, hstaged, hzipped, hwritten, hplaced⟩,
    fun h => ⟨h.named, h.resolved, h.staged, h.zipped, h.written, h.placed⟩⟩

theorem orderedImages_ne_nil {pages : List (PageRef × Bytes)} (h : pages ≠ []) :
    orderedImages pages ≠ [] := by
  intro hnil
  have hlen := congrArg List.length hnil
  rw [orderedImages, List.length_map, List.length_mergeSort, List.length_nil] at hlen
  exact h (List.length_eq_zero_iff.mp hlen)

/-- Pages that come in are placed in an archive of their images. -/
theorem writeDownload_of_packs {crates : Crates} {manga : Manga} {chapter : Chapter}
    {pages : List (PageRef × Bytes)} {answers : WriteAnswers} (files : Files) (now : Time)
    {path : String} {bytes : Bytes} (hsome : pages ≠ [])
    (h : Packs crates manga chapter answers (orderedImages pages) path bytes) :
    writeDownload crates files manga chapter pages answers now =
      (files.place path bytes,
        .ok ⟨chapter.id, path, bytes.length, checksum crates bytes, now⟩) := by
  have hpack := (packChapter_iff_packs (orderedImages_ne_nil hsome)).mpr h
  rw [writeDownload, if_neg (by simpa using hsome), writeChapter, hpack]

theorem writeDownload_of_not_packs {crates : Crates} {manga : Manga} {chapter : Chapter}
    {pages : List (PageRef × Bytes)} {answers : WriteAnswers} (files : Files) (now : Time)
    (h : ∀ path bytes, ¬ Packs crates manga chapter answers (orderedImages pages) path bytes) :
    ∃ e, writeDownload crates files manga chapter pages answers now = (files, .error e) := by
  rw [writeDownload]
  split
  · exact ⟨_, rfl⟩
  · next hsome =>
    cases hpack : packChapter crates (specFor manga chapter (orderedImages pages).length)
        (orderedImages pages) answers with
    | error e => exact ⟨_, by rw [writeChapter, hpack]⟩
    | ok placed =>
      have himages := orderedImages_ne_nil (by simpa using hsome)
      exact absurd ((packChapter_iff_packs himages).mp hpack) (h placed.1 placed.2)

/-- A download that succeeds has placed one archive of all its pages, under the chapter's name. -/
theorem writeDownload_ok {crates : Crates} {files files' : Files} {manga : Manga}
    {chapter : Chapter} {pages : List (PageRef × Bytes)} {answers : WriteAnswers} {now : Time}
    {download : DownloadedChapter}
    (h : writeDownload crates files manga chapter pages answers now = (files', .ok download)) :
    download.chapterId = chapter.id ∧
      relativePath crates manga.title none chapter.volume chapter.number =
        .ok download.relativePath ∧
      ∃ bytes, writeCbz crates (orderedImages pages)
          (specFor manga chapter (orderedImages pages).length).info = .ok bytes ∧
        files' = files.place download.relativePath bytes ∧
        download.sizeBytes = bytes.length ∧ download.checksum = checksum crates bytes := by
  unfold writeDownload at h
  split at h
  · cases h
  · split at h
    · cases h
    · next hwrite =>
      obtain ⟨hpath, bytes, hbytes, hfiles, hsize, hsum⟩ := writeChapter_ok hwrite
      cases h
      exact ⟨rfl, hpath, bytes, hbytes, hfiles, hsize, hsum⟩

/-- A download that fails leaves every file as it was. -/
theorem writeDownload_error {crates : Crates} {files files' : Files} {manga : Manga}
    {chapter : Chapter} {pages : List (PageRef × Bytes)} {answers : WriteAnswers} {now : Time}
    {e : DomainError}
    (h : writeDownload crates files manga chapter pages answers now = (files', .error e)) :
    files' = files := by
  unfold writeDownload at h
  split at h
  · cases h; rfl
  · split at h
    · next hwrite =>
      cases h
      exact writeChapter_error hwrite
    · cases h

end Packaging
end Nyuka
