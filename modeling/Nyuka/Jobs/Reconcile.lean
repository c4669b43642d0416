import Nyuka.Persistence.Chapters

/-! The `reconcile_library` pass over one series: it pages through the chapters, and drops the
download records whose file is gone. -/
namespace Nyuka.Jobs
open Tables Table Paging Persistence

/-- What one reconciliation pass found. -/
structure Reconciled where
  checked : ℕ
  missing : ℕ
  forgotten : ℕ
deriving DecidableEq, Repr

/-- Returns the chapter's id when its packaged file is gone. `present` is the library's answer
to whether there is a file at a path. -/
def missingDownload (present : String → Except DomainError Bool) (downloads : DownloadTable)
    (chapter : Chapter) (report : Reconciled) :
    Except DomainError (Option ChapterId × Reconciled) :=
  match downloads.get chapter.id with
  | none => return (none, report)
  | some download => do
    let report := { report with checked := report.checked + 1 }
    if ← present download.relativePath then return (none, report)
    return (some chapter.id, { report with missing := report.missing + 1 })

/-- The chapters of a page whose file is gone. -/
def missingDownloads (present : String → Except DomainError Bool) (downloads : DownloadTable) :
    List Chapter → Reconciled → Except DomainError (List ChapterId × Reconciled)
  | [], report => return ([], report)
  | chapter :: rest, report => do
    let (id, report) ← missingDownload present downloads chapter report
    let (ids, report) ← missingDownloads present downloads rest report
    return (id.toList ++ ids, report)

/-- `DELETE FROM downloaded_chapter WHERE chapter_id = ANY($1)` and the rows it affected. -/
def forgetDownloads (downloads : DownloadTable) (missing : List ChapterId) : DownloadTable × ℕ :=
  (downloads.deleteWhere fun d => missing.contains d.chapterId,
    (downloads.rows.filter fun d => missing.contains d.chapterId).length)

/-- The loop over the pages, up to `fuel` of them. -/
def reconcileManga (present : String → Except DomainError Bool) (manga : MangaId) :
    ℕ → Option Cursor → Database → Reconciled →
    Except DomainError (Option (Database × Reconciled))
  | 0, _, _, _ => return none
  | fuel + 1, cursor, db, report => do
    let page ← listChapters db manga cursor
    let (missing, report) ← missingDownloads present db.downloads page.items report
    let (downloads, affected) := forgetDownloads db.downloads missing
    let db := { db with downloads }
    let report := { report with forgotten := report.forgotten + affected }
    match page.next with
    | some next => reconcileManga present manga fuel (some next) db report
    | none => return some (db, report)

section Visits
variable {manga : MangaId}

/-- The record of one of these chapters, whose file is gone. -/
def Stale (present : String → Bool) (chapters : List Chapter) (d : DownloadedChapter) : Bool :=
  chapters.any (fun c => c.id == d.chapterId) && !present d.relativePath

@[simp]
theorem stale_append (present : String → Bool) (cs cs' : List Chapter) (d : DownloadedChapter) :
    Stale present (cs ++ cs') d = (Stale present cs d || Stale present cs' d) := by
  simp only [Stale, List.any_append]
  cases present d.relativePath <;> simp

@[simp] theorem stale_singleton (present : String → Bool) (c : Chapter) (d : DownloadedChapter) :
    Stale present [c] d = (c.id == d.chapterId && !present d.relativePath) := by
  simp [Stale]

/-- A chapter's record is the only one that its id makes stale. -/
theorem stale_record (present : String → Bool) {downloads : DownloadTable} {c : Chapter}
    {row d : DownloadedChapter} (hrow : downloads.get c.id = some row) (hd : d ∈ downloads.rows) :
    Stale present [c] d = (c.id == d.chapterId && !present row.relativePath) := by
  obtain ⟨hmem, hid⟩ := get_eq_some_iff.mp hrow
  rw [stale_singleton]
  by_cases h : c.id = d.chapterId
  · obtain rfl : row = d := key_inj hmem hd (hid.trans h)
    rfl
  · rw [beq_eq_false_iff_ne.mpr h, Bool.false_and, Bool.false_and]

private theorem missingDownloads_ok (present : String → Bool) (downloads : DownloadTable)
    (chapters : List Chapter) (report : Reconciled) :
    ∃ missing report', missingDownloads (fun path => .ok (present path)) downloads chapters report =
        .ok (missing, report') ∧
      ∀ d ∈ downloads.rows, missing.contains d.chapterId = Stale present chapters d := by
  induction chapters generalizing report with
  | nil => exact ⟨[], report, rfl, fun d _ => rfl⟩
  | cons c rest ih =>
    cases hrow : downloads.get c.id with
    | none =>
      obtain ⟨missing, report', hok, hmissing⟩ := ih report
      refine ⟨missing, report', ?_, fun d hd => ?_⟩
      · simp [missingDownloads, missingDownload, hrow, hok, bind, Except.bind, pure, Except.pure]
      · have hne : (c.id == d.chapterId) = false := by
          simpa using fun h : c.id = d.chapterId => get_eq_none_iff.mp hrow d hd h.symm
        rw [hmissing d hd, ← List.singleton_append, stale_append, stale_singleton, hne]
        rfl
    | some row =>
      cases hpresent : present row.relativePath with
      | true =>
        obtain ⟨missing, report', hok, hmissing⟩ :=
          ih { report with checked := report.checked + 1 }
        refine ⟨missing, report', ?_, fun d hd => ?_⟩
        · simp [missingDownloads, missingDownload, hrow, hpresent, hok, bind, Except.bind, pure,
            Except.pure]
        · rw [hmissing d hd, ← List.singleton_append, stale_append, stale_record present hrow hd,
            hpresent, Bool.not_true, Bool.and_false, Bool.false_or]
      | false =>
        obtain ⟨missing, report', hok, hmissing⟩ := ih
          { report with checked := report.checked + 1, missing := report.missing + 1 }
        refine ⟨c.id :: missing, report', ?_, fun d hd => ?_⟩
        · simp [missingDownloads, missingDownload, hrow, hpresent, hok, bind, Except.bind, pure,
            Except.pure]
        · rw [List.contains_cons, hmissing d hd, ← List.singleton_append, stale_append,
            stale_record present hrow hd, hpresent, Bool.not_false, Bool.and_true,
            BEq.comm]

/-- One round of the loop, when every answer of the library is one. -/
theorem reconcileManga_succ (present : String → Bool) (db : Database) {cursor : Option Cursor}
    {page : Page Chapter Cursor} (hpage : listChapters db manga cursor = .ok page) (fuel : ℕ)
    (report : Reconciled) :
    ∃ report', reconcileManga (fun path => .ok (present path)) manga (fuel + 1) cursor db report =
      match page.next with
      | some next => reconcileManga (fun path => .ok (present path)) manga fuel (some next)
          { db with downloads := db.downloads.deleteWhere (Stale present page.items) } report'
      | none => .ok (some
          ({ db with downloads := db.downloads.deleteWhere (Stale present page.items) },
            report')) := by
  obtain ⟨missing, report', hok, hmissing⟩ :=
    missingDownloads_ok present db.downloads page.items report
  refine ⟨{ report' with forgotten := report'.forgotten +
    (forgetDownloads db.downloads missing).2 }, ?_⟩
  have hdelete : (forgetDownloads db.downloads missing).1 =
      db.downloads.deleteWhere (Stale present page.items) := deleteWhere_congr hmissing
  simp only [reconcileManga, hpage, hok, bind, Except.bind, ← hdelete]
  rfl

/-- The loop drops what is stale on the pages it walks through. -/
theorem reconcileManga_walk (present : String → Bool) {db : Database} {cursor : Option Cursor}
    {pages : List (List Chapter)} (h : Walk (listChapters db manga) cursor pages)
    (downloads : DownloadTable) (report : Reconciled) :
    ∃ report', reconcileManga (fun path => .ok (present path)) manga pages.length cursor
        { db with downloads } report =
      .ok (some ({ db with downloads := downloads.deleteWhere (Stale present pages.flatten) },
        report')) := by
  induction h generalizing downloads report with
  | last hpage hnext =>
    obtain ⟨report', hround⟩ := reconcileManga_succ present
      { db with downloads } hpage 0 report
    exact ⟨report', by simpa [hnext] using hround⟩
  | @more cursor page k rest hpage hnext _ ih =>
    obtain ⟨report₁, hround⟩ := reconcileManga_succ present
      { db with downloads } hpage rest.length report
    obtain ⟨report', hrest⟩ :=
      ih (downloads.deleteWhere (Stale present page.items)) report₁
    refine ⟨report', ?_⟩
    rw [List.length_cons, hround, hnext]
    simp only [hrest, deleteWhere_deleteWhere]
    congr 4
    exact deleteWhere_congr fun d _ => by rw [List.flatten_cons, stale_append]

/-- Following the cursors gives every chapter once in the declared order, with the summaries in
the same pages, and the pass drops whatever record of the series is stale. -/
def PagesComplete (db : Database) (manga : MangaId) : Prop :=
  ∃ pages, Walk (listChapters db manga) none pages ∧
    pages.flatten = (declared db.chapters manga).map (·.toChapter) ∧
    (∃ summaries, Walk (listChapterSummaries db manga) none summaries ∧
      summaries.map (List.map ChapterSummary.chapter) = pages) ∧
    ∀ present : String → Bool, ∃ fuel report,
      reconcileManga (fun path => .ok (present path)) manga fuel none db ⟨0, 0, 0⟩ =
        .ok (some ({ db with
          downloads := db.downloads.deleteWhere
            (Stale present ((chaptersOf db.chapters manga).map (·.toChapter))) }, report))

private theorem stale_perm (present : String → Bool) {cs cs' : List Chapter} (h : cs.Perm cs')
    (d : DownloadedChapter) : Stale present cs d = Stale present cs' d := by
  rw [Stale, Stale, h.any_eq]

theorem pagesComplete_iff (db : Database) (manga : MangaId) :
    PagesComplete db manga ↔ (chaptersOf db.chapters manga).length ≤ pageSize ∨
      ∀ c ∈ chaptersOf db.chapters manga, c.number ≠ none := by
  constructor
  · rintro ⟨pages, hwalk, hall, -, -⟩
    by_contra hcond
    push Not at hcond
    exact listChapters_misses hcond.1 hcond.2 hwalk hall
  · intro h
    have hwalk := listChapters_walk h
    refine ⟨_, hwalk, flatten_chunks _ _, hwalk.map (listChapters_summaries db manga),
      fun present => ?_⟩
    obtain ⟨report, hrun⟩ := reconcileManga_walk present hwalk db.downloads ⟨0, 0, 0⟩
    refine ⟨_, report, hrun.trans ?_⟩
    rw [flatten_chunks]
    congr 4
    exact deleteWhere_congr fun d _ =>
      stale_perm present ((orderBy_perm chapterRank _).map _) d

def untitled : MangaRow :=
  ⟨⟨⟨3⟩, LinkedDatabase.guya.id, "series", "Series", .unknown⟩, .ongoing, 0, 0⟩

def extra (i : ℕ) : ChapterRow := ⟨⟨⟨BitVec.ofNat 128 i⟩, untitled.id, toString i, none, none⟩, 0⟩

theorem untitled_free : (Table.empty : MangaTable).Free untitled := by
  rintro i r ⟨⟩

private theorem extras_unique (i : Bool) : UniqueOn
    (keyedByTwo (fun c : ChapterRow => c.id) (fun c : ChapterRow => (c.mangaId, c.externalKey)) i)
    ((List.range 51).map extra) := by
  cases i with
  | true => exact .of_nodup (by decide +kernel)
  | false => exact .of_nodup (by decide +kernel)

/-- A series of one chapter more than a page, none of which has a number. -/
def unnumbered : Database :=
  { LinkedDatabase.oneSource.toDatabase with
    mangas := Table.empty.insert untitled untitled_free
    chapters := { rows := (List.range 51).map extra, unique := extras_unique } }

theorem unnumbered_misses : ¬ ∀ (db : Database) (manga : MangaId), PagesComplete db manga := by
  intro h
  obtain ⟨pages, hwalk, hall, -, -⟩ := h unnumbered untitled.id
  exact listChapters_misses (by decide +kernel) ⟨extra 0, by decide +kernel⟩ hwalk hall

end Visits
end Nyuka.Jobs
