import Mathlib.Data.List.Dedup
import Nyuka.Packaging.Paths
import Nyuka.Persistence.Chapters

/-! The library's series, a page at a time: in the order they were added, and as the summaries a
query asks for. -/
namespace Nyuka.Persistence
open Tables Table Paging

inductive MangaSort where
  | title | added | updated | chapters
deriving DecidableEq, Repr

inductive SortDir where
  | asc | desc
deriving DecidableEq, Repr

structure MangaQuery where
  q : Option String
  status : Option MangaStatus
  sourceId : Option SourceId
  sort : MangaSort
  dir : SortDir
deriving DecidableEq, Repr

structure MangaSummary where
  manga : MangaRow
  sourceName : String
  chapterCount : ℕ
  downloadedCount : ℕ
deriving DecidableEq, Repr

/-- What the database's locale decides: whether a title is `ILIKE` a pattern, and the key titles
are sorted by. -/
structure Locale (γ : Type*) where
  ilike : String → String → Bool
  collate : String → γ

def replaceChar (c : Char) (text : List Char) (s : List Char) : List Char :=
  s.flatMap fun d => if d = c then text else [d]

/-- Escapes the wildcards `LIKE` gives meaning to. The backslash is escaped first. -/
def escapeLike (input : List Char) : List Char :=
  replaceChar '_' ['\\', '_'] (replaceChar '%' ['\\', '%'] (replaceChar '\\' ['\\', '\\'] input))

/-- The pattern of the search text, if there is more to it than white space. -/
def searchPattern (q : Option String) : Option String :=
  ((q.map fun t => Text.trimMatches Packaging.isWhitespace t.toList).filter (· ≠ [])).map fun t =>
    String.ofList ('%' :: (escapeLike t ++ ['%']))

section Queries
variable {γ : Type*}

/-- `m.title ILIKE .. AND m.status = .. AND m.source_id = ..`, as far as the query has them. -/
def MangaQuery.admits (query : MangaQuery) (locale : Locale γ) (m : MangaRow) : Bool :=
  (searchPattern query.q).all (locale.ilike m.title) && query.status.all (· == m.status) &&
    query.sourceId.all (· == m.sourceId)

/-- The row of a series in the CTE, with the source it is joined with. -/
def summarize (db : Database) (m : MangaRow) (s : InstalledSource) : MangaSummary :=
  let chapters := chaptersOf db.chapters m.id
  { manga := m
    sourceName := s.name
    chapterCount := (chapters.map fun c => c.id).dedup.length
    downloadedCount := (chapters.filterMap fun c =>
      (db.downloads.get c.id).map DownloadedChapter.chapterId).dedup.length }

/-- The CTE: the series that the query admits, each joined with its source. -/
def summary (locale : Locale γ) (db : Database) (query : MangaQuery) : List MangaSummary :=
  (db.mangas.rows.filter (query.admits locale)).filterMap fun m =>
    (db.sources.rows.find? fun s => s.id == m.sourceId).map (summarize db m)

end Queries

section Keyset
variable {ρ κ : Type*} [LinearOrder κ] (dir : SortDir) (column : ρ → κ) (id : ρ → Uuid)

/-- `(sort_column, id)` of the row with an id. No row reads as NULLs. -/
def keyAt (rows : List ρ) (last : Uuid) : Option κ × Option ℕ :=
  match rows.find? fun r => id r == last with
  | some r => (some (column r), some (id r).toNat)
  | none => (none, none)

/-- `(sort_column, id) > (SELECT ..)` ascending, and `<` descending. -/
def behind (rows : List ρ) (last : Uuid) (r : ρ) : Bool :=
  match dir with
  | .asc => rowLt (keyAt column id rows last) (some (column r), some (id r).toNat) == some true
  | .desc => rowLt (some (column r), some (id r).toNat) (keyAt column id rows last) == some true

/-- `ORDER BY sort_column dir, id dir` -/
def sorted (rows : List ρ) : List ρ :=
  match dir with
  | .asc => orderBy (fun r => toLex (column r, (id r).toNat)) rows
  | .desc => orderBy (fun r => OrderDual.toDual (toLex (column r, (id r).toNat))) rows

/-- The declared order of two rows. -/
def Before (a b : ρ) : Prop :=
  match dir with
  | .asc => toLex (column a, (id a).toNat) < toLex (column b, (id b).toNat)
  | .desc => toLex (column b, (id b).toNat) < toLex (column a, (id a).toNat)

/-- One row more than a page, from behind the cursor's row on. -/
def selectSorted (rows : List ρ) (after : Option Uuid) : List ρ :=
  let candidates := match after with
    | some last => rows.filter (behind dir column id rows last)
    | none => rows
  (sorted dir column id candidates).take (pageSize + 1)

end Keyset

def listManga (db : Database) (cursor : Option Cursor) :
    Except DomainError (Page MangaRow Cursor) := do
  let after ← parseCursor "manga" cursor
  let rows := selectSorted .desc MangaRow.createdAt (fun m => m.id.uuid) db.mangas.rows after
  return pageOf pageSize (fun m => .of m.id.uuid) rows

def listMangaSummaries {γ : Type*} [LinearOrder γ] (locale : Locale γ) (db : Database)
    (query : MangaQuery) (cursor : Option Cursor) :
    Except DomainError (Page MangaSummary Cursor) := do
  let after ← parseCursor "manga" cursor
  (searchPattern query.q).forM bindText
  let summary := summary locale db query
  let id := fun s : MangaSummary => s.manga.id.uuid
  let rows := match query.sort with
    | .title => selectSorted query.dir (fun s => locale.collate s.manga.title) id summary after
    | .added => selectSorted query.dir (fun s => s.manga.createdAt) id summary after
    | .updated => selectSorted query.dir (fun s => s.manga.updatedAt) id summary after
    | .chapters => selectSorted query.dir MangaSummary.chapterCount id summary after
  return pageOf pageSize (fun s => .of s.manga.id.uuid) rows

section Sorted
variable {ρ κ : Type*} {dir : SortDir} {column : ρ → κ} {id : ρ → Uuid} {rows : List ρ}

theorem find_last (hid : rows.Pairwise fun a b => id a ≠ id b) {r : ρ} (hr : r ∈ rows) :
    keyAt column id rows (id r) = (some (column r), some (id r).toNat) := by
  cases hfind : rows.find? fun r' => id r' == id r with
  | none => simpa using List.find?_eq_none.mp hfind r hr
  | some r' =>
    have hsame : r' = r := by
      by_contra hne
      have hsymm : Std.Symm fun a b : ρ => id a ≠ id b := ⟨fun _ _ h => h.symm⟩
      exact hid.forall (List.mem_of_find?_eq_some hfind) hr hne
        (by simpa using List.find?_some hfind)
    rw [keyAt, hfind, hsame]

theorem toNat_ne {u v : Uuid} (h : u ≠ v) : u.toNat ≠ v.toNat := fun heq =>
  h (BitVec.eq_of_toNat_eq heq)

/-- The rows behind a row's cursor are those that come after it. -/
theorem filter_behind_eq [LinearOrder κ] (dir : SortDir) (column : ρ → κ)
    (hid : rows.Pairwise fun a b => id a ≠ id b) {r : ρ}
    (hr : r ∈ rows) (p : ρ → Bool) (hp : ∀ r', p r' = true ↔ Before dir column id r r') :
    rows.filter (behind dir column id rows (id r)) = rows.filter p := by
  refine List.filter_congr fun r' _ => ?_
  rw [Bool.eq_iff_iff, hp]
  cases dir with
  | asc => simp only [behind, find_last hid hr, rowLt_some, Before, beq_iff_eq, Option.some.injEq,
      decide_eq_true_eq]
  | desc => simp only [behind, find_last hid hr, rowLt_some, Before, beq_iff_eq, Option.some.injEq,
      decide_eq_true_eq]

/-- Following the cursors from row to row gives all the rows in the declared order. -/
theorem complete_sorted [LinearOrder κ] {fetch : Option Cursor → Except DomainError (Page ρ Cursor)}
    (hid : rows.Pairwise fun a b => id a ≠ id b)
    (hfetch : ∀ cursor after, parseCursor "manga" cursor = .ok after → fetch cursor =
      .ok (pageOf pageSize (fun r => .of (id r)) (selectSorted dir column id rows after))) :
    Complete pageSize fetch rows (Before dir column id) := by
  have hfirst := hfetch none none rfl
  have hnext (r : ρ) := hfetch (some (.of (id r))) (some (id r)) (parseCursor_of "manga" (id r))
  cases dir with
  | asc =>
    refine complete_ranked (fun r => toLex (column r, (id r).toNat)) (by decide)
      (hid.imp fun h heq => ?_) hfirst fun r hr => ?_
    · exact toNat_ne h (congrArg (fun k => (ofLex k).2) heq)
    · have hbehind := filter_behind_eq .asc column hid hr
        (fun r' => toLex (column r, (id r).toNat) < toLex (column r', (id r').toNat))
        fun r' => decide_eq_true_iff
      simp only [hnext, selectSorted, hbehind, sorted]
  | desc =>
    refine complete_ranked (fun r => OrderDual.toDual (toLex (column r, (id r).toNat)))
      (by decide) (hid.imp fun h heq => ?_) hfirst fun r hr => ?_
    · exact toNat_ne h (congrArg (fun k => (ofLex (OrderDual.ofDual k)).2) heq)
    · have hbehind := filter_behind_eq .desc column hid hr
        (fun r' => OrderDual.toDual (toLex (column r, (id r).toNat)) <
          OrderDual.toDual (toLex (column r', (id r').toNat)))
        fun r' => decide_eq_true_iff.trans OrderDual.toDual_lt_toDual
      simp only [hnext, selectSorted, hbehind, sorted]

end Sorted

section Views
variable {γ : Type*} (locale : Locale γ) (query : MangaQuery)

/-- The order a query asks for. -/
def MangaQuery.before [LinearOrder γ] : MangaSummary → MangaSummary → Prop :=
  let id := fun s : MangaSummary => s.manga.id.uuid
  match query.sort with
  | .title => Before query.dir (fun s => locale.collate s.manga.title) id
  | .added => Before query.dir (fun s => s.manga.createdAt) id
  | .updated => Before query.dir (fun s => s.manga.updatedAt) id
  | .chapters => Before query.dir MangaSummary.chapterCount id

theorem ids_distinct (mangas : MangaTable) :
    mangas.rows.Pairwise fun a b => a.id.uuid ≠ b.id.uuid :=
  (mangas.unique true).imp fun {a _} h heq =>
    h a.id rfl (congrArg some (congrArg MangaId.mk heq.symm))

/-- Each series is joined with its source, so none is lost. -/
theorem summary_mangas (db : LinkedDatabase) :
    (summary locale db.toDatabase query).map MangaSummary.manga =
      db.mangas.rows.filter (query.admits locale) := by
  have hsource : ∀ m ∈ db.mangas.rows, ∃ s, db.sources.rows.find? (fun s => s.id == m.sourceId) =
      some s := by
    intro m hm
    obtain ⟨p, hp, hkey⟩ := db.linked (.manga m) hm _ rfl
    obtain ⟨s, rfl, hs⟩ := Row.key_eq_source.mp hkey
    rw [← Option.isSome_iff_exists, List.find?_isSome]
    exact ⟨s, hp, by simpa using hs⟩
  have hjoined : ∀ ms : List MangaRow, (∀ m ∈ ms, m ∈ db.mangas.rows) →
      (ms.filterMap fun m => (db.sources.rows.find? fun s => s.id == m.sourceId).map
        (summarize db.toDatabase m)).map MangaSummary.manga = ms := by
    intro ms hms
    induction ms with
    | nil => rfl
    | cons m ms ih =>
      obtain ⟨s, hs⟩ := hsource m (hms m List.mem_cons_self)
      rw [List.filterMap_cons, hs, Option.map_some, List.map_cons,
        ih fun m' hm' => hms m' (List.mem_cons_of_mem _ hm')]
      rfl
  exact hjoined _ fun m hm => List.mem_of_mem_filter hm

theorem summary_ids_distinct (db : LinkedDatabase) :
    (summary locale db.toDatabase query).Pairwise fun a b =>
      a.manga.id.uuid ≠ b.manga.id.uuid := by
  have hids := (ids_distinct db.mangas).filter (query.admits locale)
  rw [← summary_mangas locale query db] at hids
  exact (List.pairwise_map (R := fun a b : MangaRow => a.id.uuid ≠ b.id.uuid)).mp hids

theorem listManga_complete (db : Database) :
    Complete pageSize (listManga db) db.mangas.rows
      (Before .desc MangaRow.createdAt fun m => m.id.uuid) := by
  refine complete_sorted (ids_distinct db.mangas) fun cursor after hcursor => ?_
  simp only [listManga, hcursor]
  rfl

/-- The search text can be bound. -/
def MangaQuery.Holdable (query : MangaQuery) : Prop := (searchPattern query.q).all holdable = true

instance (query : MangaQuery) : Decidable query.Holdable := inferInstanceAs (Decidable (_ = true))

variable {query}

theorem bind_pattern (h : query.Holdable) :
    (searchPattern query.q).forM bindText = .ok () := by
  unfold MangaQuery.Holdable at h
  cases hpattern : searchPattern query.q with
  | none => rfl
  | some pattern =>
    rw [hpattern, Option.all_some] at h
    exact bindText_of_holdable h

theorem listMangaSummaries_ok [LinearOrder γ] {db : Database} {cursor : Option Cursor}
    {page : Page MangaSummary Cursor} (h : listMangaSummaries locale db query cursor = .ok page) :
    query.Holdable := by
  obtain ⟨_, -, h⟩ := Results.bind_eq_ok.mp h
  obtain ⟨_, hbound, -⟩ := Results.bind_eq_ok.mp h
  unfold MangaQuery.Holdable
  cases hpattern : searchPattern query.q with
  | none => rfl
  | some pattern =>
    rw [hpattern] at hbound
    exact bindText_eq_ok.mp hbound

theorem listMangaSummaries_complete [LinearOrder γ] (db : LinkedDatabase) (h : query.Holdable) :
    Complete pageSize (listMangaSummaries locale db.toDatabase query)
      (summary locale db.toDatabase query) (query.before locale) := by
  have hids := summary_ids_distinct locale query db
  unfold MangaQuery.before
  cases hsort : query.sort with
  | title | added | updated | chapters =>
    refine complete_sorted hids fun cursor after hcursor => ?_
    simp only [listMangaSummaries, hcursor, bind_pattern h, hsort]
    rfl

end Views

section Counts
variable {db : Database}

/-- A summary tells the name of the series' source, and how many chapters the series has and how
many of them are downloaded. -/
structure MangaSummary.Tells (db : Database) (s : MangaSummary) : Prop where
  source : ∃ source ∈ db.sources.rows, source.id = s.manga.sourceId ∧ source.name = s.sourceName
  chapters : s.chapterCount = db.chapters.rows.countP fun c => c.mangaId == s.manga.id
  downloaded : s.downloadedCount = db.chapters.rows.countP fun c =>
    (db.downloads.get c.id).isSome && c.mangaId == s.manga.id

/-- Distinct chapters have distinct ids, so counting the ids counts the chapters. -/
theorem dedup_ids (chapters : ChapterTable) (p : ChapterRow → Bool) :
    ((chapters.rows.filter p).map fun c => c.id).dedup =
      (chapters.rows.filter p).map fun c => c.id := by
  refine List.Nodup.dedup (List.pairwise_map.mpr (List.Pairwise.filter p ?_))
  exact (chapters.unique true).imp fun {a _} h heq => h a.id rfl (congrArg some heq.symm)

/-- A chapter is joined with its own download. -/
theorem downloaded_ids (db : Database) (chapters : List ChapterRow) :
    (chapters.filterMap fun c => (db.downloads.get c.id).map DownloadedChapter.chapterId) =
      (chapters.filter fun c => (db.downloads.get c.id).isSome).map fun c => c.id := by
  induction chapters with
  | nil => rfl
  | cons c chapters ih =>
    cases hget : db.downloads.get c.id with
    | none => simp [hget, ih]
    | some d => simp [hget, ih, (get_eq_some_iff.mp hget).2]

theorem summarize_tells {m : MangaRow} {source : InstalledSource}
    (hsource : source ∈ db.sources.rows) (hid : source.id = m.sourceId) :
    (summarize db m source).Tells db where
  source := ⟨source, hsource, hid, rfl⟩
  chapters := by
    change (((chaptersOf db.chapters m.id).map fun c => c.id).dedup).length = _
    rw [chaptersOf, dedup_ids, List.length_map, List.countP_eq_length_filter]
    rfl
  downloaded := by
    change (((chaptersOf db.chapters m.id).filterMap fun c =>
      (db.downloads.get c.id).map DownloadedChapter.chapterId).dedup).length = _
    rw [downloaded_ids, chaptersOf, List.filter_filter, dedup_ids, List.length_map,
      List.countP_eq_length_filter]
    rfl

theorem summary_tells {γ : Type*} {locale : Locale γ} {query : MangaQuery} {s : MangaSummary}
    (h : s ∈ summary locale db query) : s.Tells db := by
  obtain ⟨m, -, hjoin⟩ := List.mem_filterMap.mp h
  obtain ⟨source, hfind, rfl⟩ := Option.map_eq_some_iff.mp hjoin
  exact summarize_tells (List.mem_of_find?_eq_some hfind) (by simpa using List.find?_some hfind)

end Counts

end Nyuka.Persistence
