import Mathlib.Data.Int.ConditionallyCompleteOrder
import Mathlib.Order.WithBot
import Nyuka.Foundation.Paging
import Nyuka.Persistence.Removal

/-! The chapters of a series: inserting those a source lists, and listing them a page at a
time. -/
namespace Nyuka.Persistence
open Tables Table Paging

/-- A chapter as a source lists it. -/
structure SourceChapter where
  key : ExternalKey
  number : Option Binary32
  volume : Option Binary32
deriving DecidableEq, Repr

def SourceChapter.row (c : SourceChapter) (manga : MangaId) (id : ChapterId) (now : Time) :
    ChapterRow where
  id := id
  mangaId := manga
  externalKey := c.key
  number := c.number
  volume := c.volume
  createdAt := now

/-- Whether the series has a chapter under the source's key. -/
def hasChapter (chapters : ChapterTable) (manga : MangaId) (key : ExternalKey) : Bool :=
  chapters.rows.any fun c => c.mangaId == manga && c.externalKey == key

/-- `INSERT INTO chapter .. ON CONFLICT (manga_id, external_key) DO NOTHING RETURNING id`. The
ids returned are those of the rows that were inserted. -/
def upsertChapters (manga : MangaId) (now : Time) : List SourceChapter → (ℕ → ChapterId) →
    ChapterTable → Except DomainError (ChapterTable × List ChapterId)
  | [], _, chapters => .ok (chapters, [])
  | c :: rest, draw, chapters =>
    if hasChapter chapters manga c.key then
      upsertChapters manga now rest (fun n => draw (n + 1)) chapters
    else if h : chapters.Free (c.row manga (draw 0) now) then do
      let (chapters, ids) ← upsertChapters manga now rest (fun n => draw (n + 1))
        (chapters.insert (c.row manga (draw 0) now) h)
      return (chapters, draw 0 :: ids)
    else .error (.storage "duplicate key value violates unique constraint")

/-- Chapters that are all there already are not inserted again. -/
theorem upsertChapters_present {manga : MangaId} {now : Time} {listed : List SourceChapter}
    {draw : ℕ → ChapterId} {chapters : ChapterTable}
    (h : ∀ c ∈ listed, hasChapter chapters manga c.key = true) :
    upsertChapters manga now listed draw chapters = .ok (chapters, []) := by
  induction listed generalizing draw with
  | nil => rfl
  | cons c rest ih =>
    rw [upsertChapters, if_pos (h c List.mem_cons_self)]
    exact ih fun c' hc' => h c' (List.mem_cons_of_mem _ hc')

/-- Default page size for cursor-paginated reads. -/
def pageSize : ℕ := 50

structure Cursor where
  text : String
deriving DecidableEq, Repr

def Cursor.of (id : Uuid) : Cursor := ⟨id.hyphenated⟩

def parseCursor (what : String) : Option Cursor → Except DomainError (Option Uuid)
  | none => .ok none
  | some cursor =>
    match Uuid.parse cursor.text with
    | some id => .ok (some id)
    | none => .error (.invalid s!"cursor is not a {what} id")

@[simp] theorem parseCursor_of (what : String) (id : Uuid) :
    parseCursor what (some (.of id)) = .ok (some id) := by
  simp [parseCursor, Cursor.of, Uuid.parse_hyphenated]

structure ChapterSummary where
  chapter : Chapter
  downloaded : Bool
  sizeBytes : Option ℕ
deriving DecidableEq, Repr

/-- What `real` columns are compared by: both zeros are equal, and NaN is above all numbers. -/
def realOrder (x : Binary32) : ℤ :=
  if x.isNan then 2 ^ 31 else if x.isNegative then -x.magnitude else x.magnitude

/-- `(number, id)` -/
def chapterKey (c : ChapterRow) : Option ℤ × Option ℕ :=
  (c.number.map realOrder, some c.id.uuid.toNat)

/-- `(SELECT COALESCE(number, 0), id FROM chapter WHERE id = $2)`. No row reads as NULLs. -/
def chapterKeyAt (chapters : ChapterTable) (id : Uuid) : Option ℤ × Option ℕ :=
  match chapters.rows.find? fun c => c.id.uuid == id with
  | some c => (some (realOrder (c.number.getD 0)), some c.id.uuid.toNat)
  | none => (none, none)

/-- `ORDER BY number DESC NULLS LAST, id DESC` -/
def chapterRank (c : ChapterRow) : WithTop ℤ ×ₗ ℤ :=
  toLex (match c.number with
    | some x => ((-realOrder x : ℤ) : WithTop ℤ)
    | none => ⊤, -(c.id.uuid.toNat : ℤ))

def chaptersOf (chapters : ChapterTable) (manga : MangaId) : List ChapterRow :=
  chapters.rows.filter fun c => c.mangaId == manga

/-- The rows of both chapter lists: one more than a page, from behind the cursor's row on. -/
def selectChapters (chapters : ChapterTable) (manga : MangaId) (after : Option Uuid) :
    List ChapterRow :=
  let rows := match after with
    | some id => (chaptersOf chapters manga).filter fun c =>
        rowLt (chapterKey c) (chapterKeyAt chapters id) == some true
    | none => chaptersOf chapters manga
  (orderBy chapterRank rows).take (pageSize + 1)

def listChapters (db : Database) (manga : MangaId) (cursor : Option Cursor) :
    Except DomainError (Page Chapter Cursor) := do
  let after ← parseCursor "chapter" cursor
  let rows := selectChapters db.chapters manga after
  return pageOf pageSize (fun c => .of c.id.uuid) (rows.map (·.toChapter))

/-- A chapter with its download, from the left join with the downloads. -/
def chapterSummary (downloads : DownloadTable) (c : ChapterRow) : ChapterSummary :=
  let size := (downloads.get c.id).map DownloadedChapter.sizeBytes
  { chapter := c.toChapter, downloaded := size.isSome, sizeBytes := size }

def listChapterSummaries (db : Database) (manga : MangaId) (cursor : Option Cursor) :
    Except DomainError (Page ChapterSummary Cursor) := do
  let after ← parseCursor "chapter" cursor
  let rows := selectChapters db.chapters manga after
  return pageOf pageSize (fun s => .of s.chapter.id.uuid) (rows.map (chapterSummary db.downloads))

section Selected
variable {chapters : ChapterTable} {manga : MangaId}

/-- The chapters of a series in the declared order. -/
def declared (chapters : ChapterTable) (manga : MangaId) : List ChapterRow :=
  orderBy chapterRank (chaptersOf chapters manga)

theorem ranked_chaptersOf (chapters : ChapterTable) (manga : MangaId) :
    Ranked chapterRank (chaptersOf chapters manga) := by
  refine (chapters.unique true).filter _ |>.imp fun {a b} h heq => ?_
  have hid : a.id = b.id := by
    simp only [chapterRank, toLex_inj, Prod.mk.injEq, neg_inj, Nat.cast_inj] at heq
    obtain ⟨⟨⟨ida⟩, _⟩, _⟩ := a
    obtain ⟨⟨⟨idb⟩, _⟩, _⟩ := b
    exact congrArg ChapterId.mk (BitVec.eq_of_toNat_eq heq.2)
  exact h a.id rfl (by rw [hid]; rfl)

private theorem find_chapter {c : ChapterRow} (hc : c ∈ chapters.rows) :
    (chapters.rows.find? fun c' => c'.id.uuid == c.id.uuid) = some c := by
  cases hfind : chapters.rows.find? fun c' => c'.id.uuid == c.id.uuid with
  | none => simpa using List.find?_eq_none.mp hfind c hc
  | some c' =>
    have hid : c'.id = c.id := by
      have := List.find?_some hfind
      rw [beq_iff_eq] at this
      exact congrArg ChapterId.mk this
    rw [primary_inj (List.mem_of_find?_eq_some hfind) hc hid]

private theorem chapterKeyAt_eq {c : ChapterRow} (hc : c ∈ chapters.rows)
    (hnumber : c.number ≠ none) :
    chapterKeyAt chapters c.id.uuid = chapterKey c := by
  obtain ⟨x, hx⟩ := Option.ne_none_iff_exists'.mp hnumber
  rw [chapterKeyAt, find_chapter hc]
  simp [chapterKey, hx]

/-- Among chapters with numbers, those behind a cursor's row are those that rank behind it. -/
theorem behind_iff {r c : ChapterRow} (hr : r ∈ chapters.rows) (hrn : r.number ≠ none)
    (hcn : c.number ≠ none) :
    (rowLt (chapterKey c) (chapterKeyAt chapters r.id.uuid) == some true) =
      decide (chapterRank r < chapterRank c) := by
  obtain ⟨x, hx⟩ := Option.ne_none_iff_exists'.mp hrn
  obtain ⟨y, hy⟩ := Option.ne_none_iff_exists'.mp hcn
  rw [chapterKeyAt_eq hr hrn]
  simp only [chapterKey, hx, hy, Option.map_some, rowLt_some, Bool.beq_eq_decide_eq,
    Option.some.injEq, decide_eq_true_eq, chapterRank, Prod.Lex.toLex_lt_toLex,
    WithTop.coe_lt_coe, WithTop.coe_inj, decide_eq_decide]
  omega

/-- A row without a number is behind no cursor. -/
theorem number_ne_none_of_behind {c : ChapterRow} {key : Option ℤ × Option ℕ}
    (h : (rowLt (chapterKey c) key == some true) = true) : c.number ≠ none := by
  intro hnone
  simp [chapterKey, hnone, rowLt_null] at h

theorem select_first (chapters : ChapterTable) (manga : MangaId) :
    selectChapters chapters manga none = (declared chapters manga).take (pageSize + 1) := rfl

/-- With numbers throughout, the rows behind a chapter are those that stand behind it. -/
theorem select_behind (hnumbered : ∀ c ∈ chaptersOf chapters manga, c.number ≠ none)
    {pre suf : List ChapterRow} {r : ChapterRow}
    (hsplit : declared chapters manga = pre ++ r :: suf) :
    selectChapters chapters manga (some r.id.uuid) = suf.take (pageSize + 1) := by
  have hr : r ∈ chaptersOf chapters manga := by
    have hmem : r ∈ declared chapters manga := by simp [hsplit]
    exact mem_orderBy.mp hmem
  have hrow : r ∈ chapters.rows := List.mem_of_mem_filter hr
  have hbehind : ((chaptersOf chapters manga).filter fun c =>
      rowLt (chapterKey c) (chapterKeyAt chapters r.id.uuid) == some true) =
      (chaptersOf chapters manga).filter fun c => chapterRank r < chapterRank c :=
    List.filter_congr fun c hc => behind_iff hrow (hnumbered r hr) (hnumbered c hc)
  simp only [selectChapters, hbehind]
  rw [filter_behind (ranked_chaptersOf chapters manga) hsplit]

/-- What both lists return, without the reading of the cursor. -/
theorem listChapters_eq (db : Database) (manga : MangaId) {cursor : Option Cursor}
    {after : Option Uuid} (hcursor : parseCursor "chapter" cursor = .ok after) :
    listChapters db manga cursor = .ok (pageOf pageSize (fun c => .of c.id.uuid)
      ((selectChapters db.chapters manga after).map (·.toChapter))) := by
  simp only [listChapters, hcursor]
  rfl

/-- The chapters of a page of summaries are the page of chapters. -/
theorem listChapters_summaries (db : Database) (manga : MangaId) (cursor : Option Cursor) :
    listChapters db manga cursor = (listChapterSummaries db manga cursor).map fun page =>
      ⟨page.items.map ChapterSummary.chapter, page.next⟩ := by
  cases hcursor : parseCursor "chapter" cursor with
  | error e => simp [listChapters, listChapterSummaries, hcursor, bind, Except.bind, Except.map]
  | ok after =>
    have hview := pageOf_map pageSize (fun c : Chapter => Cursor.of c.id.uuid)
      ChapterSummary.chapter ((selectChapters db.chapters manga after).map
        (chapterSummary db.downloads))
    rw [List.map_map] at hview
    rw [listChapters_eq db manga hcursor]
    simp only [listChapterSummaries, hcursor, bind, Except.bind, pure, Except.pure, Except.map]
    exact congrArg Except.ok hview

/-- The list pages through the whole series when it fits on a page or has numbers throughout. -/
theorem listChapters_walk {db : Database} {manga : MangaId}
    (h : (chaptersOf db.chapters manga).length ≤ pageSize ∨
      ∀ c ∈ chaptersOf db.chapters manga, c.number ≠ none) :
    Walk (listChapters db manga) none
      (chunks pageSize ((declared db.chapters manga).map (·.toChapter))) := by
  have hfirst : listChapters db manga none = .ok (pageOf pageSize (fun c => .of c.id.uuid)
      (((declared db.chapters manga).map (·.toChapter)).take (pageSize + 1))) := by
    rw [listChapters_eq db manga rfl, select_first, List.map_take]
  rcases h with hshort | hnumbered
  · have hlen : ((declared db.chapters manga).map (·.toChapter)).length ≤ pageSize := by
      rw [List.length_map, declared, (orderBy_perm _ _).length_eq]
      exact hshort
    rw [chunks_of_le hlen]
    exact walk_short hlen hfirst
  · refine walk_chunks (by decide) hfirst fun pre c suf hsplit => ?_
    obtain ⟨pre', rest, hdeclared, -, hrest⟩ := List.map_eq_append_iff.mp hsplit
    obtain ⟨r, suf', rfl, rfl, rfl⟩ := List.map_eq_cons_iff.mp hrest
    rw [listChapters_eq db manga (parseCursor_of "chapter" r.id.uuid),
      select_behind hnumbered hdeclared, List.map_take]

/-- Behind a cursor there are only chapters with a number. -/
theorem number_of_resumed {db : Database} {manga : MangaId} {k : Cursor}
    {page : Page Chapter Cursor} (h : listChapters db manga (some k) = .ok page) :
    ∀ c ∈ page.items, c.number ≠ none := by
  cases hparse : Uuid.parse k.text with
  | none => simp [listChapters, parseCursor, hparse, Except.bind, bind] at h
  | some id =>
    have hcursor : parseCursor "chapter" (some k) = .ok (some id) := by simp [parseCursor, hparse]
    rw [listChapters_eq db manga hcursor] at h
    cases h
    intro c hc
    obtain ⟨r, hr, rfl⟩ := List.mem_map.mp (List.mem_of_mem_take hc)
    have hr := mem_orderBy.mp (List.mem_of_mem_take hr)
    exact number_ne_none_of_behind (List.mem_filter.mp hr).2

/-- Chapters without a number come last. -/
theorem number_getLast {l : ChapterRow} (hlast : (declared chapters manga).getLast? = some l)
    (hnull : ∃ c ∈ chaptersOf chapters manga, c.number = none) : l.number = none := by
  obtain ⟨c, hc, hnone⟩ := hnull
  obtain ⟨pre, hpre⟩ := List.getLast?_eq_some_iff.mp hlast
  have hmem : c ∈ pre ++ [l] := hpre ▸ (mem_orderBy.mpr hc : c ∈ declared chapters manga)
  have hsorted := pairwise_orderBy chapterRank (chaptersOf chapters manga)
  rw [show orderBy chapterRank _ = pre ++ [l] from hpre, List.pairwise_append] at hsorted
  rcases List.mem_append.mp hmem with hc | hc
  · have hle : chapterRank c ≤ chapterRank l := hsorted.2.2 c hc l (by simp)
    rcases hl : l.number with _ | x
    · rfl
    · simp only [chapterRank, hnone, hl, Prod.Lex.toLex_le_toLex, WithTop.top_ne_coe, not_top_lt,
        false_and, or_self] at hle
  · rwa [← List.mem_singleton.mp hc]

/-- A chapter without a number that does not fit on the first page is on none. -/
theorem listChapters_misses {db : Database} {manga : MangaId}
    (hlong : pageSize < (chaptersOf db.chapters manga).length)
    (hnull : ∃ c ∈ chaptersOf db.chapters manga, c.number = none) {pages : List (List Chapter)}
    (hwalk : Walk (listChapters db manga) none pages) :
    pages.flatten ≠ (declared db.chapters manga).map (·.toChapter) := by
  intro hall
  have hlen : pageSize < ((declared db.chapters manga).map (·.toChapter)).length := by
    rwa [List.length_map, declared, (orderBy_perm _ _).length_eq]
  have hfirst : ∀ page, listChapters db manga none = .ok page →
      page.items = ((declared db.chapters manga).map (·.toChapter)).take pageSize := by
    intro page hpage
    rw [listChapters_eq db manga rfl, select_first] at hpage
    cases hpage
    simp [pageOf, List.take_take]
  cases hwalk with
  | last hpage hnext =>
    rw [List.flatten_singleton, hfirst _ hpage] at hall
    have := congrArg List.length hall
    rw [List.length_take] at this
    omega
  | more hpage hnext hrest =>
    -- the last chapter of all is behind the first page, where every chapter has a number
    rw [List.flatten_cons, hfirst _ hpage] at hall
    have hdrop := List.append_cancel_left (hall.trans (List.take_append_drop pageSize _).symm)
    cases hlast : (declared db.chapters manga).getLast? with
    | none =>
      rw [List.getLast?_eq_none_iff.mp hlast] at hlen
      exact absurd hlen (by decide)
    | some l =>
      obtain ⟨pre, hpre⟩ := List.getLast?_eq_some_iff.mp hlast
      have hl : l.toChapter ∈ ((declared db.chapters manga).map (·.toChapter)).drop pageSize := by
        rw [hpre, List.length_map, List.length_append, List.length_singleton] at hlen
        rw [hpre, List.map_append, List.drop_append_of_le_length (by simpa using hlen)]
        simp
      refine hrest.forall_mem (P := fun c => c.number ≠ none) (fun k page => number_of_resumed) _
        (hdrop ▸ hl) (number_getLast hlast hnull)

end Selected

end Nyuka.Persistence
