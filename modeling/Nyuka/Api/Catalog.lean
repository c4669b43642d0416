import Nyuka.Persistence.Listings
import Nyuka.Runtime.Calls

/-! Series that are added from a catalogue and read again later, side by side with each other and
with removals. Each of these runs asks the source and then sends its statements one by one. -/
namespace Nyuka
namespace Api
namespace Catalog
open Tables Table Persistence Runs

section Statements

def mapStatus : Runtime.Models.MangaStatus → MangaStatus
  | .unknown => .unknown
  | .ongoing => .ongoing
  | .completed => .completed
  | .cancelled => .cancelled
  | .hiatus => .hiatus

/-- The chapter list, from whichever call carries it. -/
def chapterList (fromDetails : Option (List ListedChapter))
    (chapters : Except DomainError (List ListedChapter)) :
    Except DomainError (List ListedChapter) :=
  match fromDetails with
  | some chapters => .ok chapters
  | none => chapters

/-- The row that an addition proposes. Its id and times are the statement's to give. -/
def newManga (source : SourceId) (key : ExternalKey) (details : Runtime.SourceManga) :
    MangaRow where
  id := ⟨0⟩
  sourceId := source
  externalKey := key
  title := details.title
  direction := details.direction
  status := mapStatus details.status
  createdAt := 0
  updatedAt := 0

/-- Applies what a source reported onto the stored series. -/
def merge (existing : MangaRow) (details : Runtime.SourceManga) : MangaRow :=
  { existing with
    title := details.title, direction := details.direction, status := mapStatus details.status }

def getManga (db : Database) (id : MangaId) : Except DomainError MangaRow :=
  match db.mangas.rows.find? fun m => m.id == id with
  | some row => .ok row
  | none => .error .notFound

/-- `upsert_chapters`. The foreign key is checked of the rows that are inserted. -/
def upsertMany (db : Database) (manga : MangaId) (listed : List ListedChapter)
    (draw : ℕ → ChapterId) (now : Time) : Except DomainError (Database × List ChapterId) :=
  if listed = [] then .ok (db, [])
  else if Upserts.maxParameters < listed.length * 11 then
    .error (.storage "too many arguments for query")
  else if !listed.all ListedChapter.storable then
    .error (.storage "a parameter cannot be stored")
  else
    match upsertChapters manga now (listed.map ListedChapter.toSourceChapter) draw db.chapters with
    | .error e => .error e
    | .ok (chapters, new) =>
      if new ≠ [] ∧ hasManga db manga = false then
        .error (.storage "insert or update violates foreign key constraint")
      else .ok ({ db with chapters }, new)

end Statements

section Runs

/-- The series that a run has written, and the chapters that it has for it. -/
structure Task where
  refreshed : Bool
  id : MangaId
  sourceId : SourceId
  externalKey : ExternalKey
  listed : List ListedChapter
deriving DecidableEq

/-- How far `POST /manga` or a refresh has come. `writing` has the id of the series that is
refreshed. -/
inductive Run where
  | idle
  | asking (existing : MangaRow)
  | writing (refreshed : Option MangaId) (row : MangaRow) (listed : List ListedChapter)
  | listing (task : Task)
  | reading (task : Task)

/-- The database, the ids drawn for its rows so far, the runs, and the tasks that were completed. -/
structure Library where
  db : Database
  drawn : List Uuid
  runs : ℕ → Run
  completed : List Task

def Library.start (db : Database) (drawn : List Uuid) : Library := ⟨db, drawn, fun _ => .idle, []⟩

def Library.setRun (s : Library) (j : ℕ) (run : Run) : Library :=
  { s with runs := Function.update s.runs j run }

inductive Event where
  | add (j : ℕ) (source : SourceId) (key : ExternalKey) (details : Runtime.SourceManga)
      (chapters : Except DomainError (List ListedChapter))
  | refresh (j : ℕ) (id : MangaId)
  | answer (j : ℕ) (details : Runtime.SourceManga)
      (chapters : Except DomainError (List ListedChapter))
  | write (j : ℕ) (drawn : Uuid) (now : Time)
  | list (j : ℕ) (draw : ℕ → ChapterId) (now : Time)
  | read (j : ℕ)
  /-- The source or a statement fails, or the process dies. -/
  | die (j : ℕ)
  /-- Anything else that is done to the library. -/
  | update (a : Update)

def Library.step (s : Library) : Event → Option Library
  | .add j source key details chapters =>
    match s.runs j with
    | .idle =>
      match chapterList details.chapters chapters with
      | .ok listed => some (s.setRun j (.writing none (newManga source key details) listed))
      | .error _ => some s
    | _ => none
  | .refresh j id =>
    match s.runs j with
    | .idle =>
      match getManga s.db id with
      | .ok existing => some (s.setRun j (.asking existing))
      | .error _ => some s
    | _ => none
  | .answer j details chapters =>
    match s.runs j with
    | .asking existing =>
      match chapterList details.chapters chapters with
      | .ok listed =>
        some (s.setRun j (.writing (some existing.id) (merge existing details) listed))
      | .error _ => some (s.setRun j .idle)
    | _ => none
  | .write j drawn now =>
    match s.runs j with
    | .writing refreshed row listed =>
      if s.drawn.contains drawn then none
      else
        match upsertManga s.db row ⟨drawn⟩ now with
        | .ok (db, id) =>
          some ({ s with db, drawn := drawn :: s.drawn }.setRun j
            (.listing ⟨refreshed.isSome, refreshed.getD id, row.sourceId, row.externalKey, listed⟩))
        | .error _ => some ({ s with drawn := drawn :: s.drawn }.setRun j .idle)
    | _ => none
  | .list j draw now =>
    match s.runs j with
    | .listing task =>
      match upsertMany s.db task.id task.listed draw now with
      | .ok (db, _) =>
        if task.refreshed then
          some ({ s with db, completed := task :: s.completed }.setRun j .idle)
        else some ({ s with db }.setRun j (.reading task))
      | .error _ => some (s.setRun j .idle)
    | _ => none
  | .read j =>
    match s.runs j with
    | .reading task =>
      match getManga s.db task.id with
      | .ok _ => some ({ s with completed := task :: s.completed }.setRun j .idle)
      | .error _ => some (s.setRun j .idle)
    | _ => none
  | .die j => some (s.setRun j .idle)
  | .update a =>
    if a.drawn.all fun id => !s.drawn.contains id then
      some { s with db := a.run s.db, drawn := a.drawn.toList ++ s.drawn }
    else none

end Runs

section Frames
variable {db next : Database} {drawn : List Uuid} {id : MangaId} {source : SourceId}
  {key : ExternalKey} {listed : List ListedChapter}

/-- A series under this id is the source's with this key. -/
def Held (db : Database) (id : MangaId) (source : SourceId) (key : ExternalKey) : Prop :=
  ∀ m ∈ db.mangas.rows, m.id = id → m.sourceId = source ∧ m.externalKey = key

/-- A series under this id has the chapters. -/
def Filled (db : Database) (id : MangaId) (listed : List ListedChapter) : Prop :=
  hasManga db id = true → ∀ c ∈ listed, hasChapter db.chapters id c.key = true

/-- Every chapter has its series. -/
def Owned (db : Database) : Prop := ∀ c ∈ db.chapters.rows, hasManga db c.mangaId = true

/-- The ids of the series were drawn for them. -/
def Filed (db : Database) (drawn : List Uuid) : Prop := ∀ m ∈ db.mangas.rows, m.id.uuid ∈ drawn

/-- A series keeps its keys and its chapters as long as it is there, and a new one has an id that
none had before. -/
structure Moves (drawn : List Uuid) (db next : Database) : Prop where
  series : ∀ m' ∈ next.mangas.rows, (∃ m ∈ db.mangas.rows, m.id = m'.id ∧
    m.sourceId = m'.sourceId ∧ m.externalKey = m'.externalKey) ∨ m'.id.uuid ∉ drawn
  chapters : ∀ m' ∈ next.mangas.rows, ∀ c ∈ db.chapters.rows, c.mangaId = m'.id →
    c ∈ next.chapters.rows

theorem Held.moves (h : Held db id source key) (hmoves : Moves drawn db next)
    (hid : id.uuid ∈ drawn) : Held next id source key := by
  rintro m' hm' rfl
  rcases hmoves.series m' hm' with ⟨m, hm, hsame, hsource, hkey⟩ | hnew
  · rw [← hsource, ← hkey]
    exact h m hm hsame
  · exact absurd hid hnew

theorem Filled.moves (h : Filled db id listed) (hmoves : Moves drawn db next)
    (hid : id.uuid ∈ drawn) : Filled next id listed := by
  intro hthere c hc
  obtain ⟨m', hm', rfl⟩ := hasManga_iff.mp hthere
  rcases hmoves.series m' hm' with ⟨m, hm, hsame, -⟩ | hnew
  · obtain ⟨r, hr, hkeys⟩ := List.any_eq_true.mp (h (hasManga_iff.mpr ⟨m, hm, hsame⟩) c hc)
    have hmanga : r.mangaId = m'.id := by
      simp only [Bool.and_eq_true, beq_iff_eq] at hkeys
      exact hkeys.1
    exact List.any_eq_true.mpr ⟨r, hmoves.chapters m' hm' r hr hmanga, hkeys⟩
  · exact absurd hid hnew

theorem Moves.same (hmangas : next.mangas = db.mangas) (hchapters : next.chapters = db.chapters) :
    Moves drawn db next where
  series m' hm' := .inl ⟨m', hmangas ▸ hm', rfl, rfl, rfl⟩
  chapters _ _ _ hc _ := hchapters ▸ hc

theorem Moves.deleteMangas (db : Database) (p : MangaRow → Bool) :
    Moves drawn db (db.deleteMangas p) where
  series m' hm' := .inl ⟨m', (mem_deleteWhere.mp hm').1, rfl, rfl, rfl⟩
  chapters m' hm' c hc hmanga := by
    obtain ⟨hthere, hstays⟩ := mem_deleteWhere.mp hm'
    refine mem_deleteWhere.mpr ⟨hc, List.any_eq_false.mpr fun m hm hgone => ?_⟩
    simp only [Bool.and_eq_true, beq_iff_eq] at hgone
    have hsame : m = m' := primary_inj hm hthere (hgone.2.trans hmanga)
    rw [hsame, hstays] at hgone
    cases hgone.1

theorem Owned.deleteMangas (h : Owned db) (p : MangaRow → Bool) : Owned (db.deleteMangas p) := by
  intro c hc
  obtain ⟨hc, hstays⟩ := mem_deleteWhere.mp hc
  obtain ⟨m, hm, hid⟩ := hasManga_iff.mp (h c hc)
  refine hasManga_iff.mpr ⟨m, mem_deleteWhere.mpr ⟨hm, ?_⟩, hid⟩
  simpa [hid] using List.any_eq_false.mp hstays m hm

section Write
variable {manga : MangaRow} {fresh : Uuid} {now : Time}

theorem Moves.upsertManga (h : upsertManga db manga ⟨fresh⟩ now = .ok (next, id))
    (hfresh : fresh ∉ drawn) : Moves drawn db next := by
  obtain ⟨p, f, hf, rfl, -⟩ | ⟨row, hfree, rfl, hid, -⟩ := upsertManga_cases h
  · refine ⟨fun m' hm' => ?_, fun m' hm' c hc _ => hc⟩
    obtain ⟨m, hm, rfl⟩ := List.mem_map.mp hm'
    refine .inl ⟨m, hm, ?_⟩
    split
    · have hsame : (f m).id = m.id := Option.some.inj (hf true m)
      have hkeys : ((f m).sourceId, (f m).externalKey) = (m.sourceId, m.externalKey) :=
        Option.some.inj (hf false m)
      obtain ⟨hsource, hkey⟩ := Prod.mk.inj hkeys
      exact ⟨hsame.symm, hsource.symm, hkey.symm⟩
    · exact ⟨rfl, rfl, rfl⟩
  · refine ⟨fun m' hm' => ?_, fun m' hm' c hc _ => hc⟩
    rcases List.mem_cons.mp hm' with rfl | hm'
    · exact .inr (by rw [hid]; exact hfresh)
    · exact .inl ⟨m', hm', rfl, rfl, rfl⟩

theorem Owned.upsertManga (howned : Owned db)
    (h : upsertManga db manga ⟨fresh⟩ now = .ok (next, id)) : Owned next := by
  obtain ⟨p, f, hf, rfl, hkept⟩ | ⟨row, hfree, rfl, -⟩ := upsertManga_cases h
  · intro c hc
    obtain ⟨m, hm, hid⟩ := hasManga_iff.mp (howned c hc)
    have hmem : (if p m then f m else m) ∈ (db.mangas.updateWhere p f hf).rows :=
      mem_updateWhere.mpr ⟨m, hm, rfl⟩
    refine hasManga_iff.mpr ⟨_, hmem, ?_⟩
    split
    · rw [(hkept m).1, hid]
    · exact hid
  · intro c hc
    obtain ⟨m, hm, hid⟩ := hasManga_iff.mp (howned c hc)
    exact hasManga_iff.mpr ⟨m, List.mem_cons_of_mem _ hm, hid⟩

/-- The id that comes back is that of the series with the keys, old or newly drawn. -/
theorem upsertManga_returned (h : upsertManga db manga ⟨fresh⟩ now = .ok (next, id)) :
    (∃ m ∈ db.mangas.rows, m.id = id ∧ m.sourceId = manga.sourceId ∧
      m.externalKey = manga.externalKey) ∨
    id = ⟨fresh⟩ ∧ next.mangas.rows = { manga with id := id, createdAt := now, updatedAt := now } ::
      db.mangas.rows := by
  obtain ⟨_, -, h⟩ := Results.bind_eq_ok.mp h
  obtain ⟨_, -, h⟩ := Results.bind_eq_ok.mp h
  split at h
  · next row hrow =>
    cases h
    have hkeys := List.find?_some hrow
    simp only [Bool.and_eq_true, beq_iff_eq] at hkeys
    exact .inl ⟨row, List.mem_of_find?_eq_some hrow, rfl, hkeys⟩
  · dsimp only at h
    split at h
    · split at h
      · cases h
        exact .inr ⟨rfl, rfl⟩
      · cases h
    · cases h

theorem Held.upsertManga (hfiled : Filed db drawn) (hfresh : fresh ∉ drawn)
    (h : upsertManga db manga ⟨fresh⟩ now = .ok (next, id)) :
    Held next id manga.sourceId manga.externalKey ∧ id.uuid ∈ fresh :: drawn := by
  rcases upsertManga_returned h with ⟨m, hm, rfl, hkeys⟩ | ⟨rfl, hrows⟩
  · have hheld : Held db m.id manga.sourceId manga.externalKey := by
      intro m' hm' hid
      rw [primary_inj hm' hm hid]
      exact hkeys
    exact ⟨hheld.moves (Moves.upsertManga h hfresh) (hfiled m hm),
      List.mem_cons_of_mem _ (hfiled m hm)⟩
  · refine ⟨fun m hm hid => ?_, List.mem_cons_self⟩
    rw [hrows] at hm
    rcases List.mem_cons.mp hm with rfl | hm
    · exact ⟨rfl, rfl⟩
    · have hold := hfiled m hm
      rw [hid] at hold
      exact absurd hold hfresh

end Write

section Chapters
variable {manga : MangaId} {now : Time} {chapters after : ChapterTable} {new : List ChapterId}

/-- Of the listed chapters those are inserted that are not there, and no others are touched. -/
theorem upsertChapters_ok {given : List SourceChapter} {draw : ℕ → ChapterId}
    (h : upsertChapters manga now given draw chapters = .ok (after, new)) :
    (∀ c ∈ after.rows, c ∈ chapters.rows ∨ c.mangaId = manga ∧ new ≠ []) ∧
    (∀ c ∈ chapters.rows, c ∈ after.rows) ∧
    ∀ c ∈ given, hasChapter after manga c.key = true := by
  induction given generalizing draw chapters new with
  | nil =>
    cases h
    exact ⟨fun c hc => .inl hc, fun c hc => hc, fun c hc => by cases hc⟩
  | cons first rest ih =>
    rw [upsertChapters] at h
    split at h
    · next hthere =>
      obtain ⟨hrows, hkept, hall⟩ := ih h
      refine ⟨hrows, hkept, fun c hc => ?_⟩
      rcases List.mem_cons.mp hc with rfl | hc
      · obtain ⟨r, hr, hkeys⟩ := List.any_eq_true.mp hthere
        exact List.any_eq_true.mpr ⟨r, hkept r hr, hkeys⟩
      · exact hall c hc
    · split at h
      · next hfree =>
        obtain ⟨⟨last, ids⟩, hrest, hpair⟩ := Results.bind_eq_ok.mp h
        cases hpair
        obtain ⟨hrows, hkept, hall⟩ := ih hrest
        have hfirst := hkept _ List.mem_cons_self
        refine ⟨fun c hc => ?_, fun c hc => hkept c (List.mem_cons_of_mem _ hc), fun c hc => ?_⟩
        · rcases hrows c hc with hc | ⟨hmanga, -⟩
          · rcases List.mem_cons.mp hc with rfl | hc
            · exact .inr ⟨rfl, List.cons_ne_nil _ _⟩
            · exact .inl hc
          · exact .inr ⟨hmanga, List.cons_ne_nil _ _⟩
        · rcases List.mem_cons.mp hc with rfl | hc
          · refine List.any_eq_true.mpr ⟨_, hfirst, ?_⟩
            simp [SourceChapter.row]
          · exact hall c hc
      · cases h

theorem upsertMany_ok {draw : ℕ → ChapterId} (howned : Owned db)
    (h : upsertMany db manga listed draw now = .ok (next, new)) :
    next.mangas = db.mangas ∧ (∀ c ∈ db.chapters.rows, c ∈ next.chapters.rows) ∧ Owned next ∧
      ∀ c ∈ listed, hasChapter next.chapters manga c.key = true := by
  unfold upsertMany at h
  split at h
  · next hnil =>
    cases h
    exact ⟨rfl, fun c hc => hc, howned, fun c hc => by simp [hnil] at hc⟩
  split at h
  · cases h
  split at h
  · cases h
  split at h
  · cases h
  next chapters ids hchapters =>
    obtain ⟨hrows, hkept, hall⟩ := upsertChapters_ok hchapters
    split at h
    · cases h
    · next hforeign =>
      cases h
      refine ⟨rfl, hkept, fun c hc => ?_, fun c hc =>
        hall c.toSourceChapter (List.mem_map_of_mem hc)⟩
      rcases hrows c hc with hold | ⟨hmanga, hnew⟩
      · exact howned c hold
      · change hasManga db c.mangaId = true
        rw [hmanga]
        by_contra hgone
        exact hforeign ⟨hnew, by simpa using hgone⟩

end Chapters

section Updates
variable (a : Update)

theorem Moves.run (ha : ∀ id ∈ a.drawn, id ∉ drawn) : Moves drawn db (a.run db) := by
  cases a with
  | upsertManga manga fresh now =>
    rw [Update.run]
    rcases run_cases db (Persistence.upsertManga db manga ⟨fresh⟩ now) with h | ⟨id, h⟩
    · rw [h]
      exact .same rfl rfl
    · exact .upsertManga h (ha fresh rfl)
  | upsertFollow follow fresh now =>
    rw [Update.run]
    rcases run_cases db (Persistence.upsertFollow db follow ⟨fresh⟩ now) with h | ⟨id, h⟩
    · rw [h]
      exact .same rfl rfl
    · obtain ⟨p, f, hf, hnext, -⟩ | ⟨row, hfree, hnext, -⟩ := upsertFollow_cases h <;>
        rw [hnext] <;> exact .same rfl rfl
  | deleteManga id =>
    rw [Update.run]
    cases h : Persistence.deleteManga db id with
    | error e => exact .same rfl rfl
    | ok next =>
      obtain rfl := deleteManga_ok h
      exact .deleteMangas db _
  | deleteFollow | markFollowChecked => exact .same rfl rfl
  | deleteSource id =>
    have hmoves : Moves drawn db (db.deleteMangas fun m =>
        db.sources.rows.any fun s => s.id == id && s.id == m.sourceId) := .deleteMangas db _
    exact ⟨hmoves.series, hmoves.chapters⟩

theorem Owned.run (h : Owned db) : Owned (a.run db) := by
  cases a with
  | upsertManga manga fresh now =>
    rw [Update.run]
    rcases run_cases db (Persistence.upsertManga db manga ⟨fresh⟩ now) with hsame | ⟨id, hnext⟩
    · rw [hsame]
      exact h
    · exact h.upsertManga hnext
  | upsertFollow follow fresh now =>
    rw [Update.run]
    rcases run_cases db (Persistence.upsertFollow db follow ⟨fresh⟩ now) with hsame | ⟨id, hnext⟩
    · rw [hsame]
      exact h
    · obtain ⟨p, f, hf, hnext, -⟩ | ⟨row, hfree, hnext, -⟩ := upsertFollow_cases hnext <;>
        rw [hnext] <;> exact h
  | deleteManga id =>
    rw [Update.run]
    cases hnext : Persistence.deleteManga db id with
    | error e => exact h
    | ok next =>
      obtain rfl := deleteManga_ok hnext
      exact h.deleteMangas _
  | deleteFollow | markFollowChecked => exact h
  | deleteSource id =>
    have howned : Owned (db.deleteMangas fun m =>
        db.sources.rows.any fun s => s.id == id && s.id == m.sourceId) := h.deleteMangas _
    exact howned

theorem Filed.run (h : Filed db drawn) : Filed (a.run db) (a.drawn.toList ++ drawn) := by
  intro m' hm'
  rcases mangas_run db a m' hm' with ⟨m, hm, hid, -⟩ | hnew
  · have hsame : m.id.uuid = m'.id.uuid := hid
    exact List.mem_append_right _ (hsame ▸ h m hm)
  · rw [hnew]
    exact List.mem_append_left _ List.mem_cons_self

theorem Filed.upsertManga (h : Filed db drawn) {manga : MangaRow} {fresh : Uuid} {now : Time}
    (hnext : Persistence.upsertManga db manga ⟨fresh⟩ now = .ok (next, id)) :
    Filed next (fresh :: drawn) := by
  have hrun : (Update.upsertManga manga fresh now).run db = next := by
    rw [Update.run, hnext]
    rfl
  rw [← hrun]
  exact h.run (.upsertManga manga fresh now)

end Updates

end Frames

section Invariant
variable {s t : Library} {j : ℕ} {run : Run} {task : Task}

/-- What a run relies on, as long as its series is there. -/
def Run.Sound (db : Database) (drawn : List Uuid) : Run → Prop
  | .idle | .writing none _ _ => True
  | .asking existing =>
    existing.id.uuid ∈ drawn ∧ Held db existing.id existing.sourceId existing.externalKey
  | .writing (some id) row _ => id.uuid ∈ drawn ∧ Held db id row.sourceId row.externalKey
  | .listing task => task.id.uuid ∈ drawn ∧ Held db task.id task.sourceId task.externalKey
  | .reading task => task.id.uuid ∈ drawn ∧
    Held db task.id task.sourceId task.externalKey ∧ Filled db task.id task.listed

structure Library.Sound (s : Library) : Prop where
  filed : Filed s.db s.drawn
  owned : Owned s.db
  runs : ∀ j, (s.runs j).Sound s.db s.drawn

/-- The series of a task is there with its keys and all of its chapters. -/
def Whole (db : Database) (task : Task) : Prop :=
  ∃ m ∈ db.mangas.rows, m.id = task.id ∧ m.sourceId = task.sourceId ∧
    m.externalKey = task.externalKey ∧
    ∀ c ∈ task.listed, hasChapter db.chapters task.id c.key = true

theorem Run.Sound.moves {db next : Database} {drawn drawn' : List Uuid} (h : run.Sound db drawn)
    (hmoves : Moves drawn db next) (hdrawn : drawn ⊆ drawn') : run.Sound next drawn' := by
  cases run with
  | idle => trivial
  | asking existing => exact ⟨hdrawn h.1, h.2.moves hmoves h.1⟩
  | writing refreshed row listed =>
    cases refreshed with
    | none => trivial
    | some id => exact ⟨hdrawn h.1, h.2.moves hmoves h.1⟩
  | listing task => exact ⟨hdrawn h.1, h.2.moves hmoves h.1⟩
  | reading task => exact ⟨hdrawn h.1, h.2.1.moves hmoves h.1, h.2.2.moves hmoves h.1⟩

theorem Library.Sound.setRun (h : s.Sound) (hrun : run.Sound s.db s.drawn) :
    (s.setRun j run).Sound where
  filed := h.filed
  owned := h.owned
  runs i := by
    change (Function.update s.runs j run i).Sound s.db s.drawn
    by_cases hi : i = j
    · rw [hi, Function.update_self]
      exact hrun
    · rw [Function.update_of_ne hi]
      exact h.runs i

/-- The database moves on, and one run with it. -/
theorem Library.Sound.advance (h : s.Sound) {next : Database} {drawn : List Uuid}
    {completed : List Task} (hmoves : Moves s.drawn s.db next) (hdrawn : s.drawn ⊆ drawn)
    (hfiled : Filed next drawn) (howned : Owned next) (hrun : run.Sound next drawn) :
    (Library.setRun ⟨next, drawn, s.runs, completed⟩ j run).Sound :=
  Library.Sound.setRun ⟨hfiled, howned, fun i => (h.runs i).moves hmoves hdrawn⟩ hrun

theorem getManga_ok {db : Database} {id : MangaId} {row : MangaRow}
    (h : getManga db id = .ok row) : row ∈ db.mangas.rows ∧ row.id = id := by
  unfold getManga at h
  split at h
  · next found hfound =>
    cases h
    exact ⟨List.mem_of_find?_eq_some hfound, by simpa using List.find?_some hfound⟩
  · cases h

theorem held_of_mem {db : Database} {m : MangaRow} (hm : m ∈ db.mangas.rows) :
    Held db m.id m.sourceId m.externalKey := by
  intro m' hm' hid
  rw [primary_inj hm' hm hid]
  exact ⟨rfl, rfl⟩

theorem Moves.upsertMany {db next : Database} {drawn : List Uuid}
    (hmangas : next.mangas = db.mangas)
    (hchapters : ∀ c ∈ db.chapters.rows, c ∈ next.chapters.rows) : Moves drawn db next where
  series m' hm' := .inl ⟨m', hmangas ▸ hm', rfl, rfl, rfl⟩
  chapters _ _ c hc _ := hchapters c hc

theorem Library.Sound.write {fresh : Uuid} {now : Time} (h : s.Sound)
    (hstep : s.step (.write j fresh now) = some t) : t.Sound := by
  rw [Library.step] at hstep
  split at hstep
  · next refreshed row listed hj =>
    have hwriting := h.runs j
    rw [hj] at hwriting
    split at hstep
    · cases hstep
    · next hcontains =>
      have hfresh : fresh ∉ s.drawn := by simpa using hcontains
      split at hstep
      · next next id hupsert =>
        cases hstep
        have hmoves : Moves s.drawn s.db next := .upsertManga hupsert hfresh
        obtain ⟨hheld, hid⟩ := Held.upsertManga h.filed hfresh hupsert
        refine h.advance hmoves (List.subset_cons_self _ _) (h.filed.upsertManga hupsert)
          (h.owned.upsertManga hupsert) ?_
        cases refreshed with
        | none => exact ⟨hid, hheld⟩
        | some old =>
          exact ⟨List.mem_cons_of_mem _ hwriting.1, hwriting.2.moves hmoves hwriting.1⟩
      · cases hstep
        exact h.advance (.same rfl rfl) (List.subset_cons_self _ _)
          (fun m hm => List.mem_cons_of_mem _ (h.filed m hm)) h.owned trivial
  · cases hstep

theorem Library.Sound.list {draw : ℕ → ChapterId} {now : Time} (h : s.Sound)
    (hstep : s.step (.list j draw now) = some t) : t.Sound := by
  rw [Library.step] at hstep
  split at hstep
  · next task hj =>
    have hlisting := h.runs j
    rw [hj] at hlisting
    split at hstep
    · next next new hupsert =>
      obtain ⟨hmangas, hchapters, howned, hall⟩ := upsertMany_ok h.owned hupsert
      have hmoves : Moves s.drawn s.db next := .upsertMany hmangas hchapters
      have hfiled : Filed next s.drawn := fun m hm => h.filed m (hmangas ▸ hm)
      split at hstep <;> cases hstep
      · exact h.advance hmoves (List.Subset.refl _) hfiled howned trivial
      · exact h.advance hmoves (List.Subset.refl _) hfiled howned
          ⟨hlisting.1, hlisting.2.moves hmoves hlisting.1, fun _ => hall⟩
    · cases hstep
      exact h.setRun trivial
  · cases hstep

theorem Library.Sound.step {e : Event} (h : s.Sound) (hstep : s.step e = some t) : t.Sound := by
  have hrun := h.runs
  cases e with
  | add j source key details chapters =>
    rw [Library.step] at hstep
    split at hstep
    · split at hstep <;> cases hstep
      · exact h.setRun trivial
      · exact h
    · cases hstep
  | refresh j id =>
    rw [Library.step] at hstep
    split at hstep
    · split at hstep
      · next existing hget =>
        cases hstep
        obtain ⟨hm, rfl⟩ := getManga_ok hget
        exact h.setRun ⟨h.filed _ hm, held_of_mem hm⟩
      · cases hstep
        exact h
    · cases hstep
  | answer j details chapters =>
    rw [Library.step] at hstep
    split at hstep
    · next existing hj =>
      have hexisting := hrun j
      rw [hj] at hexisting
      split at hstep <;> cases hstep
      · exact h.setRun hexisting
      · exact h.setRun trivial
    · cases hstep
  | write j fresh now => exact h.write hstep
  | list j draw now => exact h.list hstep
  | read j =>
    rw [Library.step] at hstep
    split at hstep
    · split at hstep <;> cases hstep
      · exact h.advance (.same rfl rfl) (List.Subset.refl _) h.filed h.owned trivial
      · exact h.setRun trivial
    · cases hstep
  | die j =>
    cases hstep
    exact h.setRun trivial
  | update a =>
    rw [Library.step] at hstep
    split at hstep
    · next hall =>
      cases hstep
      have hfresh : ∀ id ∈ a.drawn, id ∉ s.drawn := by simpa [Option.all_eq_true] using hall
      have hmoves : Moves s.drawn s.db (a.run s.db) := .run a hfresh
      exact ⟨h.filed.run a, h.owned.run a, fun i =>
        (hrun i).moves hmoves (List.subset_append_right _ _)⟩
    · cases hstep

/-- A task that a step completes is whole then. Of a refresh that listed no chapters, nothing is
said. -/
def CompletesWhole (s : Library) (e : Event) : Prop :=
  ∀ t task, s.step e = some t → t.completed = task :: s.completed →
    (task.refreshed = true → task.listed ≠ []) → Whole t.db task

theorem Whole.of_held {db : Database} (hheld : Held db task.id task.sourceId task.externalKey)
    (hthere : hasManga db task.id = true)
    (hall : ∀ c ∈ task.listed, hasChapter db.chapters task.id c.key = true) : Whole db task := by
  obtain ⟨m, hm, hid⟩ := hasManga_iff.mp hthere
  obtain ⟨hsource, hkey⟩ := hheld m hm hid
  exact ⟨m, hm, hid, hsource, hkey, hall⟩

/-- A task whose chapters have just been inserted is whole: a chapter that is there has its
series. -/
private theorem Library.Sound.whole_listed (h : s.Sound) {draw : ℕ → ChapterId} {now : Time}
    {next : Database} {new : List ChapterId} (hj : s.runs j = .listing task)
    (hupsert : upsertMany s.db task.id task.listed draw now = .ok (next, new))
    (hlisted : task.listed ≠ []) : Whole next task := by
  have hlisting := h.runs j
  rw [hj] at hlisting
  obtain ⟨hmangas, hchapters, howned, hall⟩ := upsertMany_ok h.owned hupsert
  obtain ⟨c, hc⟩ := List.exists_mem_of_ne_nil _ hlisted
  obtain ⟨r, hr, hkeys⟩ := List.any_eq_true.mp (hall c hc)
  have hmanga : r.mangaId = task.id := by
    simp only [Bool.and_eq_true, beq_iff_eq] at hkeys
    exact hkeys.1
  have hmoves : Moves s.drawn s.db next := .upsertMany hmangas hchapters
  exact .of_held (hlisting.2.moves hmoves hlisting.1) (hmanga ▸ howned r hr) hall

/-- A task whose series is found at its end is whole. -/
private theorem Library.Sound.whole_read (h : s.Sound) {row : MangaRow}
    (hj : s.runs j = .reading task) (hget : getManga s.db task.id = .ok row) :
    Whole s.db task := by
  have hreading := h.runs j
  rw [hj] at hreading
  have hthere : hasManga s.db task.id = true :=
    hasManga_iff.mpr ⟨row, (getManga_ok hget).1, (getManga_ok hget).2⟩
  exact .of_held hreading.2.1 hthere (hreading.2.2 hthere)

theorem Library.Sound.completesWhole (h : s.Sound) (e : Event) : CompletesWhole s e := by
  intro t task hstep hcompleted hlisted
  have hmore : t.completed ≠ s.completed := by
    rw [hcompleted]
    exact List.cons_ne_self _ _
  cases e with
  | list j draw now =>
    rw [Library.step] at hstep
    split at hstep
    · next writing hj =>
      split at hstep
      · next next new hupsert =>
        split at hstep <;> cases hstep
        · next hrefreshed =>
          obtain ⟨rfl, -⟩ := List.cons.inj hcompleted
          exact h.whole_listed hj hupsert (hlisted hrefreshed)
        · exact absurd rfl hmore
      · cases hstep
        exact absurd rfl hmore
    · cases hstep
  | read j =>
    rw [Library.step] at hstep
    split at hstep
    · next reading hj =>
      split at hstep
      · next row hget =>
        cases hstep
        obtain ⟨rfl, -⟩ := List.cons.inj hcompleted
        exact h.whole_read hj hget
      · cases hstep
        exact absurd rfl hmore
    · cases hstep
  | add | refresh | answer =>
    refine absurd ?_ hmore
    rw [Library.step] at hstep
    split at hstep
    · split at hstep <;> cases hstep <;> rfl
    · cases hstep
  | write =>
    refine absurd ?_ hmore
    rw [Library.step] at hstep
    split at hstep
    · split at hstep
      · cases hstep
      · split at hstep <;> cases hstep <;> rfl
    · cases hstep
  | die =>
    cases hstep
    exact absurd rfl hmore
  | update =>
    refine absurd ?_ hmore
    rw [Library.step] at hstep
    split at hstep <;> cases hstep
    rfl

/-- However additions, refreshes, removals and other changes come between each other's statements,
an addition that is answered, and a refresh that listed chapters and succeeds, leaves the series
it was about with every chapter that the source listed. -/
theorem completed_whole (hs : s.Sound) (events : List Event) :
    Each Library.step CompletesWhole s events :=
  Each.of_always (fun _ e _ h _ _ => h.completesWhole e)
    (Always.of_steps (fun _ _ _ h hstep => h.step hstep) events hs) (each_true s events)

/-! A series that two clients add and one removes while it is refreshed. -/

def firstChapter : ListedChapter :=
  ⟨⟨"c1", some 0x3F800000, none⟩, none, none, [], none, none, false⟩

def listedSeries : Runtime.SourceManga :=
  ⟨"series", "Series", none, [], [], none, none, [], .ongoing, .safe, .leftToRight,
    some [firstChapter]⟩

def addedTwice : List Event :=
  [.add 0 LinkedDatabase.guya.id "series" listedSeries (.error .notFound),
    .add 1 LinkedDatabase.guya.id "series" listedSeries (.error .notFound),
    .write 0 3 10, .write 1 4 11, .list 1 (fun _ => ⟨5⟩) 12, .list 0 (fun _ => ⟨6⟩) 13, .read 0,
    .refresh 2 ⟨3⟩, .answer 2 listedSeries (.error .notFound), .update (.deleteManga ⟨3⟩), .read 1,
    .write 2 7 14, .list 2 (fun _ => ⟨8⟩) 15]

theorem addedTwice_whole : ∃ t,
    exec Library.step (.start LinkedDatabase.oneSource.toDatabase []) addedTwice = some t ∧
    t.completed = [⟨false, ⟨3⟩, LinkedDatabase.guya.id, "series", [firstChapter]⟩] ∧
    Each Library.step CompletesWhole (.start LinkedDatabase.oneSource.toDatabase [])
      addedTwice := by
  have hsound : (Library.start LinkedDatabase.oneSource.toDatabase []).Sound :=
    ⟨fun m hm => (by cases hm), fun c hc => (by cases hc), fun j => trivial⟩
  obtain ⟨t, ht, htest⟩ := @exists_exec _ _ Library.step
    (.start LinkedDatabase.oneSource.toDatabase []) addedTwice
    (fun t => decide (t.completed =
      [⟨false, ⟨3⟩, LinkedDatabase.guya.id, "series", [firstChapter]⟩])) (by decide)
  exact ⟨t, ht, of_decide_eq_true htest, completed_whole hsound addedTwice⟩

end Invariant

end Catalog
end Api
end Nyuka
