import Nyuka.Foundation.Readings
import Nyuka.Persistence.Library

/-! Listings that are paged through while series and follows come, change and go. -/
namespace Nyuka.Persistence
open Tables Table Paging Runs

section Statements

def hasSource (db : Database) (id : SourceId) : Bool := db.sources.rows.any fun s => s.id == id

def hasManga (db : Database) (id : MangaId) : Bool := db.mangas.rows.any fun m => m.id == id

/-- `INSERT INTO manga .. ON CONFLICT (source_id, external_key) DO UPDATE .. RETURNING id`. A row
that is there keeps its id and when it was created. -/
def upsertManga (db : Database) (manga : MangaRow) (drawn : MangaId) (now : Time) :
    Except DomainError (Database × MangaId) := do
  bindText manga.externalKey
  bindText manga.title
  match db.mangas.rows.find? fun m =>
      m.sourceId == manga.sourceId && m.externalKey == manga.externalKey with
  | some row =>
    .ok ({ db with
      mangas := db.mangas.updateWhere (fun m => m.id == row.id)
        (fun m => { m with
          title := manga.title, direction := manga.direction, status := manga.status
          updatedAt := now })
        (fun i _ => by cases i <;> rfl) }, row.id)
  | none =>
    let row := { manga with id := drawn, createdAt := now, updatedAt := now }
    if hasSource db manga.sourceId then
      if h : db.mangas.Free row then .ok ({ db with mangas := db.mangas.insert row h }, drawn)
      else .error (.storage "duplicate key value violates unique constraint")
    else .error (.storage "insert or update violates foreign key constraint")

/-- `DELETE FROM manga WHERE id = $1`. -/
def deleteManga (db : Database) (id : MangaId) : Except DomainError Database :=
  if hasManga db id then .ok (db.deleteMangas fun m => m.id == id) else .error .notFound

/-- `INSERT INTO follow .. ON CONFLICT (manga_id) DO UPDATE .. RETURNING id`. -/
def upsertFollow (db : Database) (follow : Follow) (drawn : FollowId) (now : Time) :
    Except DomainError (Database × FollowId) :=
  match db.follows.rows.find? fun f => f.mangaId == follow.mangaId with
  | some row =>
    .ok ({ db with
      follows := db.follows.updateWhere (fun f => f.id == row.id)
        (fun f => { f with
          checkIntervalSecs := follow.checkIntervalSecs, autoDownload := follow.autoDownload })
        (fun i _ => by cases i <;> rfl) }, row.id)
  | none =>
    let row := { follow with id := drawn, createdAt := now }
    if hasManga db follow.mangaId then
      if h : db.follows.Free row then .ok ({ db with follows := db.follows.insert row h }, drawn)
      else .error (.storage "duplicate key value violates unique constraint")
    else .error (.storage "insert or update violates foreign key constraint")

/-- `DELETE FROM follow WHERE id = $1`. -/
def deleteFollow (db : Database) (id : FollowId) : Database :=
  { db with follows := db.follows.deleteWhere fun f => f.id == id }

/-- `UPDATE follow SET last_checked_at = now() WHERE id = $1`. -/
def markFollowChecked (db : Database) (id : FollowId) (now : Time) : Database :=
  { db with
    follows := db.follows.updateWhere (fun f => f.id == id)
      (fun f => { f with lastCheckedAt := some now }) (fun i _ => by cases i <;> rfl) }

inductive Update where
  | upsertManga (manga : MangaRow) (drawn : Uuid) (now : Time)
  | deleteManga (id : MangaId)
  | upsertFollow (follow : Follow) (drawn : Uuid) (now : Time)
  | deleteFollow (id : FollowId)
  | markFollowChecked (id : FollowId) (now : Time)
  | deleteSource (id : SourceId)

/-- The id that is drawn for a row. -/
def Update.drawn : Update → Option Uuid
  | upsertManga _ drawn _ | upsertFollow _ drawn _ => some drawn
  | deleteManga _ | deleteFollow _ | markFollowChecked _ _ | deleteSource _ => none

/-- The database after a statement. One that fails leaves it as it was. -/
def Update.run (db : Database) : Update → Database
  | upsertManga manga drawn now =>
    ((Persistence.upsertManga db manga ⟨drawn⟩ now).map Prod.fst).toOption.getD db
  | deleteManga id => (Persistence.deleteManga db id).toOption.getD db
  | upsertFollow follow drawn now =>
    ((Persistence.upsertFollow db follow ⟨drawn⟩ now).map Prod.fst).toOption.getD db
  | deleteFollow id => Persistence.deleteFollow db id
  | markFollowChecked id now => Persistence.markFollowChecked db id now
  | deleteSource id => db.deleteSource id

/-- A database, and the ids that were drawn for its rows so far. -/
structure Ledger where
  db : Database
  drawn : List Uuid

/-- `Uuid::new_v4` draws no id twice. -/
def Ledger.step (s : Ledger) (a : Update) : Option Ledger :=
  if a.drawn.all fun id => !s.drawn.contains id then
    some ⟨a.run s.db, a.drawn.toList ++ s.drawn⟩
  else none

end Statements

section Comes
variable {ρ : Type} {uuid : ρ → Uuid} {created : ρ → Time} {drawn : Option Uuid}
  {rows rows' : List ρ}

/-- Each of the rows was there with its id and creation time, or its id is the one drawn. -/
def Comes (uuid : ρ → Uuid) (created : ρ → Time) (drawn : Option Uuid) (rows rows' : List ρ) :
    Prop :=
  ∀ r' ∈ rows', (∃ r ∈ rows, uuid r = uuid r' ∧ created r = created r') ∨ drawn = some (uuid r')

theorem Comes.of_subset (h : ∀ r' ∈ rows', r' ∈ rows) : Comes uuid created drawn rows rows' :=
  fun r' hr' => .inl ⟨r', h r' hr', rfl, rfl⟩

theorem Comes.map {f : ρ → ρ} (huuid : ∀ r, uuid (f r) = uuid r)
    (hcreated : ∀ r, created (f r) = created r) (p : ρ → Bool) :
    Comes uuid created drawn rows (rows.map fun r => if p r then f r else r) := by
  intro r' hr'
  obtain ⟨r, hr, rfl⟩ := List.mem_map.mp hr'
  refine .inl ⟨r, hr, ?_⟩
  split
  · exact ⟨(huuid r).symm, (hcreated r).symm⟩
  · exact ⟨rfl, rfl⟩

theorem Comes.cons {row : ρ} (h : drawn = some (uuid row)) :
    Comes uuid created drawn rows (row :: rows) := by
  intro r' hr'
  rcases List.mem_cons.mp hr' with rfl | hr'
  · exact .inr h
  · exact .inl ⟨r', hr', rfl, rfl⟩

variable {db next : Database}

/-- A series' upsert changes a row or adds one, for a source that is there. -/
theorem upsertManga_cases {manga : MangaRow} {drawn id : MangaId} {now : Time}
    (h : upsertManga db manga drawn now = .ok (next, id)) :
    (∃ p f hf, next = { db with mangas := db.mangas.updateWhere p f hf } ∧
      ∀ m, (f m).id = m.id ∧ (f m).sourceId = m.sourceId ∧ (f m).createdAt = m.createdAt) ∨
    ∃ row hfree, next = { db with mangas := db.mangas.insert row hfree } ∧ row.id = drawn ∧
      hasSource db row.sourceId = true := by
  obtain ⟨_, -, h⟩ := Results.bind_eq_ok.mp h
  obtain ⟨_, -, h⟩ := Results.bind_eq_ok.mp h
  split at h
  · cases h
    exact .inl ⟨_, _, _, rfl, fun m => ⟨rfl, rfl, rfl⟩⟩
  · dsimp only at h
    split at h
    · next hsource =>
      split at h
      · next hfree =>
        cases h
        exact .inr ⟨_, hfree, rfl, rfl, hsource⟩
      · cases h
    · cases h

/-- A follow's upsert changes a row or adds one, for a series that is there. -/
theorem upsertFollow_cases {follow : Follow} {drawn id : FollowId} {now : Time}
    (h : upsertFollow db follow drawn now = .ok (next, id)) :
    (∃ p f hf, next = { db with follows := db.follows.updateWhere p f hf } ∧
      ∀ r, (f r).id = r.id ∧ (f r).mangaId = r.mangaId ∧ (f r).createdAt = r.createdAt) ∨
    ∃ row hfree, next = { db with follows := db.follows.insert row hfree } ∧ row.id = drawn ∧
      hasManga db row.mangaId = true := by
  unfold upsertFollow at h
  split at h
  · cases h
    exact .inl ⟨_, _, _, rfl, fun r => ⟨rfl, rfl, rfl⟩⟩
  · dsimp only at h
    split at h
    · next hmanga =>
      split at h
      · next hfree =>
        cases h
        exact .inr ⟨_, hfree, rfl, rfl, hmanga⟩
      · cases h
    · cases h

theorem deleteManga_ok {id : MangaId} (h : deleteManga db id = .ok next) :
    next = db.deleteMangas fun m => m.id == id := by
  unfold deleteManga at h
  split at h <;> cases h
  rfl

/-- A statement fails, or leads to the database it answers. -/
theorem run_cases {β : Type} (db : Database) (answer : Except DomainError (Database × β)) :
    (answer.map Prod.fst).toOption.getD db = db ∨
      ∃ id, answer = .ok ((answer.map Prod.fst).toOption.getD db, id) := by
  cases answer with
  | error e => exact .inl rfl
  | ok found => exact .inr ⟨found.2, rfl⟩

theorem mangas_run (db : Database) (a : Update) :
    Comes (fun m : MangaRow => m.id.uuid) MangaRow.createdAt a.drawn db.mangas.rows
      (a.run db).mangas.rows := by
  cases a with
  | upsertManga manga drawn now =>
    rw [Update.run]
    rcases run_cases db (upsertManga db manga ⟨drawn⟩ now) with h | ⟨id, h⟩
    · rw [h]
      exact .of_subset fun _ h => h
    · obtain ⟨p, f, hf, hnext, hkept⟩ | ⟨row, hfree, hnext, hdrawn, -⟩ := upsertManga_cases h
      · rw [hnext]
        refine Comes.map (f := f) (fun m => ?_) (fun m => (hkept m).2.2) p
        rw [(hkept m).1]
      · rw [hnext]
        exact .cons (congrArg some (congrArg MangaId.uuid hdrawn).symm)
  | upsertFollow follow drawn now =>
    rw [Update.run]
    rcases run_cases db (upsertFollow db follow ⟨drawn⟩ now) with h | ⟨id, h⟩
    · rw [h]
      exact .of_subset fun _ h => h
    · obtain ⟨p, f, hf, hnext, -⟩ | ⟨row, hfree, hnext, -⟩ := upsertFollow_cases h <;>
        rw [hnext] <;> exact .of_subset fun _ h => h
  | deleteManga id =>
    rw [Update.run]
    cases h : deleteManga db id with
    | error e => exact .of_subset fun _ h => h
    | ok next =>
      obtain rfl := deleteManga_ok h
      exact .of_subset fun m hm => (mem_deleteWhere.mp hm).1
  | deleteFollow | markFollowChecked => exact .of_subset fun _ h => h
  | deleteSource id => exact .of_subset fun m hm => (mem_deleteWhere.mp hm).1

theorem follows_run (db : Database) (a : Update) :
    Comes (fun f : Follow => f.id.uuid) Follow.createdAt a.drawn db.follows.rows
      (a.run db).follows.rows := by
  cases a with
  | upsertManga manga drawn now =>
    rw [Update.run]
    rcases run_cases db (upsertManga db manga ⟨drawn⟩ now) with h | ⟨id, h⟩
    · rw [h]
      exact .of_subset fun _ h => h
    · obtain ⟨p, f, hf, hnext, -⟩ | ⟨row, hfree, hnext, -⟩ := upsertManga_cases h <;>
        rw [hnext] <;> exact .of_subset fun _ h => h
  | upsertFollow follow drawn now =>
    rw [Update.run]
    rcases run_cases db (upsertFollow db follow ⟨drawn⟩ now) with h | ⟨id, h⟩
    · rw [h]
      exact .of_subset fun _ h => h
    · obtain ⟨p, f, hf, hnext, hkept⟩ | ⟨row, hfree, hnext, hdrawn, -⟩ := upsertFollow_cases h
      · rw [hnext]
        refine Comes.map (f := f) (fun r => ?_) (fun r => (hkept r).2.2) p
        rw [(hkept r).1]
      · rw [hnext]
        exact .cons (congrArg some (congrArg FollowId.uuid hdrawn).symm)
  | deleteManga id =>
    rw [Update.run]
    cases h : deleteManga db id with
    | error e => exact .of_subset fun _ h => h
    | ok next =>
      obtain rfl := deleteManga_ok h
      exact .of_subset fun f hf => (mem_deleteWhere.mp hf).1
  | deleteFollow => exact .of_subset fun f hf => (mem_deleteWhere.mp hf).1
  | markFollowChecked id now =>
    exact Comes.map (f := fun f : Follow => { f with lastCheckedAt := some now }) (fun _ => rfl)
      (fun _ => rfl) fun f => f.id == id
  | deleteSource id => exact .of_subset fun f hf => (mem_deleteWhere.mp hf).1

end Comes

section Ledgers
variable {ρ : Type} {uuid : ρ → Uuid} {created : ρ → Time} {rows : Database → List ρ}
  {s t : Ledger} {a : Update}

/-- The ids of the rows were drawn for them. -/
def Filed (uuid : ρ → Uuid) (rows : Database → List ρ) (s : Ledger) : Prop :=
  ∀ r ∈ rows s.db, uuid r ∈ s.drawn

theorem step_eq_some (h : s.step a = some t) :
    (∀ id ∈ a.drawn, id ∉ s.drawn) ∧ t = ⟨a.run s.db, a.drawn.toList ++ s.drawn⟩ := by
  unfold Ledger.step at h
  split at h
  · next hfresh =>
    exact ⟨by simpa [Option.all_eq_true] using hfresh, (Option.some.inj h).symm⟩
  · cases h

variable (hcomes : ∀ (db : Database) (a : Update),
  Comes uuid created a.drawn (rows db) (rows (a.run db)))

include hcomes

theorem filed_step (hs : Filed uuid rows s) (h : s.step a = some t) : Filed uuid rows t := by
  obtain ⟨-, rfl⟩ := step_eq_some h
  intro r' hr'
  rcases hcomes s.db a r' hr' with ⟨r, hr, huuid, -⟩ | hdrawn
  · exact List.mem_append_right _ (huuid ▸ hs r hr)
  · exact List.mem_append_left _ (by rw [hdrawn]; exact List.mem_singleton_self _)

/-- A row with an id drawn before is the one it was drawn for. -/
theorem created_reachable (h : Reachable Ledger.step s t) :
    ∀ r' ∈ rows t.db, uuid r' ∈ s.drawn → ∃ r ∈ rows s.db, uuid r = uuid r' ∧
      created r = created r' := by
  have hrun : s.drawn ⊆ t.drawn ∧ ∀ r' ∈ rows t.db, uuid r' ∈ s.drawn →
      ∃ r ∈ rows s.db, uuid r = uuid r' ∧ created r = created r' := by
    refine h.invariant (I := fun u => s.drawn ⊆ u.drawn ∧ ∀ r' ∈ rows u.db, uuid r' ∈ s.drawn →
      ∃ r ∈ rows s.db, uuid r = uuid r' ∧ created r = created r')
      ⟨fun _ h => h, fun r' hr' _ => ⟨r', hr', rfl, rfl⟩⟩ fun u a v ⟨hdrawn, hu⟩ hstep => ?_
    obtain ⟨hfresh, rfl⟩ := step_eq_some hstep
    refine ⟨fun id hid => List.mem_append_right _ (hdrawn hid), fun r' hr' hid => ?_⟩
    rcases hcomes u.db a r' hr' with ⟨r, hr, huuid, hcreated⟩ | hnew
    · obtain ⟨r₀, h₀, huuid₀, hcreated₀⟩ := hu r hr (huuid ▸ hid)
      exact ⟨r₀, h₀, huuid₀.trans huuid, hcreated₀.trans hcreated⟩
    · exact absurd (hdrawn hid) (hfresh _ hnew)
  exact hrun.2

end Ledgers

section Joins
variable {db next : Database}

/-- Every follow has its series, and every series its source. -/
structure Joined (db : Database) : Prop where
  manga : ∀ f ∈ db.follows.rows, hasManga db f.mangaId = true
  source : ∀ m ∈ db.mangas.rows, hasSource db m.sourceId = true

theorem hasManga_iff {id : MangaId} : hasManga db id = true ↔ ∃ m ∈ db.mangas.rows, m.id = id := by
  simp [hasManga]

theorem hasSource_iff {id : SourceId} :
    hasSource db id = true ↔ ∃ s ∈ db.sources.rows, s.id = id := by
  simp [hasSource]

theorem Joined.upsertManga (h : Joined db) {manga : MangaRow} {drawn id : MangaId} {now : Time}
    (hnext : Persistence.upsertManga db manga drawn now = .ok (next, id)) : Joined next := by
  obtain ⟨p, f, hf, rfl, hkept⟩ | ⟨row, hfree, rfl, -, hsource⟩ := upsertManga_cases hnext
  · refine ⟨fun r hr => ?_, fun m hm => ?_⟩
    · obtain ⟨m, hm, hid⟩ := hasManga_iff.mp (h.manga r hr)
      have hmem : (if p m then f m else m) ∈ (db.mangas.updateWhere p f hf).rows :=
        mem_updateWhere.mpr ⟨m, hm, rfl⟩
      refine hasManga_iff.mpr ⟨_, hmem, ?_⟩
      split
      · rw [(hkept m).1, hid]
      · exact hid
    · obtain ⟨m₀, hm₀, rfl⟩ := List.mem_map.mp hm
      split
      · rw [(hkept m₀).2.1]
        exact h.source m₀ hm₀
      · exact h.source m₀ hm₀
  · refine ⟨fun r hr => ?_, fun m hm => ?_⟩
    · obtain ⟨m, hm, hid⟩ := hasManga_iff.mp (h.manga r hr)
      exact hasManga_iff.mpr ⟨m, List.mem_cons_of_mem _ hm, hid⟩
    · rcases List.mem_cons.mp hm with rfl | hm
      · exact hsource
      · exact h.source m hm

theorem Joined.upsertFollow (h : Joined db) {follow : Follow} {drawn id : FollowId} {now : Time}
    (hnext : Persistence.upsertFollow db follow drawn now = .ok (next, id)) : Joined next := by
  obtain ⟨p, f, hf, rfl, hkept⟩ | ⟨row, hfree, rfl, -, hmanga⟩ := upsertFollow_cases hnext
  · refine ⟨fun r hr => ?_, h.source⟩
    obtain ⟨r₀, hr₀, rfl⟩ := List.mem_map.mp hr
    split
    · rw [(hkept r₀).2.1]
      exact h.manga r₀ hr₀
    · exact h.manga r₀ hr₀
  · refine ⟨fun r hr => ?_, h.source⟩
    rcases List.mem_cons.mp hr with rfl | hr
    · exact hmanga
    · exact h.manga r hr

theorem Joined.deleteMangas (h : Joined db) (p : MangaRow → Bool) : Joined (db.deleteMangas p) where
  manga f hf := by
    obtain ⟨hf, hstays⟩ := mem_deleteWhere.mp hf
    obtain ⟨m, hm, hid⟩ := hasManga_iff.mp (h.manga f hf)
    refine hasManga_iff.mpr ⟨m, mem_deleteWhere.mpr ⟨hm, ?_⟩, hid⟩
    simpa [hid] using List.any_eq_false.mp hstays m hm
  source m hm := h.source m (mem_deleteWhere.mp hm).1

theorem Joined.deleteSource (h : Joined db) (id : SourceId) : Joined (db.deleteSource id) where
  manga := (h.deleteMangas _).manga
  source m hm := by
    obtain ⟨hm, hstays⟩ := mem_deleteWhere.mp hm
    obtain ⟨s, hs, hid⟩ := hasSource_iff.mp (h.source m hm)
    refine hasSource_iff.mpr ⟨s, mem_deleteWhere.mpr ⟨hs, ?_⟩, hid⟩
    simpa [hid] using List.any_eq_false.mp hstays s hs

theorem Joined.run (h : Joined db) (a : Update) : Joined (a.run db) := by
  cases a with
  | upsertManga manga drawn now =>
    rw [Update.run]
    rcases run_cases db (Persistence.upsertManga db manga ⟨drawn⟩ now) with hsame | ⟨id, hnext⟩
    · rw [hsame]
      exact h
    · exact h.upsertManga hnext
  | upsertFollow follow drawn now =>
    rw [Update.run]
    rcases run_cases db (Persistence.upsertFollow db follow ⟨drawn⟩ now) with hsame | ⟨id, hnext⟩
    · rw [hsame]
      exact h
    · exact h.upsertFollow hnext
  | deleteManga id =>
    rw [Update.run]
    cases hnext : Persistence.deleteManga db id with
    | error e => exact h
    | ok next =>
      obtain rfl := deleteManga_ok hnext
      exact h.deleteMangas _
  | deleteFollow id => exact ⟨fun f hf => h.manga f (mem_deleteWhere.mp hf).1, h.source⟩
  | markFollowChecked id now =>
    refine ⟨fun f hf => ?_, h.source⟩
    obtain ⟨f₀, hf₀, rfl⟩ := List.mem_map.mp hf
    split
    · exact h.manga f₀ hf₀
    · exact h.manga f₀ hf₀
  | deleteSource id => exact h.deleteSource id

end Joins

section Follows

/-- A follow with the series it watches. -/
structure FollowSummary where
  follow : Follow
  mangaTitle : String
  sourceName : String
  missingCount : ℕ
deriving DecidableEq, Repr

/-- A follow joined with its series and source, and its chapters that have no file. -/
def followSummary (db : Database) (f : Follow) : Option FollowSummary := do
  let m ← db.mangas.rows.find? fun m => m.id == f.mangaId
  let s ← db.sources.rows.find? fun s => s.id == m.sourceId
  let missing := (chaptersOf db.chapters m.id).filter fun c => (db.downloads.get c.id).isNone
  return ⟨f, m.title, s.name, missing.length⟩

def followSummaries (db : Database) : List FollowSummary :=
  db.follows.rows.filterMap (followSummary db)

def FollowSummary.createdAt (s : FollowSummary) : Time := s.follow.createdAt

def FollowSummary.uuid (s : FollowSummary) : Uuid := s.follow.id.uuid

/-- The cursor's row is looked up in the table, the rows behind it in the join. -/
def listFollowSummaries (db : Database) (cursor : Option Cursor) :
    Except DomainError (Page FollowSummary Cursor) := do
  let after ← parseCursor "follow" cursor
  let candidates := match after with
    | some last => (followSummaries db).filter fun s =>
        rowLt (some s.createdAt, some s.uuid.toNat)
          (keyAt Follow.createdAt (fun f => f.id.uuid) db.follows.rows last) == some true
    | none => followSummaries db
  return pageOf pageSize (fun s => .of s.uuid)
    ((sorted .desc FollowSummary.createdAt FollowSummary.uuid candidates).take (pageSize + 1))

variable {db : Database}

theorem follow_of_mem {s : FollowSummary} (h : s ∈ followSummaries db) :
    s.follow ∈ db.follows.rows := by
  obtain ⟨f, hf, hjoin⟩ := List.mem_filterMap.mp h
  obtain ⟨m, -, hjoin⟩ := Option.bind_eq_some_iff.mp hjoin
  obtain ⟨r, -, hjoin⟩ := Option.bind_eq_some_iff.mp hjoin
  cases hjoin
  exact hf

theorem Joined.followSummary (h : Joined db) {f : Follow} (hf : f ∈ db.follows.rows) :
    (Persistence.followSummary db f).map FollowSummary.follow = some f := by
  obtain ⟨m, hm⟩ := Option.isSome_iff_exists.mp (List.find?_isSome.mpr
    (List.any_eq_true.mp (h.manga f hf)))
  obtain ⟨s, hs⟩ := Option.isSome_iff_exists.mp (List.find?_isSome.mpr
    (List.any_eq_true.mp (h.source m (List.mem_of_find?_eq_some hm))))
  rw [Persistence.followSummary, hm, Option.bind_eq_bind, Option.bind_some, hs]
  rfl

/-- The joins lose no follow. -/
theorem Joined.follows (h : Joined db) :
    (followSummaries db).map FollowSummary.follow = db.follows.rows := by
  rw [followSummaries, List.map_filterMap, List.filterMap_congr fun f hf => h.followSummary hf,
    List.filterMap_some]

/-- The row of the cursor is the same in the join. -/
theorem Joined.keyAt (h : Joined db) (last : Uuid) :
    Persistence.keyAt Follow.createdAt (fun f => f.id.uuid) db.follows.rows last =
      Persistence.keyAt FollowSummary.createdAt FollowSummary.uuid (followSummaries db) last := by
  rw [← h.follows, Persistence.keyAt, Persistence.keyAt, List.find?_map]
  cases hfind : (followSummaries db).find? fun s => s.uuid == last with
  | none =>
    have hnone : (followSummaries db).find? ((fun f : Follow => f.id.uuid == last) ∘
      FollowSummary.follow) = none := hfind
    rw [hnone]
    rfl
  | some s =>
    have hsome : (followSummaries db).find? ((fun f : Follow => f.id.uuid == last) ∘
      FollowSummary.follow) = some s := hfind
    rw [hsome]
    rfl

theorem Joined.listFollowSummaries (h : Joined db) {cursor : Option Cursor} {after : Option Uuid}
    (hcursor : parseCursor "follow" cursor = .ok after) :
    Persistence.listFollowSummaries db cursor = .ok (pageOf pageSize (fun s => .of s.uuid)
      (selectSorted .desc FollowSummary.createdAt FollowSummary.uuid (followSummaries db)
        after)) := by
  rw [Persistence.listFollowSummaries, hcursor]
  cases after with
  | none => rfl
  | some last =>
    simp only [h.keyAt]
    rfl

end Follows

section Sorted
variable {ρ κ : Type} [LinearOrder κ] {column : ρ → κ} {id : ρ → Uuid} {rows : Ledger → List ρ}
  {fetch : Ledger → Option Cursor → Except DomainError (Page ρ Cursor)} {I : Ledger → Prop}
  {s : Ledger} {turns : List (Turn Update)} {t : Reading Ledger ρ Cursor}

/-- No row compares with the NULLs of a row that is gone. -/
theorem behind_gone {found : List ρ} {last : Uuid} (h : ∀ r ∈ found, id r ≠ last) (dir : SortDir)
    (r : ρ) : behind dir column id found last r = false := by
  have hkey : keyAt column id found last = (none, none) := by
    rw [keyAt, List.find?_eq_none.mpr fun r hr => by simpa using h r hr]
  cases dir with
  | asc | desc => rw [behind, hkey]; rfl

private theorem selectSorted_gone {found : List ρ} {last : Uuid} (h : ∀ r ∈ found, id r ≠ last)
    (dir : SortDir) : selectSorted dir column id found (some last) = [] := by
  have hnone : found.filter (behind dir column id found last) = [] :=
    List.filter_eq_nil_iff.mpr fun r _ => by rw [behind_gone h]; exact Bool.false_ne_true
  rw [selectSorted, hnone]
  cases dir <;> rfl

/-- A listing in the order of a column that no statement changes reads through the rows. -/
theorem reads_sorted (what : String) (dir : SortDir)
    (hkept : ∀ {s a t}, I s → Ledger.step s a = some t → I t)
    (hid : ∀ {s}, I s → (rows s).Pairwise fun a b => id a ≠ id b)
    (hsame : ∀ {s t r r'}, I s → Reachable Ledger.step s t → r ∈ rows s → r' ∈ rows t →
      id r' = id r → column r' = column r)
    (hfetch : ∀ {s cursor after}, I s → parseCursor what cursor = .ok after → fetch s cursor =
      .ok (pageOf pageSize (fun r => .of (id r)) (selectSorted dir column id (rows s) after)))
    (hs : I s) (h : exec (Reading.turn Ledger.step fetch) (.start s) turns = some t) :
    ReadsThrough Ledger.step rows id (Before dir column id) fetch s turns t := by
  cases dir with
  | asc =>
    have L : Listing Ledger.step rows id (fun r => toLex (column r, (id r).toNat)) pageSize
        Cursor.of fetch I :=
      { size_pos := by decide
        kept := hkept
        ranked := fun hs => by
          refine (hid hs).imp fun hne heq => ?_
          exact toNat_ne hne (congrArg (fun k => (ofLex k).2) heq)
        same := fun hs hreach hr hr' heq => by rw [hsame hs hreach hr hr' heq, heq]
        first := fun hs => hfetch hs (show parseCursor what none = .ok none from rfl)
        resume := fun {s r} hs hr => by
          rw [hfetch hs (parseCursor_of what (id r)), selectSorted,
            filter_behind_eq .asc column (hid hs) hr
              (fun r' => toLex (column r, (id r).toNat) < toLex (column r', (id r').toNat))
              fun r' => decide_eq_true_iff]
          rfl
        lost := fun {s last} hs hgone => by
          rw [hfetch hs (parseCursor_of what last), selectSorted_gone hgone]
          rfl }
    exact L.reads hs h
  | desc =>
    have L : Listing Ledger.step rows id
        (fun r => OrderDual.toDual (toLex (column r, (id r).toNat))) pageSize Cursor.of fetch I :=
      { size_pos := by decide
        kept := hkept
        ranked := fun hs => by
          refine (hid hs).imp fun hne heq => ?_
          exact toNat_ne hne (congrArg (fun k => (ofLex (OrderDual.ofDual k)).2) heq)
        same := fun hs hreach hr hr' heq => by rw [hsame hs hreach hr hr' heq, heq]
        first := fun hs => hfetch hs (show parseCursor what none = .ok none from rfl)
        resume := fun {s r} hs hr => by
          rw [hfetch hs (parseCursor_of what (id r)), selectSorted,
            filter_behind_eq .desc column (hid hs) hr
              (fun r' => OrderDual.toDual (toLex (column r, (id r).toNat)) <
                OrderDual.toDual (toLex (column r', (id r').toNat)))
              fun r' => decide_eq_true_iff.trans OrderDual.toDual_lt_toDual]
          rfl
        lost := fun {s last} hs hgone => by
          rw [hfetch hs (parseCursor_of what last), selectSorted_gone hgone]
          rfl }
    exact L.reads hs h

end Sorted

section Listings
variable {s : Ledger} {turns : List (Turn Update)}

/-- The ids of the rows were drawn for them, and the joins find what they look for. -/
structure Ledger.Sound (s : Ledger) : Prop where
  mangas : Filed (fun m : MangaRow => m.id.uuid) (fun db => db.mangas.rows) s
  follows : Filed (fun f : Follow => f.id.uuid) (fun db => db.follows.rows) s
  joined : Joined s.db

theorem Ledger.Sound.step {t : Ledger} {a : Update} (hs : s.Sound) (h : s.step a = some t) :
    t.Sound where
  mangas := filed_step mangas_run hs.mangas h
  follows := filed_step follows_run hs.follows h
  joined := by
    obtain ⟨-, rfl⟩ := step_eq_some h
    exact hs.joined.run a

theorem manga_created {t : Ledger} {m m' : MangaRow} (hs : s.Sound)
    (h : Reachable Ledger.step s t) (hm : m ∈ s.db.mangas.rows) (hm' : m' ∈ t.db.mangas.rows)
    (hid : m'.id.uuid = m.id.uuid) : m'.createdAt = m.createdAt := by
  obtain ⟨m₀, hm₀, huuid, hcreated⟩ := created_reachable mangas_run h m' hm'
    (hid ▸ hs.mangas m hm)
  have hsame : m₀ = m := primary_inj hm₀ hm (congrArg MangaId.mk (huuid.trans hid))
  rw [← hcreated, hsame]

theorem follow_created {t : Ledger} {f f' : Follow} (hs : s.Sound)
    (h : Reachable Ledger.step s t) (hf : f ∈ s.db.follows.rows) (hf' : f' ∈ t.db.follows.rows)
    (hid : f'.id.uuid = f.id.uuid) : f'.createdAt = f.createdAt := by
  obtain ⟨f₀, hf₀, huuid, hcreated⟩ := created_reachable follows_run h f' hf'
    (hid ▸ hs.follows f hf)
  have hsame : f₀ = f := primary_inj hf₀ hf (congrArg FollowId.mk (huuid.trans hid))
  rw [← hcreated, hsame]

theorem follow_ids_distinct (follows : FollowTable) :
    follows.rows.Pairwise fun a b => a.id.uuid ≠ b.id.uuid :=
  (follows.unique true).imp fun {a _} h heq =>
    h a.id rfl (congrArg some (congrArg FollowId.mk heq.symm))

/-- The series in the order they were added, as a reconciliation reads them. -/
theorem reads_mangas {t : Reading Ledger MangaRow Cursor} (hs : s.Sound)
    (h : exec (Reading.turn Ledger.step fun s => listManga s.db) (.start s) turns = some t) :
    ReadsThrough Ledger.step (fun s => s.db.mangas.rows) (fun m => m.id.uuid)
      (Before .desc MangaRow.createdAt fun m => m.id.uuid) (fun s => listManga s.db) s turns t := by
  refine reads_sorted "manga" .desc (fun hs h => hs.step h)
    (fun {s} _ => ids_distinct s.db.mangas) (fun hs hreach hm hm' hid =>
      manga_created hs hreach hm hm' hid) (fun _ hcursor => ?_) hs h
  simp only [listManga, hcursor]
  rfl

/-- The follows, as the screen of follows reads them. -/
theorem reads_follows {t : Reading Ledger FollowSummary Cursor} (hs : s.Sound)
    (h : exec (Reading.turn Ledger.step fun s => listFollowSummaries s.db) (.start s) turns =
      some t) :
    ReadsThrough Ledger.step (fun s => followSummaries s.db) FollowSummary.uuid
      (Before .desc FollowSummary.createdAt FollowSummary.uuid)
      (fun s => listFollowSummaries s.db) s turns t := by
  refine reads_sorted "follow" .desc (fun hs h => hs.step h) (fun {s} hs => ?_)
    (fun hs hreach hf hf' hid =>
      follow_created hs hreach (follow_of_mem hf) (follow_of_mem hf') hid)
    (fun hs hcursor => hs.joined.listFollowSummaries hcursor) hs h
  have hids := follow_ids_distinct s.db.follows
  rw [← hs.joined.follows, List.pairwise_map] at hids
  exact hids

/-- The series a query admits, in the order they were added, as the library screen reads them. -/
theorem reads_added {γ : Type} [LinearOrder γ] (locale : Locale γ) {query : MangaQuery}
    (hsort : query.sort = .added) (hheld : query.Holdable)
    {t : Reading Ledger MangaSummary Cursor} (hs : s.Sound)
    (h : exec (Reading.turn Ledger.step fun s => listMangaSummaries locale s.db query) (.start s)
      turns = some t) :
    ReadsThrough Ledger.step (fun s => summary locale s.db query) (fun m => m.manga.id.uuid)
      (Before query.dir (fun m => m.manga.createdAt) fun m => m.manga.id.uuid)
      (fun s => listMangaSummaries locale s.db query) s turns t := by
  have hmem : ∀ {db : Database} {m : MangaSummary}, m ∈ summary locale db query →
      m.manga ∈ db.mangas.rows := fun {db m} hm => by
    obtain ⟨row, hrow, hjoin⟩ := List.mem_filterMap.mp hm
    obtain ⟨source, -, rfl⟩ := Option.map_eq_some_iff.mp hjoin
    exact (List.mem_filter.mp hrow).1
  refine reads_sorted "manga" query.dir (fun hs h => hs.step h) (fun {s} hs => ?_)
    (fun hs hreach hm hm' hid => manga_created hs hreach (hmem hm) (hmem hm') hid)
    (fun _ hcursor => ?_) hs h
  · refine List.Pairwise.filterMap _ (fun a b hne a' ha b' hb => ?_)
      ((ids_distinct s.db.mangas).filter (query.admits locale))
    obtain ⟨source, -, rfl⟩ := Option.map_eq_some_iff.mp ha
    obtain ⟨source, -, rfl⟩ := Option.map_eq_some_iff.mp hb
    exact hne
  · simp only [listMangaSummaries, hcursor, bind_pattern hheld, hsort]
    rfl

/-- The listings by age read through their rows, whatever statements run between the pages. -/
theorem listings_read_through {γ : Type} [LinearOrder γ] (locale : Locale γ) {query : MangaQuery}
    (hsort : query.sort = .added) (hheld : query.Holdable) (hs : s.Sound) :
    (∀ t, exec (Reading.turn Ledger.step fun s => listManga s.db) (.start s) turns = some t →
      ReadsThrough Ledger.step (fun s => s.db.mangas.rows) (fun m => m.id.uuid)
        (Before .desc MangaRow.createdAt fun m => m.id.uuid) (fun s => listManga s.db) s turns t) ∧
    (∀ t, exec (Reading.turn Ledger.step fun s => listFollowSummaries s.db) (.start s) turns =
        some t →
      ReadsThrough Ledger.step (fun s => followSummaries s.db) FollowSummary.uuid
        (Before .desc FollowSummary.createdAt FollowSummary.uuid)
        (fun s => listFollowSummaries s.db) s turns t) ∧
    ∀ t, exec (Reading.turn Ledger.step fun s => listMangaSummaries locale s.db query) (.start s)
        turns = some t →
      ReadsThrough Ledger.step (fun s => summary locale s.db query) (fun m => m.manga.id.uuid)
        (Before query.dir (fun m => m.manga.createdAt) fun m => m.manga.id.uuid)
        (fun s => listMangaSummaries locale s.db query) s turns t :=
  ⟨fun _ => reads_mangas hs, fun _ => reads_follows hs,
    fun _ => reads_added locale hsort hheld hs⟩

/-- One source, and nothing in the library yet. -/
def shelf : Ledger := ⟨LinkedDatabase.oneSource.toDatabase, []⟩

theorem shelf_sound : shelf.Sound where
  mangas m hm := by cases hm
  follows f hf := by cases hf
  joined := ⟨fun f hf => (by cases hf), fun m hm => (by cases hm)⟩

/-- A series is added and followed, read on both screens, and removed before the next page. -/
def shelved : List (Turn Update) :=
  [.change (.upsertManga
      ⟨⟨⟨0⟩, LinkedDatabase.guya.id, "series", "Series", .unknown⟩, .ongoing, 0, 0⟩ 3 10),
    .change (.upsertFollow ⟨⟨0⟩, ⟨3⟩, 21600, none, true, 0⟩ 4 11), .fetch,
    .change (.deleteManga ⟨3⟩)]

/-- The library screen asks for the title, the series added last first. -/
def titled : MangaQuery := ⟨some " Series ", none, none, .added, .desc⟩

/-- The titles that are the text between the wildcards. -/
def verbatim : Locale ℕ := ⟨fun title pattern => pattern == "%" ++ title ++ "%", fun _ => 0⟩

theorem shelved_read : ∃ t u v,
    exec (Reading.turn Ledger.step fun s => listManga s.db) (.start shelf) shelved = some t ∧
    exec (Reading.turn Ledger.step fun s => listFollowSummaries s.db) (.start shelf) shelved =
      some u ∧
    exec (Reading.turn Ledger.step fun s => listMangaSummaries verbatim s.db titled) (.start shelf)
      shelved = some v ∧
    (t.read.length = 1 ∧ u.read.map FollowSummary.mangaTitle = ["Series"] ∧ v.read.length = 1) ∧
    ReadsThrough Ledger.step (fun s => s.db.mangas.rows) (fun m => m.id.uuid)
      (Before .desc MangaRow.createdAt fun m => m.id.uuid) (fun s => listManga s.db) shelf
      shelved t ∧
    ReadsThrough Ledger.step (fun s => followSummaries s.db) FollowSummary.uuid
      (Before .desc FollowSummary.createdAt FollowSummary.uuid)
      (fun s => listFollowSummaries s.db) shelf shelved u ∧
    ReadsThrough Ledger.step (fun s => summary verbatim s.db titled) (fun m => m.manga.id.uuid)
      (Before .desc (fun m => m.manga.createdAt) fun m => m.manga.id.uuid)
      (fun s => listMangaSummaries verbatim s.db titled) shelf shelved v := by
  obtain ⟨t, ht, htest⟩ := @exists_exec _ _ (Reading.turn Ledger.step fun s => listManga s.db)
    (.start shelf) shelved (fun t => t.read.length == 1) (by decide)
  obtain ⟨u, hu, hutest⟩ := @exists_exec _ _
    (Reading.turn Ledger.step fun s => listFollowSummaries s.db) (.start shelf) shelved
    (fun u => u.read.map FollowSummary.mangaTitle == ["Series"]) (by decide)
  obtain ⟨v, hv, hvtest⟩ := @exists_exec _ _
    (Reading.turn Ledger.step fun s => listMangaSummaries verbatim s.db titled) (.start shelf)
    shelved (fun v => v.read.length == 1) (by decide)
  obtain ⟨hmangas, hfollows, htitled⟩ := @listings_read_through shelf shelved _ _ verbatim titled
    rfl (by decide) shelf_sound
  exact ⟨t, u, v, ht, hu, hv, ⟨beq_iff_eq.mp htest, beq_iff_eq.mp hutest, beq_iff_eq.mp hvtest⟩,
    hmangas t ht, hfollows u hu, htitled v hv⟩

end Listings

end Nyuka.Persistence
