import Nyuka.Persistence.Schema

/-! What the `DELETE` statements take away. A statement names rows of one table; the foreign
keys' `ON DELETE CASCADE` then deletes from the tables below it. -/
namespace Nyuka.Persistence
open Tables Table Cascade
namespace Database

def deleteChapters (db : Database) (p : ChapterRow → Bool) : Database :=
  { db with
    chapters := db.chapters.deleteWhere p
    downloads := db.downloads.deleteWhere fun d =>
      db.chapters.rows.any fun c => p c && c.id == d.chapterId }

def deleteMangas (db : Database) (p : MangaRow → Bool) : Database :=
  let gone := fun id => db.mangas.rows.any fun m => p m && m.id == id
  { db.deleteChapters (fun c => gone c.mangaId) with
    mangas := db.mangas.deleteWhere p
    follows := db.follows.deleteWhere fun f => gone f.mangaId }

def deleteSources (db : Database) (p : InstalledSource → Bool) : Database :=
  let gone := fun id => db.sources.rows.any fun s => p s && s.id == id
  { db.deleteMangas (fun m => gone m.sourceId) with
    sources := db.sources.deleteWhere p
    kv := db.kv.deleteWhere fun r => gone r.sourceId }

def deleteRepos (db : Database) (p : SourceRepo → Bool) : Database :=
  let gone := fun id => db.repos.rows.any fun r => p r && r.id == id
  { db.deleteSources (fun s => gone s.repoId) with
    repos := db.repos.deleteWhere p
    entries := db.entries.deleteWhere fun e => gone e.repoId }

/-- `DELETE FROM source WHERE id = $1`. -/
def deleteSource (db : Database) (id : SourceId) : Database := db.deleteSources fun s => s.id == id

/-- `DELETE FROM source_repo WHERE id = $1`. -/
def deleteSourceRepo (db : Database) (id : SourceRepoId) : Database :=
  db.deleteRepos fun r => r.id == id

/-! The tables below the one a statement deletes from. -/
section Untouched
variable {db : Database}

private theorem deleteChapters_eq_self {p : ChapterRow → Bool}
    (h : ∀ c ∈ db.chapters.rows, p c = false) :
    db.deleteChapters p = db := by
  have hdownloads : ∀ d ∈ db.downloads.rows,
      (db.chapters.rows.any fun c => p c && c.id == d.chapterId) = false := by
    intro d _
    rw [List.any_eq_false]
    intro c hc
    simp [h c hc]
  rw [deleteChapters, deleteWhere_eq_self h, deleteWhere_eq_self hdownloads]

private theorem deleteMangas_eq_self {p : MangaRow → Bool} (h : ∀ m ∈ db.mangas.rows, p m = false) :
    db.deleteMangas p = db := by
  have hgone : ∀ id, (db.mangas.rows.any fun m => p m && m.id == id) = false := by
    intro id
    rw [List.any_eq_false]
    intro m hm
    simp [h m hm]
  rw [deleteMangas, deleteWhere_eq_self h]
  simp only [hgone]
  rw [deleteChapters_eq_self fun _ _ => rfl, deleteWhere_eq_self fun _ _ => rfl]

theorem deleteSources_eq_self {p : InstalledSource → Bool}
    (h : ∀ s ∈ db.sources.rows, p s = false) : db.deleteSources p = db := by
  have hgone : ∀ id, (db.sources.rows.any fun s => p s && s.id == id) = false := by
    intro id
    rw [List.any_eq_false]
    intro s hs
    simp [h s hs]
  rw [deleteSources, deleteWhere_eq_self h]
  simp only [hgone]
  rw [deleteMangas_eq_self fun _ _ => rfl, deleteWhere_eq_self fun _ _ => rfl]

end Untouched

/-! The statement against what a cascading deletion is. -/
section Doomed
variable {db : Database} {id : SourceRepoId}

/-- The rows the repository's `DELETE` names. -/
def named (id : SourceRepoId) : Set Row := {r | ∃ repo, r = .repo repo ∧ repo.id = id}

/-- The row goes with the repository. -/
def Goes (db : Database) (id : SourceRepoId) (r : Row) : Prop :=
  Doomed Row.key Row.refers db.rows (named id) r

theorem goes_repo {r : SourceRepo} (hr : r ∈ db.repos.rows) :
    Goes db id (.repo r) ↔ r.id = id := by
  rw [Goes, doomed_iff (show Row.repo r ∈ db.rows from hr)]
  constructor
  · rintro (⟨repo, h, hid⟩ | ⟨p, ⟨k, hk, -⟩, -⟩)
    · cases h; exact hid
    · cases hk
  · exact fun h => .inl ⟨r, rfl, h⟩

/-- A row that refers to a key goes exactly when the row that holds it does. -/
theorem goes_below {r : Row} {k : Key} (hr : r ∈ db.rows) (hk : r.refers = some k) :
    Goes db id r ↔ ∃ p ∈ db.rows, p.key = some k ∧ Goes db id p := by
  rw [Goes, doomed_iff hr]
  constructor
  · rintro (⟨repo, rfl, -⟩ | ⟨p, ⟨l, hl, hp⟩, hgoes⟩)
    · cases hk
    · rw [Option.some.inj (hk.symm.trans hl)]
      exact ⟨p, hgoes.mem, hp, hgoes⟩
  · rintro ⟨p, -, hp, hgoes⟩
    exact .inr ⟨p, ⟨k, hk, hp⟩, hgoes⟩

/-- The rows that hold a key are all of one table. -/
theorem goes_below_table {ρ : Type} {row : ρ → Row} {holds : ρ → Prop} {r : Row} {k : Key}
    (hr : r ∈ db.rows) (hk : r.refers = some k)
    (hholds : ∀ p : Row, p.key = some k ↔ ∃ q, p = row q ∧ holds q) :
    Goes db id r ↔ ∃ q, row q ∈ db.rows ∧ Goes db id (row q) ∧ holds q := by
  rw [goes_below hr hk]
  constructor
  · rintro ⟨p, hp, hkey, hgoes⟩
    obtain ⟨q, rfl, hq⟩ := (hholds p).mp hkey
    exact ⟨q, hp, hgoes, hq⟩
  · rintro ⟨q, hmem, hgoes, hq⟩
    exact ⟨row q, hmem, (hholds _).mpr ⟨q, rfl, hq⟩, hgoes⟩

theorem goes_below_repo {r : Row} {repo : SourceRepoId} (hr : r ∈ db.rows)
    (hk : r.refers = some (.repo repo)) :
    Goes db id r ↔ ∃ p ∈ db.repos.rows, p.id = id ∧ p.id = repo := by
  rw [goes_below_table hr hk fun _ => Row.key_eq_repo]
  exact exists_congr fun p => and_congr_right fun hp => and_congr_left' (goes_repo hp)

theorem goes_below_source {r : Row} {source : SourceId} (hr : r ∈ db.rows)
    (hk : r.refers = some (.source source)) :
    Goes db id r ↔ ∃ p ∈ db.sources.rows, Goes db id (.source p) ∧ p.id = source :=
  goes_below_table hr hk fun _ => Row.key_eq_source

theorem goes_below_manga {r : Row} {manga : MangaId} (hr : r ∈ db.rows)
    (hk : r.refers = some (.manga manga)) :
    Goes db id r ↔ ∃ p ∈ db.mangas.rows, Goes db id (.manga p) ∧ p.id = manga :=
  goes_below_table hr hk fun _ => Row.key_eq_manga

theorem goes_below_chapter {r : Row} {chapter : ChapterId} (hr : r ∈ db.rows)
    (hk : r.refers = some (.chapter chapter)) :
    Goes db id r ↔ ∃ p ∈ db.chapters.rows, Goes db id (.chapter p) ∧ p.id = chapter :=
  goes_below_table hr hk fun _ => Row.key_eq_chapter

/-! What each statement of the cascade matches. -/

def goneRepo (db : Database) (id repo : SourceRepoId) : Bool :=
  db.repos.rows.any fun r => r.id == id && r.id == repo

def goneSource (db : Database) (id : SourceRepoId) (source : SourceId) : Bool :=
  db.sources.rows.any fun s => db.goneRepo id s.repoId && s.id == source

def goneManga (db : Database) (id : SourceRepoId) (manga : MangaId) : Bool :=
  db.mangas.rows.any fun m => db.goneSource id m.sourceId && m.id == manga

def goneChapter (db : Database) (id : SourceRepoId) (chapter : ChapterId) : Bool :=
  db.chapters.rows.any fun c => db.goneManga id c.mangaId && c.id == chapter

theorem goneRepo_iff {r : Row} {repo : SourceRepoId} (hr : r ∈ db.rows)
    (hk : r.refers = some (.repo repo)) : db.goneRepo id repo = true ↔ Goes db id r := by
  simp [goes_below_repo hr hk, goneRepo]

theorem goneSource_iff {r : Row} {source : SourceId} (hr : r ∈ db.rows)
    (hk : r.refers = some (.source source)) : db.goneSource id source = true ↔ Goes db id r := by
  rw [goes_below_source hr hk, goneSource, List.any_eq_true]
  refine exists_congr fun s => and_congr_right fun hs => ?_
  simp [goneRepo_iff (show Row.source s ∈ db.rows from hs) rfl]

theorem goneManga_iff {r : Row} {manga : MangaId} (hr : r ∈ db.rows)
    (hk : r.refers = some (.manga manga)) : db.goneManga id manga = true ↔ Goes db id r := by
  rw [goes_below_manga hr hk, goneManga, List.any_eq_true]
  refine exists_congr fun m => and_congr_right fun hm => ?_
  simp [goneSource_iff (show Row.manga m ∈ db.rows from hm) rfl]

private theorem goneChapter_iff {r : Row} {chapter : ChapterId} (hr : r ∈ db.rows)
    (hk : r.refers = some (.chapter chapter)) :
    db.goneChapter id chapter = true ↔ Goes db id r := by
  rw [goes_below_chapter hr hk, goneChapter, List.any_eq_true]
  refine exists_congr fun c => and_congr_right fun hc => ?_
  simp [goneManga_iff (show Row.chapter c ∈ db.rows from hc) rfl]

/-- The statement takes away the repository's row and every row that leads to it, through all
the tables below. -/
theorem rows_deleteSourceRepo (db : Database) (id : SourceRepoId) :
    (db.deleteSourceRepo id).rows = remaining Row.key Row.refers db.rows (named id) := by
  have keeps : ∀ (r : Row) (gone : Bool), (r ∈ db.rows → (gone = true ↔ Goes db id r)) →
      ((r ∈ db.rows ∧ gone = false) ↔
        r ∈ remaining Row.key Row.refers db.rows (named id)) := by
    intro r gone h
    refine and_congr_right fun hr => ?_
    rw [← Bool.not_eq_true]
    exact not_congr (h hr)
  ext r
  cases r with
  | repo r =>
    exact mem_deleteWhere.trans (keeps (.repo r) (r.id == id) fun hr => by simp [goes_repo hr])
  | entry e =>
    exact mem_deleteWhere.trans (keeps (.entry e) _ fun hr => goneRepo_iff hr rfl)
  | source s =>
    exact mem_deleteWhere.trans (keeps (.source s) _ fun hr => goneRepo_iff hr rfl)
  | kv r =>
    exact mem_deleteWhere.trans (keeps (.kv r) _ fun hr => goneSource_iff hr rfl)
  | manga m =>
    exact mem_deleteWhere.trans (keeps (.manga m) _ fun hr => goneSource_iff hr rfl)
  | chapter c =>
    exact mem_deleteWhere.trans (keeps (.chapter c) _ fun hr => goneManga_iff hr rfl)
  | download d =>
    exact mem_deleteWhere.trans (keeps (.download d) _ fun hr => goneChapter_iff hr rfl)
  | follow f =>
    exact mem_deleteWhere.trans (keeps (.follow f) _ fun hr => goneManga_iff hr rfl)

/-- No foreign key is left dangling. -/
theorem linked_deleteSourceRepo (h : db.Linked) : (db.deleteSourceRepo id).Linked := by
  rw [Linked, rows_deleteSourceRepo]
  exact Cascade.Linked.remaining h

end Doomed

end Database

/-- A database that meets its foreign keys. -/
structure LinkedDatabase extends Database where
  linked : toDatabase.Linked

namespace LinkedDatabase

def deleteSourceRepo (db : LinkedDatabase) (id : SourceRepoId) : LinkedDatabase :=
  ⟨db.toDatabase.deleteSourceRepo id, Database.linked_deleteSourceRepo db.linked⟩

/-- The statement removes the repository and what it offers, and nothing else of the database
changes. -/
def OnlyCatalogue (db : LinkedDatabase) (id : SourceRepoId) : Prop :=
  (db.deleteSourceRepo id).toDatabase = { db.toDatabase with
    repos := db.repos.deleteWhere fun r => r.id == id
    entries := db.entries.deleteWhere fun e => e.repoId == id }

variable {db : LinkedDatabase} {id : SourceRepoId}

private theorem goneRepo_eq {r : Row} {repo : SourceRepoId} (hr : r ∈ db.rows)
    (hk : r.refers = some (.repo repo)) : db.goneRepo id repo = (repo == id) := by
  obtain ⟨p, hp, hkey⟩ := db.linked r hr _ hk
  rw [Bool.eq_iff_iff, Database.goneRepo, List.any_eq_true, beq_iff_eq]
  constructor
  · rintro ⟨q, -, hq⟩
    simp only [Bool.and_eq_true, beq_iff_eq] at hq
    exact hq.2.symm.trans hq.1
  · rintro rfl
    obtain ⟨q, rfl, hq⟩ := Row.key_eq_repo.mp hkey
    exact ⟨q, hp, by simp [hq]⟩

/-- Only the catalogue goes exactly when no source is installed from the repository. -/
theorem onlyCatalogue_iff (db : LinkedDatabase) (id : SourceRepoId) :
    db.OnlyCatalogue id ↔ ∀ s ∈ db.sources.rows, s.repoId ≠ id := by
  constructor
  · intro h s hs hrepo
    have hsources : (db.deleteSourceRepo id).sources = db.sources := by
      rw [congrArg Database.sources h]
    have hstays : s ∈ (db.deleteSourceRepo id).sources.rows := hsources ▸ hs
    have halive := (mem_deleteWhere.mp hstays).2
    have hgone : db.goneRepo id s.repoId = true := by
      rw [goneRepo_eq (show Row.source s ∈ db.rows from hs) rfl]
      simpa using hrepo
    exact absurd (halive.symm.trans hgone) (by decide)
  · intro h
    have hsources : db.deleteSources (fun s => db.goneRepo id s.repoId) = db.toDatabase := by
      refine Database.deleteSources_eq_self fun s hs => ?_
      rw [goneRepo_eq (show Row.source s ∈ db.rows from hs) rfl]
      simpa using h s hs
    have hentries : db.entries.deleteWhere (fun e => db.goneRepo id e.repoId) =
        db.entries.deleteWhere fun e => e.repoId == id := by
      refine deleteWhere_congr fun e he => ?_
      exact goneRepo_eq (show Row.entry e ∈ db.rows from he) rfl
    show db.deleteRepos _ = _
    rw [← hentries]
    exact congrArg (fun below : Database => { below with
      repos := db.repos.deleteWhere fun r => r.id == id
      entries := db.entries.deleteWhere fun e => db.goneRepo id e.repoId }) hsources

def community : SourceRepo := ⟨⟨1⟩, "Community", "https://example.test/index.min.json", none, 0⟩

def guya : InstalledSource := ⟨⟨2⟩, community.id, "en.guya", "Guya", 2, ["en"], [.net], none⟩

/-- A database with one source, installed from its one repository. -/
def oneSource : LinkedDatabase where
  toDatabase := { Database.empty with
    repos := Table.empty.insert community (by simp [Table.Free])
    sources := Table.empty.insert guya (by simp [Table.Free]) }
  linked := by
    rintro (r | e | s | r | m | c | d | f) hr k hk
    · cases hk
    · cases hr
    · obtain rfl : s = guya := List.mem_singleton.mp hr
      cases hk
      exact ⟨.repo community, List.mem_singleton.mpr rfl, rfl⟩
    · cases hr
    · cases hr
    · cases hr
    · cases hr
    · cases hr

/-- The installed source goes with its repository. -/
theorem oneSource_not_onlyCatalogue : ¬ ∀ (db : LinkedDatabase) (id : SourceRepoId),
    db.OnlyCatalogue id := by
  intro h
  have hrows := congrArg (fun db : Database => db.sources.rows.length) (h oneSource ⟨1⟩)
  exact absurd hrows (by decide)

end LinkedDatabase
end Nyuka.Persistence
