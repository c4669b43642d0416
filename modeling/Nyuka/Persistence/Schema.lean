import Nyuka.Domain.Sources
import Nyuka.Foundation.Cascade
import Nyuka.Foundation.Tables

/-! The tables of sources and of the library, with their unique indexes and foreign keys. -/
namespace Nyuka.Persistence
open Tables Table

/-- PostgreSQL's text holds every character but U+0000. -/
def holdable (text : String) : Bool := !text.toList.contains '\x00'

/-- Binds a text to a parameter of a statement, which fails with one it cannot hold. -/
def bindText (text : String) : Except DomainError Unit :=
  if holdable text then .ok ()
  else .error (.storage "invalid byte sequence for encoding \"UTF8\": 0x00")

@[simp] theorem holdable_iff {text : String} : holdable text = true ↔ '\x00' ∉ text.toList := by
  simp [holdable]

@[simp] theorem bindText_of_holdable {text : String} (h : holdable text = true) :
    bindText text = .ok () := if_pos h

@[simp] theorem bindText_eq_ok {text : String} :
    bindText text = .ok () ↔ holdable text = true := by
  unfold bindText
  split <;> simp [*]

structure KvRow where
  sourceId : SourceId
  key : String
  value : Bytes
deriving DecidableEq, Repr

structure MangaRow extends Manga where
  status : MangaStatus
  createdAt : Time
  updatedAt : Time
deriving DecidableEq, Repr

structure ChapterRow extends Chapter where
  createdAt : Time
deriving DecidableEq, Repr

abbrev RepoTable := Table (keyedByTwo SourceRepo.id SourceRepo.url)
abbrev EntryTable := Table (keyedBy fun e : SourceEntry => (e.repoId, e.externalId))
abbrev SourceTable :=
  Table (keyedByTwo InstalledSource.id fun s : InstalledSource => (s.repoId, s.externalId))
abbrev KvTable := Table (keyedBy fun r : KvRow => (r.sourceId, r.key))
abbrev MangaTable :=
  Table (keyedByTwo (fun m : MangaRow => m.id) fun m : MangaRow => (m.sourceId, m.externalKey))
abbrev ChapterTable :=
  Table (keyedByTwo (fun c : ChapterRow => c.id) fun c : ChapterRow => (c.mangaId, c.externalKey))
abbrev DownloadTable := Table (keyedBy DownloadedChapter.chapterId)
abbrev FollowTable := Table (keyedByTwo Follow.id Follow.mangaId)

structure Database where
  repos : RepoTable
  entries : EntryTable
  sources : SourceTable
  kv : KvTable
  mangas : MangaTable
  chapters : ChapterTable
  downloads : DownloadTable
  follows : FollowTable

namespace Database

def empty : Database where
  repos := .empty
  entries := .empty
  sources := .empty
  kv := .empty
  mangas := .empty
  chapters := .empty
  downloads := .empty
  follows := .empty

end Database

/-- A row of any table. -/
inductive Row where
  | repo (r : SourceRepo)
  | entry (e : SourceEntry)
  | source (s : InstalledSource)
  | kv (r : KvRow)
  | manga (m : MangaRow)
  | chapter (c : ChapterRow)
  | download (d : DownloadedChapter)
  | follow (f : Follow)

/-- A value that a foreign key refers to. -/
inductive Key where
  | repo (id : SourceRepoId)
  | source (id : SourceId)
  | manga (id : MangaId)
  | chapter (id : ChapterId)
deriving DecidableEq

namespace Row

/-- The primary key that other tables refer to. -/
def key : Row → Option Key
  | repo r => some (.repo r.id)
  | source s => some (.source s.id)
  | manga m => some (.manga m.id)
  | chapter c => some (.chapter c.id)
  | entry _ | kv _ | download _ | follow _ => none

/-- The foreign key; each of them is declared `ON DELETE CASCADE`. -/
def refers : Row → Option Key
  | repo _ => none
  | entry e => some (.repo e.repoId)
  | source s => some (.repo s.repoId)
  | kv r => some (.source r.sourceId)
  | manga m => some (.source m.sourceId)
  | chapter c => some (.manga c.mangaId)
  | download d => some (.chapter d.chapterId)
  | follow f => some (.manga f.mangaId)

@[simp] theorem key_eq_repo {r : Row} {id : SourceRepoId} :
    r.key = some (.repo id) ↔ ∃ q, r = .repo q ∧ q.id = id := by
  cases r <;> simp [key]

@[simp] theorem key_eq_source {r : Row} {id : SourceId} :
    r.key = some (.source id) ↔ ∃ s, r = .source s ∧ s.id = id := by
  cases r <;> simp [key]

@[simp] theorem key_eq_manga {r : Row} {id : MangaId} :
    r.key = some (.manga id) ↔ ∃ m, r = .manga m ∧ m.id = id := by
  cases r <;> simp [key]

@[simp] theorem key_eq_chapter {r : Row} {id : ChapterId} :
    r.key = some (.chapter id) ↔ ∃ c, r = .chapter c ∧ c.id = id := by
  cases r <;> simp [key]

end Row

/-- The rows of a database. -/
def Database.rows (db : Database) : Set Row
  | .repo r => r ∈ db.repos.rows
  | .entry e => e ∈ db.entries.rows
  | .source s => s ∈ db.sources.rows
  | .kv r => r ∈ db.kv.rows
  | .manga m => m ∈ db.mangas.rows
  | .chapter c => c ∈ db.chapters.rows
  | .download d => d ∈ db.downloads.rows
  | .follow f => f ∈ db.follows.rows

/-- Every foreign key of the database holds. -/
def Database.Linked (db : Database) : Prop := Cascade.Linked Row.key Row.refers db.rows

end Nyuka.Persistence
