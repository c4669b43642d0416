import Nyuka.Foundation.Results
import Nyuka.Persistence.Schema

/-! What repositories offer: a catalogue of entries for each, which is replaced as a whole. -/
namespace Nyuka.Persistence
open Tables Table

/-- How explicit a series is, as a source reports it. -/
inductive ContentRating where
  | unknown | safe | suggestive | nsfw
deriving DecidableEq, Repr

namespace ContentRating

def asI16 : ContentRating → ℤ
  | unknown => 0
  | safe => 1
  | suggestive => 2
  | nsfw => 3

/-- Unknown values map to the default. -/
def fromI16 : ℤ → ContentRating
  | 1 => safe
  | 2 => suggestive
  | 3 => nsfw
  | _ => unknown

end ContentRating

/-- An entry with all that is shown of it. -/
structure ListedEntry extends SourceEntry where
  iconUrl : Option String
  languages : List String
  contentRating : ContentRating
  baseUrl : Option String
  minAppVersion : Option String
deriving DecidableEq, Repr

/-- A row of `source_repo_entry`. The version is an `integer` column. -/
structure EntryRow where
  repoId : SourceRepoId
  externalId : ExternalKey
  name : String
  version : ℤ
  iconUrl : Option String
  downloadUrl : String
  languages : List String
  contentRating : ℤ
  baseUrl : Option String
  minAppVersion : Option String
  fetchedAt : Time
deriving DecidableEq, Repr

abbrev CatalogueTable := Table (keyedBy fun r : EntryRow => (r.repoId, r.externalId))

/-- `as i32` of a `u32` -/
def asI32 (n : UInt32) : ℤ := if n.toNat < 2 ^ 31 then n.toNat else n.toNat - 2 ^ 32

/-- What an `INSERT` makes of an entry. -/
def ListedEntry.toRow (repo : SourceRepoId) (now : Time) (entry : ListedEntry) : EntryRow where
  repoId := repo
  externalId := entry.externalId
  name := entry.name
  version := asI32 entry.version
  iconUrl := entry.iconUrl
  downloadUrl := entry.downloadUrl
  languages := entry.languages
  contentRating := entry.contentRating.asI16
  baseUrl := entry.baseUrl
  minAppVersion := entry.minAppVersion
  fetchedAt := now

/-- The rows of one repository. -/
def catalogue (t : CatalogueTable) (repo : SourceRepoId) : List EntryRow :=
  t.rows.filter fun r => r.repoId == repo

/-- The statements of a refresh, at each of which the database can fail. -/
inductive Statement where
  | listRepos
  | getRepo (repo : SourceRepoId)
  | beginTxn (repo : SourceRepoId)
  | deleteEntries (repo : SourceRepoId)
  | insertEntry (repo : SourceRepoId) (i : ℕ)
  | commit (repo : SourceRepoId)
  | stamp (repo : SourceRepoId)
deriving DecidableEq

/-- The failure, if any, that each statement meets. -/
abbrev DbFaults := Statement → Option DomainError

/-- A statement that does nothing but fail where it meets a failure. -/
def DbFaults.meet (faults : DbFaults) (statement : Statement) : Except DomainError Unit :=
  match faults statement with
  | some e => .error e
  | none => .ok ()

section Replace
variable (faults : DbFaults) (now : Time) (repo : SourceRepoId)

/-- One `INSERT` for each entry. `i` counts the entries. -/
def insertEntries : ℕ → List ListedEntry → CatalogueTable → Except DomainError CatalogueTable
  | _, [], t => .ok t
  | i, entry :: entries, t => do
    faults.meet (.insertEntry repo i)
    if h : t.Free (entry.toRow repo now) then
      insertEntries (i + 1) entries (t.insert (entry.toRow repo now) h)
    else .error (.storage "duplicate key value violates unique constraint")

/-- The transaction: its rows become visible with the commit. -/
def replaceTxn (entries : List ListedEntry) (t : CatalogueTable) :
    Except DomainError CatalogueTable := do
  faults.meet (.beginTxn repo)
  faults.meet (.deleteEntries repo)
  let t ← insertEntries faults now repo 0 entries (t.deleteWhere fun r => r.repoId == repo)
  faults.meet (.commit repo)
  return t

/-- Replaces a repository's catalogue, or leaves it: a transaction that fails is rolled back. -/
def replaceRepoEntries (entries : List ListedEntry) (t : CatalogueTable) :
    CatalogueTable × Except DomainError ℕ :=
  match replaceTxn faults now repo entries t with
  | .error e => (t, .error e)
  | .ok t => (t, .ok entries.length)

/-- `UPDATE source_repo SET last_refreshed_at = now() WHERE id = $1` -/
def markRepoRefreshed (repos : RepoTable) : RepoTable × Except DomainError Unit :=
  match faults.meet (.stamp repo) with
  | .error e => (repos, .error e)
  | .ok () => (repos.updateWhere (fun r => r.id == repo)
      (fun r => { r with lastRefreshedAt := some now }) (fun i _ => by cases i <;> rfl), .ok ())

/-- Nothing of the transaction fails: no statement meets a failure, and no external id comes
twice. -/
structure Replaces (entries : List ListedEntry) : Prop where
  beginTxn : faults (.beginTxn repo) = none
  deleteEntries : faults (.deleteEntries repo) = none
  insertEntry : ∀ i < entries.length, faults (.insertEntry repo i) = none
  commit : faults (.commit repo) = none
  nodup : (entries.map fun e => e.externalId).Nodup

end Replace

section Transaction
variable {faults : DbFaults} {now : Time} {repo : SourceRepoId} {entries : List ListedEntry}
  {t t' : CatalogueTable} {i : ℕ}

/-- What follows a statement is reached if the statement meets no failure. -/
@[simp] theorem DbFaults.meet_bind_eq_ok {α : Type} {statement : Statement}
    {f : Unit → Except DomainError α} {a : α} :
    (faults.meet statement >>= f) = .ok a ↔ faults statement = none ∧ f () = .ok a := by
  unfold DbFaults.meet
  cases faults statement with
  | none => exact (and_iff_right rfl).symm
  | some e =>
    constructor
    · intro h
      cases h
    · rintro ⟨h, -⟩
      cases h

@[simp] theorem free_toRow {entry : ListedEntry} : t.Free (entry.toRow repo now) ↔
    ∀ r ∈ t.rows, (r.repoId, r.externalId) ≠ (repo, entry.externalId) := free_iff

@[simp] theorem free_insert_toRow {entry other : ListedEntry} {h : t.Free (entry.toRow repo now)} :
    (t.insert (entry.toRow repo now) h).Free (other.toRow repo now) ↔
      t.Free (other.toRow repo now) ∧ entry.externalId ≠ other.externalId := by
  rw [free_toRow, free_toRow, Table.insert, List.forall_mem_cons, and_comm]
  exact and_congr_right fun _ => by simp [ListedEntry.toRow]

/-- The inserts succeed if no row is in the way of another, and put the rows on top. -/
theorem exists_insertEntries
    (hfaults : ∀ j < entries.length, faults (.insertEntry repo (i + j)) = none)
    (hnodup : (entries.map fun e => e.externalId).Nodup)
    (hfree : ∀ e ∈ entries, t.Free (e.toRow repo now)) :
    ∃ t', insertEntries faults now repo i entries t = .ok t' ∧
      t'.rows = (entries.map (ListedEntry.toRow repo now)).reverse ++ t.rows := by
  induction entries generalizing i t with
  | nil => exact ⟨t, rfl, rfl⟩
  | cons entry entries ih =>
    obtain ⟨hnotMem, hnodup⟩ := List.nodup_cons.mp hnodup
    obtain ⟨hentry, hfree⟩ := List.forall_mem_cons.mp hfree
    have hrest : ∀ e ∈ entries, (t.insert (entry.toRow repo now) hentry).Free (e.toRow repo now) :=
      fun e he => free_insert_toRow.mpr
        ⟨hfree e he, fun heq => hnotMem (List.mem_map.mpr ⟨e, he, heq.symm⟩)⟩
    have hshift : ∀ j < entries.length, faults (.insertEntry repo (i + 1 + j)) = none := by
      intro j hj
      rw [Nat.add_assoc, Nat.add_comm 1]
      exact hfaults (j + 1) (Nat.succ_lt_succ hj)
    obtain ⟨t', hinsert, hrows⟩ := ih hshift hnodup hrest
    refine ⟨t', ?_, by rw [hrows, List.map_cons, List.reverse_cons, List.append_assoc]; rfl⟩
    rw [insertEntries, DbFaults.meet_bind_eq_ok, dif_pos hentry]
    exact ⟨hfaults 0 (Nat.succ_pos _), hinsert⟩

theorem of_insertEntries (h : insertEntries faults now repo i entries t = .ok t') :
    (∀ j < entries.length, faults (.insertEntry repo (i + j)) = none) ∧
      (entries.map fun e => e.externalId).Nodup ∧ ∀ e ∈ entries, t.Free (e.toRow repo now) := by
  induction entries generalizing i t with
  | nil => simp
  | cons entry entries ih =>
    rw [insertEntries, DbFaults.meet_bind_eq_ok] at h
    obtain ⟨hmeet, h⟩ := h
    split at h
    · next hentry =>
      obtain ⟨hfaults, hnodup, hrest⟩ := ih h
      have hrest := fun e he => free_insert_toRow.mp (hrest e he)
      refine ⟨fun j hj => ?_, ?_, List.forall_mem_cons.mpr ⟨hentry, fun e he => (hrest e he).1⟩⟩
      · cases j with
        | zero => exact hmeet
        | succ j =>
          rw [Nat.add_comm j, ← Nat.add_assoc]
          exact hfaults j (Nat.lt_of_succ_lt_succ hj)
      · refine List.nodup_cons.mpr ⟨fun hmem => ?_, hnodup⟩
        obtain ⟨e, he, heq⟩ := List.mem_map.mp hmem
        exact (hrest e he).2 heq.symm
    · cases h

theorem catalogue_of_rows {other : SourceRepoId}
    (hrows : t'.rows = (entries.map (ListedEntry.toRow repo now)).reverse ++
      t.rows.filter fun r => !(r.repoId == repo)) :
    catalogue t' other = if other = repo then (entries.map (ListedEntry.toRow repo now)).reverse
      else catalogue t other := by
  rw [catalogue, hrows, List.filter_append, List.filter_filter]
  split
  · next hsame =>
    subst hsame
    have hnew : ∀ r ∈ (entries.map (ListedEntry.toRow other now)).reverse,
        (r.repoId == other) = true := by
      intro r hr
      obtain ⟨e, -, rfl⟩ := List.mem_map.mp (List.mem_reverse.mp hr)
      exact beq_self_eq_true _
    rw [List.filter_eq_self.mpr hnew, List.filter_eq_nil_iff.mpr fun r _ => by simp,
      List.append_nil]
  · next hother =>
    have hnew : ∀ r ∈ (entries.map (ListedEntry.toRow repo now)).reverse,
        ¬ (r.repoId == other) = true := by
      intro r hr hsame
      obtain ⟨e, -, rfl⟩ := List.mem_map.mp (List.mem_reverse.mp hr)
      exact hother (beq_iff_eq.mp hsame).symm
    rw [List.filter_eq_nil_iff.mpr hnew, List.nil_append, catalogue]
    refine List.filter_congr fun r _ => ?_
    by_cases hsame : r.repoId = other
    · simp [hsame, hother]
    · simp [hsame]

/-- The catalogue afterwards is the complete new list or the old one. -/
theorem replaceRepoEntries_cases (faults : DbFaults) (now : Time) (repo : SourceRepoId)
    (entries : List ListedEntry) (t : CatalogueTable) :
    (Replaces faults repo entries ∧ ∃ t',
      replaceRepoEntries faults now repo entries t = (t', .ok entries.length) ∧
        ∀ other, catalogue t' other =
          if other = repo then (entries.map (ListedEntry.toRow repo now)).reverse
          else catalogue t other) ∨
    (¬ Replaces faults repo entries ∧ ∃ e,
      replaceRepoEntries faults now repo entries t = (t, .error e)) := by
  have hfree : ∀ e ∈ entries,
      (t.deleteWhere fun r => r.repoId == repo).Free (e.toRow repo now) := by
    refine fun e _ => free_toRow.mpr fun r hr heq => ?_
    have hother := (mem_deleteWhere.mp hr).2
    rw [(Prod.mk.inj heq).1, beq_self_eq_true] at hother
    cases hother
  by_cases hreplaces : Replaces faults repo entries
  · obtain ⟨t', hinsert, hrows⟩ := @exists_insertEntries faults now repo entries _ 0
      (by simpa only [Nat.zero_add] using hreplaces.insertEntry) hreplaces.nodup hfree
    have htxn : replaceTxn faults now repo entries t = .ok t' := by
      rw [replaceTxn, DbFaults.meet_bind_eq_ok, DbFaults.meet_bind_eq_ok, hinsert]
      refine ⟨hreplaces.beginTxn, hreplaces.deleteEntries, ?_⟩
      exact DbFaults.meet_bind_eq_ok.mpr ⟨hreplaces.commit, rfl⟩
    exact .inl ⟨hreplaces, t', by rw [replaceRepoEntries, htxn],
      fun other => catalogue_of_rows hrows⟩
  · refine .inr ⟨hreplaces, ?_⟩
    unfold replaceRepoEntries
    cases htxn : replaceTxn faults now repo entries t with
    | error e => exact ⟨e, rfl⟩
    | ok t' =>
      rw [replaceTxn, DbFaults.meet_bind_eq_ok, DbFaults.meet_bind_eq_ok, Results.bind_eq_ok]
        at htxn
      obtain ⟨hbegin, hdelete, t'', hinsert, hcommit⟩ := htxn
      obtain ⟨hfaults, hnodup, -⟩ := of_insertEntries hinsert
      simp only [Nat.zero_add] at hfaults
      have hcommitted := (DbFaults.meet_bind_eq_ok.mp hcommit).1
      exact absurd ⟨hbegin, hdelete, hfaults, hcommitted, hnodup⟩ hreplaces

end Transaction

end Nyuka.Persistence
