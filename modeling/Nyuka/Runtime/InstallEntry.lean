import Nyuka.Runtime.Install
import Nyuka.Runtime.Refresh

/-! Installing what a repository offers. The entry says where the package is; which source the
package is says its own manifest. -/
namespace Nyuka.Runtime
open Tables Table Persistence

/-- `SELECT * FROM source_repo_entry WHERE repo_id = $1 AND external_id = $2`. `fault` is what the
statement fails with. -/
def getRepoEntry (fault : Option DomainError) (entries : EntryTable) (repo : SourceRepoId)
    (external : ExternalKey) : Except DomainError SourceEntry :=
  match fault with
  | some e => .error e
  | none => match entries.get (repo, external) with
    | some entry => .ok entry
    | none => .error .notFound

section Install
variable (up : Upstream) (host : Compiler) (fault : Option DomainError) (faults : Faults)
  (drawn : SourceId) (repo : SourceRepoId) (entry : ExternalKey)

/-- The package that is served for an entry. -/
def download (entries : EntryTable) : Except DomainError Bytes := do
  let listed ← getRepoEntry fault entries repo entry
  get up listed.downloadUrl maxPackageBytes

def install (s : Registry) : Registry × Except DomainError InstalledSource :=
  match download up fault repo entry s.db.entries with
  | .error e => (s, .error e)
  | .ok bytes => installBytes host faults drawn repo bytes s

/-- The id in the manifest of a package. -/
def manifestId (bytes : Bytes) : Except LoadError ExternalKey :=
  (load host.toReaders host.js bytes).map fun p => p.manifest.id

end Install

/-- The source of a repository under an external id is the one that was installed: its row, its
package and its module. -/
structure Installs (host : Compiler) (repo : SourceRepoId) (external : ExternalKey) (bytes : Bytes)
    (s' : Registry) (r : InstalledSource) : Prop where
  row : ∃ row ∈ s'.db.sources.rows, row.repoId = repo ∧ row.externalId = external ∧
    row.id = r.id ∧ assign r row = row
  package : s'.packages.get r.id = some ⟨r.id, bytes⟩
  module : ∃ prepared, prepare host bytes = .ok prepared ∧
    s'.modules.get r.id = some (prepared.loaded r.id)

/-- Every installed source but the one of a repository under an external id is as it was. -/
structure KeepsRest (repo : SourceRepoId) (external : ExternalKey) (s s' : Registry) : Prop where
  rows : ∀ row, (row.repoId, row.externalId) ≠ (repo, external) →
    (row ∈ s'.db.sources.rows ↔ row ∈ s.db.sources.rows)
  packages : ∀ row ∈ s.db.sources.rows, (row.repoId, row.externalId) ≠ (repo, external) →
    s'.packages.get row.id = s.packages.get row.id
  settings : ∀ row ∈ s.db.sources.rows, (row.repoId, row.externalId) ≠ (repo, external) →
    ∀ key, kvGet s'.db.kv row.id key = kvGet s.db.kv row.id key
  modules : ∀ row ∈ s.db.sources.rows, (row.repoId, row.externalId) ≠ (repo, external) →
    s'.modules.get row.id = s.modules.get row.id

section Frame
variable {up : Upstream} {host : Compiler} {fault : Option DomainError} {faults : Faults}
  {drawn : SourceId} {repo : SourceRepoId} {entry : ExternalKey} {bytes : Bytes}
  {s s' : Registry} {r : InstalledSource}

private theorem externalId_of_prepare {prepared : PreparedSource}
    (h : prepare host bytes = .ok prepared) :
    manifestId host bytes = .ok prepared.externalId := by
  obtain ⟨pkg, hload, h⟩ := Results.bind_eq_ok.mp h
  obtain ⟨-, -, h⟩ := Results.bind_eq_ok.mp h
  obtain rfl := Results.pure_eq_ok.mp h
  rw [manifestId, Results.mapError_eq_ok.mp hload]
  rfl

/-- A package is installed under the id of its manifest, and no other source is touched. -/
theorem installBytes_frame (h : installBytes host faults drawn repo bytes s = (s', .ok r)) :
    ∃ external, manifestId host bytes = .ok external ∧
      Installs host repo external bytes s' r ∧ KeepsRest repo external s s' := by
  obtain ⟨ended, hleft⟩ := installBytes_cases h
  cases ended with
  | prepare => obtain ⟨-, e, he, -⟩ := hleft; cases he
  | upsert => obtain ⟨-, ⟨e, he⟩, -⟩ := hleft; cases he
  | save => obtain ⟨⟨e, he⟩, -⟩ := hleft; cases he
  | later => obtain ⟨⟨e, he⟩, -⟩ := hleft; cases he
  | done =>
    obtain ⟨-, prepared, sources, stored, kv, hr, ⟨hprep, -, hup⟩, hseeded, rfl⟩ := hleft
    obtain rfl := Except.ok.inj hr
    obtain ⟨row, hrow, hid, hrepo, hexternal, hassign⟩ := upsertSource_row hup
    refine ⟨prepared.externalId, externalId_of_prepare hprep, ⟨?_, ?_, prepared, hprep, ?_⟩, ?_⟩
    · exact ⟨row, hrow, hrepo, hexternal, hid, hassign⟩
    · exact get_upsert.trans (if_pos rfl)
    · exact get_upsert.trans (if_pos rfl)
    · have hne : ∀ other ∈ s.db.sources.rows,
          (other.repoId, other.externalId) ≠ (repo, prepared.externalId) → other.id ≠ stored :=
        fun other hother hkey => id_ne_of_upsertSource hup hother hkey
      refine ⟨fun other hkey => ?_, ?_, ?_, ?_⟩
      · by_cases hsame : other.id = stored
        · refine iff_of_false (fun hmem => ?_) fun hmem => hne other hmem hkey hsame
          obtain rfl := primary_inj hmem hrow (hsame.trans hid.symm)
          exact hkey (by rw [hrepo, hexternal]; rfl)
        · exact (mem_upsertSource hup).2 other hsame
      · exact fun other hother hkey => get_upsert.trans (if_neg (hne other hother hkey))
      · exact fun other hother hkey key => hseeded.kvGet_other (hne other hother hkey)
      · exact fun other hother hkey => get_upsert.trans (if_neg (hne other hother hkey))

/-- What is installed has one external id. -/
theorem Installs.external_unique {external external' : ExternalKey}
    (h : Installs host repo external bytes s' r) (h' : Installs host repo external' bytes s' r) :
    external = external' := by
  obtain ⟨row, hrow, -, rfl, hid, -⟩ := h.row
  obtain ⟨row', hrow', -, rfl, hid', -⟩ := h'.row
  rw [primary_inj hrow hrow' (hid.trans hid'.symm)]

end Frame

/-- An install that succeeds installs the requested entry and keeps every other source exactly if
the package served for the entry carries the entry's id in its manifest. -/
theorem install_requested_iff {up : Upstream} {host : Compiler} {fault : Option DomainError}
    {faults : Faults} {drawn : SourceId} {repo : SourceRepoId} {entry : ExternalKey}
    {s s' : Registry} {r : InstalledSource}
    (h : install up host fault faults drawn repo entry s = (s', .ok r)) :
    ((∃ bytes, download up fault repo entry s.db.entries = .ok bytes ∧
      Installs host repo entry bytes s' r) ∧ KeepsRest repo entry s s') ↔
    ∀ bytes, download up fault repo entry s.db.entries = .ok bytes →
      manifestId host bytes = .ok entry := by
  unfold install at h
  cases hdownload : download up fault repo entry s.db.entries with
  | error e =>
    rw [hdownload] at h
    cases h
  | ok bytes =>
    rw [hdownload] at h
    obtain ⟨external, hexternal, hinstalls, hkeeps⟩ := installBytes_frame h
    constructor
    · rintro ⟨⟨served, hserved, hrequested⟩, -⟩ bytes' hbytes'
      obtain rfl := Except.ok.inj hserved
      obtain rfl := Except.ok.inj hbytes'
      rw [hexternal, hinstalls.external_unique hrequested]
    · intro hcarries
      obtain rfl := Except.ok.inj (hexternal.symm.trans (hcarries bytes rfl))
      exact ⟨⟨bytes, rfl, hinstalls⟩, hkeeps⟩

/-! A repository that serves the package of an installed source for another of its entries. -/

/-- A network on which every URL answers with an empty package. -/
def emptyAnswers : Upstream where
  send _ := .ok ⟨200, "200 OK", none, .ok []⟩
  readIndex _ := .ok []
  parseUrl _ := .ok ()
  join _ url := .ok url

/-- A repository's entry. -/
def offered (external : ExternalKey) : SourceEntry :=
  ⟨⟨1⟩, external, "Example", 4, "https://example.org/en.aix"⟩

/-- Two sources are installed, and the repository offers an entry. -/
def offering (external : ExternalKey) : Registry :=
  { twoSources with db := { twoSources.db with
      entries := Table.empty.insert (offered external) (by simp [Table.Free]) } }

/-- The entry that was asked for is not installed, and the other source is replaced. -/
theorem other_source_replaced : ¬ ∀ (up : Upstream) (host : Compiler) (fault : Option DomainError)
    (faults : Faults) (drawn : SourceId) (repo : SourceRepoId) (entry : ExternalKey)
    (s s' : Registry) (r : InstalledSource),
    install up host fault faults drawn repo entry s = (s', .ok r) →
    (∃ bytes, download up fault repo entry s.db.entries = .ok bytes ∧
      Installs host repo entry bytes s' r) ∧ KeepsRest repo entry s s' := by
  intro h
  have hkeeps := (h emptyAnswers exampleHost none (fun _ => none) ⟨2⟩ ⟨1⟩ "en.other"
    (offering "en.other") _ _ rfl).2
  have hrow := (hkeeps.rows olderExample (by decide)).mpr List.mem_cons_self
  exact absurd hrow (by decide)

/-- The entry of an installed source is upgraded, and the other source left alone. -/
theorem same_source_replaced : ∃ s' r,
    (∃ bytes, download emptyAnswers none ⟨1⟩ "en.example" (offering "en.example").db.entries =
        .ok bytes ∧ Installs exampleHost ⟨1⟩ "en.example" bytes s' r) ∧
      KeepsRest ⟨1⟩ "en.example" (offering "en.example") s' ∧ r.version = 4 ∧
      otherExample ∈ s'.db.sources.rows := by
  have hreplaced := (@install_requested_iff emptyAnswers exampleHost none (fun _ => none) ⟨2⟩ ⟨1⟩
    "en.example" (offering "en.example") _ _ rfl).mpr fun bytes hbytes => by
      obtain rfl := Except.ok.inj hbytes
      rfl
  exact ⟨_, _, hreplaced.1, hreplaced.2, rfl,
    (hreplaced.2.rows otherExample (by decide)).mpr (List.mem_cons_of_mem _ List.mem_cons_self)⟩

end Nyuka.Runtime
