import Nyuka.Persistence.Catalogue

/-! Reading a repository's index over the network into its catalogue. -/
namespace Nyuka.Runtime
open Tables Table Persistence

/-- One source of an index, as published. -/
structure IndexSource where
  id : String
  name : String
  version : UInt32
  iconUrl : Option String
  downloadUrl : String
  languages : List String
  contentRating : ℤ
  baseUrl : Option String
  minAppVersion : Option String

/-- Why a request got no response. -/
structure SendError where
  text : String
  isConnect : Bool
  isTimeout : Bool

structure Answer where
  status : ℕ
  statusText : String
  contentLength : Option ℕ
  body : Except String Bytes

/-- The network, and how an index and its URLs are read. -/
structure Upstream where
  send : String → Except SendError Answer
  readIndex : Bytes → Except String (List IndexSource)
  parseUrl : String → Except String Unit
  join : String → String → Except String String

/-- Refuses an index larger than this. -/
def maxIndexBytes : ℕ := 8 * 1024 * 1024

variable (up : Upstream) (faults : DbFaults)

/-- The body of a successful response that is not over the limit. -/
def get (url : String) (limit : ℕ) : Except DomainError Bytes := do
  let response ← (up.send url).mapError fun e =>
    .source s!"{url} could not be fetched: {e.text}" (!e.isConnect || e.isTimeout)
  if response.status / 100 ≠ 2 then
    .error (.source s!"{url} returned {response.statusText}" (response.status / 100 = 5))
  else if response.contentLength.any fun len => limit < len then
    .error (.source
      (s!"{url} declares {response.contentLength.getD 0} bytes, over the {limit} byte limit") false)
  else do
    let bytes ← response.body.mapError fun e => .source s!"{url} could not be read: {e}" true
    -- the declared length is a hint that a server can omit or lie about
    if limit < bytes.length then
      .error (.source s!"{url} sent {bytes.length} bytes, over the {limit} byte limit" false)
    else .ok bytes

/-- Resolves an index-relative URL against the index's own. -/
def resolveUrl (indexUrl entry : String) : Except DomainError String := do
  (up.parseUrl indexUrl).mapError fun e => .invalid s!"repository url is not a url: {e}"
  (up.join indexUrl entry).mapError fun e =>
    .source s!"entry url {entry} could not be resolved against the index: {e}" false

/-- Maps an index entry onto the stored shape. -/
def toEntry (repo : SourceRepoId) (indexUrl : String) (source : IndexSource) :
    Except DomainError ListedEntry := do
  let iconUrl ← match source.iconUrl with
    | none => .ok none
    | some url => (resolveUrl up indexUrl url).map some
  let downloadUrl ← resolveUrl up indexUrl source.downloadUrl
  return {
    repoId := repo
    externalId := source.id
    name := source.name
    version := source.version
    iconUrl := iconUrl
    downloadUrl := downloadUrl
    languages := source.languages
    contentRating := .fromI16 source.contentRating
    baseUrl := source.baseUrl
    minAppVersion := source.minAppVersion }

def getRepo (repos : RepoTable) (repo : SourceRepoId) : Except DomainError SourceRepo := do
  faults.meet (.getRepo repo)
  match repos.rows.find? fun r => r.id == repo with
  | some record => .ok record
  | none => .error .notFound

/-- What a repository publishes, as entries of its catalogue. -/
def published (repos : RepoTable) (repo : SourceRepoId) :
    Except DomainError (List ListedEntry) := do
  let record ← getRepo faults repos repo
  let body ← get up record.url maxIndexBytes
  let index ← (up.readIndex body).mapError fun e =>
    .source s!"{record.url} is not a source index: {e}" false
  index.mapM (toEntry up repo record.url)

/-- The repositories and what they offer. -/
structure Catalogues where
  repos : RepoTable
  entries : CatalogueTable

/-- Fetches a repository's index and replaces its catalogue. The inserts of a transaction are made
at the time it began. -/
def refreshRepo (clock : Statement → Time) (repo : SourceRepoId) (c : Catalogues) :
    Catalogues × Except DomainError Unit :=
  match published up faults c.repos repo with
  | .error e => (c, .error e)
  | .ok entries =>
    match replaceRepoEntries faults (clock (.beginTxn repo)) repo entries c.entries with
    | (t, .error e) => ({ c with entries := t }, .error e)
    | (t, .ok _) => ({ c with entries := t }, .ok ())

/-- The repository's index can be fetched, parsed and resolved, and its catalogue replaced. -/
def Refreshes (repos : RepoTable) (repo : SourceRepoId) : Prop :=
  ∃ entries, published up faults repos repo = .ok entries ∧ Replaces faults repo entries

section Outcome
variable {up faults} {clock : Statement → Time} {repo : SourceRepoId} {c : Catalogues}

/-- What is published depends on the repository's URL and on nothing else of the table. -/
theorem published_congr {repos repos' : RepoTable}
    (h : (repos.rows.find? fun r => r.id == repo).map SourceRepo.url =
      (repos'.rows.find? fun r => r.id == repo).map SourceRepo.url) :
    published up faults repos repo = published up faults repos' repo := by
  unfold published getRepo
  cases hrow : repos.rows.find? fun r => r.id == repo with
  | none =>
    rw [hrow, Option.map_none, eq_comm, Option.map_eq_none_iff] at h
    rw [h]
  | some record =>
    rw [hrow, Option.map_some, eq_comm] at h
    obtain ⟨record', hrow', hurl⟩ := Option.map_eq_some_iff.mp h
    rw [hrow']
    cases hmeet : faults.meet (.getRepo repo) with
    | error e => rfl
    | ok u =>
      change (get up record.url maxIndexBytes >>= _) = (get up record'.url maxIndexBytes >>= _)
      rw [hurl]

/-- A refresh replaces the catalogue, or fails and changes nothing. -/
theorem refreshRepo_cases (clock : Statement → Time) (repo : SourceRepoId) (c : Catalogues) :
    (∃ entries t, published up faults c.repos repo = .ok entries ∧ Replaces faults repo entries ∧
      refreshRepo up faults clock repo c = ({ c with entries := t }, .ok ()) ∧
      ∀ other, catalogue t other = if other = repo
        then (entries.map (ListedEntry.toRow repo (clock (.beginTxn repo)))).reverse
        else catalogue c.entries other) ∨
    (¬ Refreshes up faults c.repos repo ∧ ∃ e,
      refreshRepo up faults clock repo c = (c, .error e)) := by
  cases hpublished : published up faults c.repos repo with
  | error e =>
    refine .inr ⟨?_, e, by rw [refreshRepo, hpublished]⟩
    rintro ⟨entries, hentries, -⟩
    rw [hpublished] at hentries
    cases hentries
  | ok entries =>
    rcases replaceRepoEntries_cases faults (clock (.beginTxn repo)) repo entries c.entries with
      ⟨hreplaces, t, ht, hcatalogue⟩ | ⟨hfails, e, ht⟩
    · exact .inl ⟨entries, t, rfl, hreplaces, by simp only [refreshRepo, hpublished, ht],
        hcatalogue⟩
    · refine .inr ⟨?_, e, by simp only [refreshRepo, hpublished, ht]⟩
      rintro ⟨entries', hentries, hreplaces⟩
      rw [hpublished] at hentries
      exact hfails (Except.ok.inj hentries ▸ hreplaces)

end Outcome

end Nyuka.Runtime
