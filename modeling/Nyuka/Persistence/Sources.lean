import Nyuka.Persistence.Removal

/-! The statements on installed sources and on their settings. -/
namespace Nyuka.Persistence
open Tables Table

/-- The row of a repository's source, if it is installed. -/
def installed (sources : SourceTable) (repo : SourceRepoId) (external : ExternalKey) :
    Option InstalledSource :=
  sources.rows.find? fun s => s.repoId == repo && s.externalId == external

/-- The columns `ON CONFLICT` assigns. A rate limit that is not declared keeps the stored one. -/
def assign (candidate row : InstalledSource) : InstalledSource :=
  { row with
    name := candidate.name
    version := candidate.version
    languages := candidate.languages
    requiredCapabilities := candidate.requiredCapabilities
    declaredRateLimit := candidate.declaredRateLimit <|> row.declaredRateLimit }

/-- `INSERT INTO source .. ON CONFLICT (repo_id, external_id) DO UPDATE .. RETURNING id`. The id
of an insert is drawn for it; one that is taken fails the statement. -/
def upsertSource (sources : SourceTable) (candidate : InstalledSource) (drawn : SourceId) :
    Except DomainError (SourceTable × SourceId) :=
  match installed sources candidate.repoId candidate.externalId with
  | some row => .ok (sources.updateWhere (fun s => s.id == row.id) (assign candidate)
      (fun i _ => by cases i <;> rfl), row.id)
  | none =>
    if h : sources.Free { candidate with id := drawn } then
      .ok (sources.insert { candidate with id := drawn } h, drawn)
    else .error (.storage "duplicate key value violates unique constraint")

/-- What a source has stored under a key. -/
def kvGet (kv : KvTable) (source : SourceId) (key : String) : Option Bytes :=
  (kv.get (source, key)).map KvRow.value

def kvSet (kv : KvTable) (source : SourceId) (key : String) (value : Bytes) : KvTable :=
  kv.upsert ⟨source, key, value⟩

/-- `SELECT value FROM source_kv WHERE source_id = $1 AND key = $2`. -/
def selectSetting (kv : KvTable) (source : SourceId) (key : String) :
    Except DomainError (Option Bytes) := do
  bindText key
  return kvGet kv source key

def hasRow (db : Database) (source : SourceId) : Bool :=
  db.sources.rows.any fun s => s.id == source

/-- `INSERT INTO source_kv .. ON CONFLICT (source_id, key) DO UPDATE`. `indexable` tells the keys
that an entry of the primary key's index has room for. -/
def insertSetting (indexable : String → Bool) (db : Database) (source : SourceId) (key : String)
    (value : Bytes) : Except DomainError Database := do
  bindText key
  if !indexable key then
    .error (.storage "index row size exceeds btree maximum for index \"source_kv_pkey\"")
  else if !hasRow db source then
    .error (.storage "insert or update on table \"source_kv\" violates foreign key constraint")
  else return { db with kv := kvSet db.kv source key value }

/-- The source can store something under the key. -/
def writable (indexable : String → Bool) (db : Database) (source : SourceId) (key : String) :
    Bool :=
  holdable key && indexable key && hasRow db source

theorem installed_eq_some {sources : SourceTable} {repo : SourceRepoId} {external : ExternalKey}
    {row : InstalledSource} (h : installed sources repo external = some row) :
    row ∈ sources.rows ∧ row.repoId = repo ∧ row.externalId = external := by
  refine ⟨List.mem_of_find?_eq_some h, ?_⟩
  simpa using List.find?_some h

/-- A row after the upsert: the source's own, or one that was there. -/
theorem mem_upsertSource {sources sources' : SourceTable} {candidate : InstalledSource}
    {drawn stored : SourceId} (h : upsertSource sources candidate drawn = .ok (sources', stored)) :
    (∃ s ∈ sources'.rows, s.id = stored) ∧
      ∀ s, s.id ≠ stored → (s ∈ sources'.rows ↔ s ∈ sources.rows) := by
  unfold upsertSource at h
  cases hrow : installed sources candidate.repoId candidate.externalId with
  | some row =>
    simp only [hrow, Except.ok.injEq, Prod.mk.injEq] at h
    obtain ⟨rfl, rfl⟩ := h
    refine ⟨⟨assign candidate row, mem_updateWhere.mpr ⟨row, (installed_eq_some hrow).1, by simp⟩,
      rfl⟩, fun s hs => ?_⟩
    rw [mem_updateWhere]
    constructor
    · rintro ⟨r, hr, rfl⟩
      split at hs
      · next heq => exact absurd (by simpa [assign] using heq) hs
      · next heq => simpa [heq] using hr
    · exact fun hmem => ⟨s, hmem, by simp [hs]⟩
  | none =>
    simp only [hrow] at h
    split at h
    · simp only [Except.ok.injEq, Prod.mk.injEq] at h
      obtain ⟨rfl, rfl⟩ := h
      refine ⟨⟨_, mem_insert.mpr (.inl rfl), rfl⟩, fun s hs => ?_⟩
      rw [mem_insert]
      constructor
      · rintro (rfl | hmem)
        · exact absurd rfl hs
        · exact hmem
      · exact .inr
    · cases h

/-- The row an upsert stores: it has the candidate's key and its columns. -/
theorem upsertSource_row {sources sources' : SourceTable} {candidate : InstalledSource}
    {drawn stored : SourceId} (h : upsertSource sources candidate drawn = .ok (sources', stored)) :
    ∃ row ∈ sources'.rows, row.id = stored ∧ row.repoId = candidate.repoId ∧
      row.externalId = candidate.externalId ∧ assign candidate row = row := by
  unfold upsertSource at h
  cases hrow : installed sources candidate.repoId candidate.externalId with
  | some row =>
    simp only [hrow, Except.ok.injEq, Prod.mk.injEq] at h
    obtain ⟨rfl, rfl⟩ := h
    obtain ⟨hmem, hrepo, hexternal⟩ := installed_eq_some hrow
    refine ⟨assign candidate row, mem_updateWhere.mpr ⟨row, hmem, by simp⟩, rfl, hrepo, hexternal,
      ?_⟩
    cases hlimit : candidate.declaredRateLimit <;> simp [assign, hlimit]
  | none =>
    simp only [hrow] at h
    split at h
    · simp only [Except.ok.injEq, Prod.mk.injEq] at h
      obtain ⟨rfl, rfl⟩ := h
      refine ⟨_, mem_insert.mpr (.inl rfl), rfl, rfl, rfl, ?_⟩
      cases hlimit : candidate.declaredRateLimit <;> simp [assign, hlimit]
    · cases h

/-- The id of a source under another key is not the one an upsert stores under. -/
theorem id_ne_of_upsertSource {sources sources' : SourceTable} {candidate row : InstalledSource}
    {drawn stored : SourceId} (h : upsertSource sources candidate drawn = .ok (sources', stored))
    (hrow : row ∈ sources.rows)
    (hother : (row.repoId, row.externalId) ≠ (candidate.repoId, candidate.externalId)) :
    row.id ≠ stored := by
  intro hid
  unfold upsertSource at h
  cases hexisting : installed sources candidate.repoId candidate.externalId with
  | some existing =>
    simp only [hexisting, Except.ok.injEq, Prod.mk.injEq] at h
    obtain ⟨hmem, hrepo, hexternal⟩ := installed_eq_some hexisting
    obtain rfl := primary_inj hrow hmem (hid.trans h.2.symm)
    exact hother (by rw [hrepo, hexternal])
  | none =>
    simp only [hexisting] at h
    split at h
    · next hfree =>
      simp only [Except.ok.injEq, Prod.mk.injEq] at h
      rcases hfree true row hrow with hnone | htaken
      · cases hnone
      · exact htaken (congrArg some (hid.trans h.2.symm))
    · cases h

theorem selectSetting_toOption (kv : KvTable) (source : SourceId) (key : String) :
    (selectSetting kv source key).toOption.join =
      if holdable key then kvGet kv source key else none := by
  unfold selectSetting bindText
  split <;> rfl

/-- The statement fails, or stores the value. -/
theorem insertSetting_eq (indexable : String → Bool) (db : Database) (source : SourceId)
    (key : String) (value : Bytes) :
    (insertSetting indexable db source key value).toOption.getD db =
      if writable indexable db source key then { db with kv := kvSet db.kv source key value }
      else db := by
  unfold insertSetting writable bindText
  cases holdable key with
  | false => rfl
  | true =>
    cases indexable key with
    | false => rfl
    | true => cases hasRow db source <;> rfl

@[simp] theorem kvGet_kvSet {kv : KvTable} {source source' : SourceId} {key key' : String}
    {value : Bytes} : kvGet (kvSet kv source key value) source' key' =
      if source' = source ∧ key' = key then some value else kvGet kv source' key' := by
  rw [kvGet, kvSet, get_upsert, apply_ite (Option.map KvRow.value)]
  simp [kvGet]

end Nyuka.Persistence
