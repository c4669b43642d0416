import Nyuka.Runtime.Registry

/-! What an install changes, stage by stage. -/
namespace Nyuka.Runtime
open Tables Table Persistence

/-- Seeding only adds: what is stored stays, and what is new is a declared default of the
source under a key with nothing stored. -/
structure Seeded (source : SourceId) (seeds : List Seed) (kv kv' : KvTable) : Prop where
  keeps : ∀ other key value, kvGet kv other key = some value → kvGet kv' other key = some value
  adds : ∀ other key, kvGet kv other key = none → kvGet kv' other key = none ∨
    other = source ∧ ∃ seed ∈ seeds, seed.key = key ∧ kvGet kv' other key = some seed.value

theorem Seeded.refl (source : SourceId) (seeds : List Seed) (kv : KvTable) :
    Seeded source seeds kv kv :=
  ⟨fun _ _ _ h => h, fun _ _ h => .inl h⟩

theorem Seeded.cons {source : SourceId} {seed : Seed} {seeds : List Seed} {kv kv' : KvTable}
    (h : Seeded source seeds kv kv') : Seeded source (seed :: seeds) kv kv' := by
  refine ⟨h.keeps, fun other key hnone => (h.adds other key hnone).imp_right ?_⟩
  rintro ⟨hsource, found, hfound, hkey, hvalue⟩
  exact ⟨hsource, found, .tail _ hfound, hkey, hvalue⟩

theorem Seeded.set {source : SourceId} {seed : Seed} {seeds : List Seed} {kv kv' : KvTable}
    (hnone : kvGet kv source seed.key = none)
    (h : Seeded source seeds (kvSet kv source seed.key seed.value) kv') :
    Seeded source (seed :: seeds) kv kv' := by
  refine ⟨fun other key value hvalue => h.keeps other key value ?_, fun other key hother => ?_⟩
  · rw [kvGet_kvSet, if_neg, hvalue]
    rintro ⟨rfl, rfl⟩
    rw [hnone] at hvalue
    cases hvalue
  · by_cases heq : other = source ∧ key = seed.key
    · obtain ⟨rfl, rfl⟩ := heq
      have hset := h.keeps other seed.key seed.value (by simp)
      exact .inr ⟨rfl, seed, .head _, rfl, hset⟩
    · exact h.cons.adds other key (by rw [kvGet_kvSet, if_neg heq, hother])

theorem seeded_seedSettings (faults : Faults) (source : SourceId) (i : ℕ) (seeds : List Seed)
    (kv : KvTable) : Seeded source seeds kv (seedSettings faults source i seeds kv).1 := by
  induction seeds generalizing i kv with
  | nil => exact .refl source [] kv
  | cons seed seeds ih =>
    unfold seedSettings
    split
    · exact .refl source _ kv
    · split
      · exact (ih (i + 1) kv).cons
      · next hnone =>
        split
        · exact .refl source _ kv
        · exact (ih (i + 1) _).set (by simpa using hnone)

/-- The stage an install ended at. -/
inductive Ended where
  | prepare | upsert | save | later | done
deriving DecidableEq

section Cases
variable (host : Compiler) (faults : Faults) (drawn : SourceId) (repo : SourceRepoId)
  (bytes : Bytes) (s s' : Registry) (r : Except DomainError InstalledSource)

/-- The package is prepared and its row upserted. -/
def Upserts (prepared : PreparedSource) (sources : SourceTable) (stored : SourceId) : Prop :=
  prepare host bytes = .ok prepared ∧ faults .upsert = none ∧
    upsertSource s.db.sources (prepared.row drawn repo) drawn = .ok (sources, stored)

/-- What an install that ended at a stage has left. -/
def Left : Ended → Prop
  | .prepare => s' = s ∧ ∃ e, r = .error e ∧ prepare host bytes = .error e
  | .upsert => s' = s ∧ (∃ e, r = .error e) ∧ ∃ prepared, prepare host bytes = .ok prepared ∧
    ∀ sources stored, ¬ Upserts host faults drawn repo bytes s prepared sources stored
  | .save => (∃ e, r = .error e) ∧ faults .save ≠ none ∧ ∃ prepared sources stored,
    Upserts host faults drawn repo bytes s prepared sources stored ∧
    s' = { s with db := { s.db with sources } }
  | .later => (∃ e, r = .error e) ∧ faults .save = none ∧ ∃ prepared sources stored kv,
    Upserts host faults drawn repo bytes s prepared sources stored ∧
    Seeded stored prepared.seeds s.db.kv kv ∧
    s' = { s with db := { s.db with sources, kv }, packages := s.packages.upsert ⟨stored, bytes⟩ }
  | .done => faults .save = none ∧ ∃ prepared sources stored kv,
    r = .ok (prepared.row stored repo) ∧
    Upserts host faults drawn repo bytes s prepared sources stored ∧
    Seeded stored prepared.seeds s.db.kv kv ∧
    s' = {
      db := { s.db with sources, kv }
      packages := s.packages.upsert ⟨stored, bytes⟩
      modules := s.modules.upsert (prepared.loaded stored) }

end Cases

section Error
variable {host : Compiler} {faults : Faults} {drawn : SourceId} {repo : SourceRepoId}
  {bytes : Bytes} {s s' : Registry} {r : Except DomainError InstalledSource}

/-- An install ends at one of the stages, and leaves what the stages before it have done. -/
theorem installBytes_cases (h : installBytes host faults drawn repo bytes s = (s', r)) :
    ∃ ended, Left host faults drawn repo bytes s s' r ended := by
  unfold installBytes at h
  cases hprep : prepare host bytes with
  | error e =>
    simp only [hprep, Prod.mk.injEq] at h
    obtain ⟨rfl, rfl⟩ := h
    exact ⟨.prepare, rfl, e, rfl, hprep⟩
  | ok prepared =>
    cases hfault : faults .upsert with
    | some e =>
      simp only [hprep, hfault, Prod.mk.injEq] at h
      obtain ⟨rfl, rfl⟩ := h
      refine ⟨.upsert, rfl, ⟨e, rfl⟩, prepared, hprep, fun _ _ hup => ?_⟩
      cases hfault.symm.trans hup.2.1
    | none =>
      cases hup : upsertSource s.db.sources (prepared.row drawn repo) drawn with
      | error e =>
        simp only [hprep, hfault, hup, Prod.mk.injEq] at h
        obtain ⟨rfl, rfl⟩ := h
        refine ⟨.upsert, rfl, ⟨e, rfl⟩, prepared, hprep, fun _ _ hups => ?_⟩
        cases hup.symm.trans hups.2.2
      | ok result =>
        obtain ⟨sources, stored⟩ := result
        have hups : Upserts host faults drawn repo bytes s prepared sources stored :=
          ⟨hprep, hfault, hup⟩
        cases hsave : faults .save with
        | some e =>
          simp only [hprep, hfault, hup, hsave, Prod.mk.injEq] at h
          obtain ⟨rfl, rfl⟩ := h
          exact ⟨.save, ⟨_, rfl⟩, by simp [hsave], prepared, sources, stored, hups, rfl⟩
        | none =>
          have hseeded := seeded_seedSettings faults stored 0 prepared.seeds s.db.kv
          cases hkv : seedSettings faults stored 0 prepared.seeds s.db.kv with
          | mk kv outcome =>
            rw [hkv] at hseeded
            cases outcome with
            | error e =>
              simp only [hprep, hfault, hup, hsave, hkv, Prod.mk.injEq] at h
              obtain ⟨rfl, rfl⟩ := h
              exact ⟨.later, ⟨_, rfl⟩, hsave, prepared, sources, stored, kv, hups, hseeded, rfl⟩
            | ok _ =>
              cases hreg : faults .register with
              | some e =>
                simp only [hprep, hfault, hup, hsave, hkv, hreg, Prod.mk.injEq] at h
                obtain ⟨rfl, rfl⟩ := h
                exact ⟨.later, ⟨_, rfl⟩, hsave, prepared, sources, stored, kv, hups, hseeded, rfl⟩
              | none =>
                simp only [hprep, hfault, hup, hsave, hkv, hreg, Prod.mk.injEq] at h
                obtain ⟨rfl, rfl⟩ := h
                exact ⟨.done, hsave, prepared, sources, stored, kv, rfl, hups, hseeded, rfl⟩

/-- Whatever belongs to another source than `stored` is as it was. -/
structure KeepsOthers (stored : SourceId) (s s' : Registry) : Prop where
  rows : ∀ row, row.id ≠ stored → (row ∈ s'.db.sources.rows ↔ row ∈ s.db.sources.rows)
  packages : ∀ id, id ≠ stored → s'.packages.get id = s.packages.get id
  settings : ∀ id key, id ≠ stored → kvGet s'.db.kv id key = kvGet s.db.kv id key
  tables : s'.db = { s.db with sources := s'.db.sources, kv := s'.db.kv }

theorem Seeded.kvGet_other {source other : SourceId} {seeds : List Seed} {kv kv' : KvTable}
    {key : String} (h : Seeded source seeds kv kv') (hne : other ≠ source) :
    kvGet kv' other key = kvGet kv other key := by
  cases hget : kvGet kv other key with
  | some value => exact h.keeps other key value hget
  | none =>
    rcases h.adds other key hget with hnone | ⟨hsource, -⟩
    · exact hnone
    · exact absurd hsource hne

/-- Either the package does not prepare or its row cannot be upserted. -/
def EndsEarly (host : Compiler) (faults : Faults) (drawn : SourceId) (repo : SourceRepoId)
    (bytes : Bytes) (s : Registry) : Prop :=
  ∀ prepared sources stored, ¬ Upserts host faults drawn repo bytes s prepared sources stored

/-- What an install that failed leaves behind: never a change of the modules or of another
source; nothing at all when it failed before the row; else the row, and once the package is
saved the package and declared defaults under keys with nothing stored. -/
structure FailureLeaves (host : Compiler) (faults : Faults) (drawn : SourceId)
    (repo : SourceRepoId) (bytes : Bytes) (s s' : Registry) : Prop where
  modules : s'.modules = s.modules
  early : EndsEarly host faults drawn repo bytes s → s' = s
  upserted : ∀ prepared sources stored, Upserts host faults drawn repo bytes s prepared sources
    stored → s'.db.sources = sources ∧ KeepsOthers stored s s' ∧
      (faults .save ≠ none → s'.packages = s.packages ∧ s'.db.kv = s.db.kv) ∧
      (faults .save = none → s'.packages = s.packages.upsert ⟨stored, bytes⟩ ∧
        Seeded stored prepared.seeds s.db.kv s'.db.kv)

theorem Upserts.unique {prepared prepared' : PreparedSource} {sources sources' : SourceTable}
    {stored stored' : SourceId}
    (h : Upserts host faults drawn repo bytes s prepared sources stored)
    (h' : Upserts host faults drawn repo bytes s prepared' sources' stored') :
    prepared = prepared' ∧ sources = sources' ∧ stored = stored' := by
  obtain ⟨hprep, -, hup⟩ := h
  obtain ⟨hprep', -, hup'⟩ := h'
  obtain rfl := Except.ok.inj (hprep.symm.trans hprep')
  have hresult := Except.ok.inj (hup.symm.trans hup')
  exact ⟨rfl, (Prod.mk.inj hresult).1, (Prod.mk.inj hresult).2⟩

private theorem keepsOthers_of_upsert (saved : Bytes) {candidate : InstalledSource}
    {sources : SourceTable}
    {stored : SourceId} (hup : upsertSource s.db.sources candidate drawn = .ok (sources, stored))
    (hsources : s'.db.sources = sources)
    (hpackages : s'.packages = s.packages ∨ s'.packages = s.packages.upsert ⟨stored, saved⟩)
    {seeds : List Seed} (hkv : Seeded stored seeds s.db.kv s'.db.kv)
    (htables : s'.db = { s.db with sources := s'.db.sources, kv := s'.db.kv }) :
    KeepsOthers stored s s' where
  rows row hrow := by rw [hsources]; exact (mem_upsertSource hup).2 row hrow
  packages id hid := by
    rcases hpackages with h | h
    · rw [h]
    · rw [h, get_upsert, if_neg hid]
  settings _ _ hid := hkv.kvGet_other hid
  tables := htables

/-- An install that fails leaves what its stages before the failure have done, and no module is
touched. -/
theorem installBytes_failure {e : DomainError}
    (h : installBytes host faults drawn repo bytes s = (s', .error e)) :
    FailureLeaves host faults drawn repo bytes s s' := by
  obtain ⟨ended, hleft⟩ := installBytes_cases h
  cases ended with
  | prepare =>
    obtain ⟨rfl, e, -, hprep⟩ := hleft
    refine ⟨rfl, fun _ => rfl, fun prepared sources stored hup => ?_⟩
    cases hprep.symm.trans hup.1
  | upsert =>
    obtain ⟨rfl, -, prepared, hprep, hnone⟩ := hleft
    refine ⟨rfl, fun _ => rfl, fun prepared' sources stored hup => ?_⟩
    obtain rfl := Except.ok.inj (hprep.symm.trans hup.1)
    exact absurd hup (hnone sources stored)
  | save =>
    obtain ⟨-, hsave, prepared, sources, stored, hup, rfl⟩ := hleft
    refine ⟨rfl, fun hearly => absurd hup (hearly prepared sources stored), ?_⟩
    intro prepared' sources' stored' hup'
    obtain ⟨rfl, rfl, rfl⟩ := hup.unique hup'
    refine ⟨rfl, ?_, fun _ => ⟨rfl, rfl⟩, fun hnone => absurd hnone hsave⟩
    exact keepsOthers_of_upsert bytes hup.2.2 rfl (.inl rfl) (.refl stored [] _) rfl
  | later =>
    obtain ⟨-, hsave, prepared, sources, stored, kv, hup, hseeded, rfl⟩ := hleft
    refine ⟨rfl, fun hearly => absurd hup (hearly prepared sources stored), ?_⟩
    intro prepared' sources' stored' hup'
    obtain ⟨rfl, rfl, rfl⟩ := hup.unique hup'
    refine ⟨rfl, ?_, fun hne => absurd hsave hne, fun _ => ⟨rfl, hseeded⟩⟩
    exact keepsOthers_of_upsert bytes hup.2.2 rfl (.inr rfl) hseeded rfl
  | done =>
    obtain ⟨-, _, _, _, _, hr, -⟩ := hleft
    cases hr

end Error

/-! Installs whose package cannot be saved. -/

def exampleHost : Compiler where
  toReaders := importing ("net", "send")
  js := false
  compile _ := .ok ()

def noSources : Registry := ⟨.empty, .empty, .empty⟩

def failsAt (stage : Stage) : Faults := fun met =>
  if met = stage then some (.storage "No space left on device") else none

/-- The install that fails to save leaves the row it has inserted. -/
theorem unsaved_install_leaves_row : ¬ ∀ (host : Compiler) (faults : Faults) (drawn : SourceId)
    (repo : SourceRepoId) (bytes : Bytes) (s s' : Registry) (e : DomainError),
    installBytes host faults drawn repo bytes s = (s', .error e) → s' = s := by
  intro h
  have hsame := h exampleHost (failsAt .save) ⟨2⟩ ⟨1⟩ [] noSources _ _ rfl
  have hrows := congrArg (fun s : Registry => s.db.sources.rows.length) hsame
  exact absurd hrows (by decide)

/-- The source of the package, in its last version. -/
def olderExample : InstalledSource := ⟨⟨3⟩, ⟨1⟩, "en.example", "Example", 3, ["en"], [.net], none⟩

/-- Another source of the repository. -/
def otherExample : InstalledSource := ⟨⟨4⟩, ⟨1⟩, "en.third", "Third", 1, ["en"], [], none⟩

/-- Both sources are installed, with their packages, modules and a setting of the other one. -/
def twoSources : Registry where
  db := { Database.empty with
    sources := (Table.empty.insert otherExample (by decide)).insert olderExample (by decide)
    kv := kvSet .empty ⟨4⟩ "lang" [1] }
  packages := (Table.empty.upsert ⟨⟨3⟩, [3]⟩).upsert ⟨⟨4⟩, [1]⟩
  modules := (Table.empty.upsert ⟨⟨3⟩, ⟨"en.example", "Example", 3, ["en"]⟩, [], [.net], none,
    none⟩).upsert ⟨⟨4⟩, ⟨"en.third", "Third", 1, ["en"]⟩, [], [], none, none⟩

/-- An upgrade whose package cannot be saved: the row is the new version's, and the saved package
the old one's. -/
theorem unsaved_upgrade_failure : ∃ s', FailureLeaves exampleHost (failsAt .save) ⟨2⟩ ⟨1⟩ []
    twoSources s' ∧ (∃ row ∈ s'.db.sources.rows, row.id = ⟨3⟩ ∧ row.version = 4) ∧
      s'.packages.get ⟨3⟩ = some ⟨⟨3⟩, [3]⟩ ∧ otherExample ∈ s'.db.sources.rows := by
  refine ⟨_, installBytes_failure (e := .storage
    "saving the source package: storage error: No space left on device") rfl, ?_, rfl, ?_⟩
  · exact ⟨{ olderExample with version := 4 }, List.mem_cons_self, rfl, rfl⟩
  · exact List.mem_cons_of_mem _ List.mem_cons_self

end Nyuka.Runtime
