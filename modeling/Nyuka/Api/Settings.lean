import Nyuka.Api.Problem
import Nyuka.Foundation.Runs
import Nyuka.Packaging.Paths
import Nyuka.Runtime.Install

/-! A source's settings: who writes them, and what a running source reads. -/
namespace Nyuka.Api
open Tables Table Persistence Nyuka.Runtime Runs

/-- The `defaults` import over the `source_kv` table. Without a source it addresses nothing. -/
structure RepositoryDefaults where
  source : Option SourceId

namespace RepositoryDefaults

def new : RepositoryDefaults := ⟨none⟩

/-- Binds this to one source's namespace. -/
def forSource (_ : RepositoryDefaults) (source : SourceId) : RepositoryDefaults := ⟨some source⟩

/-- A read that fails finds nothing. -/
def get (d : RepositoryDefaults) (db : Database) (key : String) : Option Bytes :=
  d.source.bind fun source => (selectSetting db.kv source key).toOption.join

/-- A write that fails is logged and dropped. -/
def set (indexable : String → Bool) (d : RepositoryDefaults) (db : Database) (key : String)
    (value : Bytes) : Database :=
  match d.source with
  | none => db
  | some source => (insertSetting indexable db source key value).toOption.getD db

/-- Modelled as an empty value rather than a delete. -/
def remove (indexable : String → Bool) (d : RepositoryDefaults) (db : Database) (key : String) :
    Database := d.set indexable db key []

end RepositoryDefaults

/-- What `build` hands to the runtime, and the runtime to every invocation of every source. -/
def builtDefaults : RepositoryDefaults := .new

structure SettingRequest where
  key : String
  value : Option String

def maxSettingBytes : ℕ := 64 * 1024

def fieldError (field message : String) : Problem :=
  { Problem.invalid message with errors := [⟨field, message⟩] }

/-- The bytes a request asks to store, or why it is refused. An absent value clears. -/
def settingBytes (decode : String → Option Bytes) (body : SettingRequest) : Except Problem Bytes :=
  if Text.trimMatches Packaging.isWhitespace body.key.toList = [] ∨ 256 < body.key.utf8ByteSize then
    .error (fieldError "/key" "Must be between 1 and 256 characters.")
  else match body.value with
  | none => .ok []
  | some encoded => match decode encoded with
    | none => .error (fieldError "/value" "Must be base64.")
    | some decoded =>
      if maxSettingBytes < decoded.length then
        .error (fieldError "/value" s!"Must be at most {maxSettingBytes} bytes once decoded.")
      else .ok decoded

/-- `PUT /api/v1/sources/{id}/settings`. `lookup` and `store` are what its two statements fail
with, and `decode` is base64. -/
def putSetting (decode : String → Option Bytes) (lookup store : Option DomainError)
    (id : SourceId) (body : SettingRequest) (db : Database) : Database × Except Problem Unit :=
  match lookup with
  | some e => (db, .error (.ofMissing e "source"))
  | none =>
    if hasRow db id then
      match settingBytes decode body with
      | .error problem => (db, .error problem)
      | .ok bytes => match store with
        | some e => (db, .error (.ofDomainError e))
        | none => ({ db with kv := kvSet db.kv id body.key bytes }, .ok ())
    else (db, .error (.ofMissing .notFound "source"))

/-! Runs. -/

inductive Event where
  | install (faults : Faults) (drawn : SourceId) (repo : SourceRepoId) (bytes : Bytes)
  | put (lookup store : Option DomainError) (source : SourceId) (body : SettingRequest)
  | guestSet (source : SourceId) (key : String) (value : Option Bytes)
  | guestGet (source : SourceId) (key : String)

/-- The registry, and beside it the value most recently stored for each source and key by any
of the writers. -/
structure Settings where
  registry : Registry
  stored : SourceId → String → Option Bytes

namespace Settings

def start : Settings := ⟨noSources, fun _ _ => none⟩

/-- What a seeding that took one table to the other has stored. -/
def seeded (kv kv' : KvTable) (stored : SourceId → String → Option Bytes) (source : SourceId)
    (key : String) : Option Bytes :=
  match kvGet kv source key, kvGet kv' source key with
  | none, some value => some value
  | _, _ => stored source key

def store (stored : SourceId → String → Option Bytes) (source : SourceId) (key : String)
    (value : Bytes) : SourceId → String → Option Bytes := fun source' key' =>
  if source' = source ∧ key' = key then some value else stored source' key'

/-- What a guest is answered that runs as the source. -/
def answer (w : Settings) (_source : SourceId) (key : String) : Option Bytes :=
  builtDefaults.get w.registry.db key

/-- A guest call takes place in an invocation, so its source is loaded. -/
def step (host : Compiler) (decode : String → Option Bytes) (indexable : String → Bool)
    (w : Settings) : Event → Option Settings
  | .install faults drawn repo bytes =>
    let registry := (installBytes host faults drawn repo bytes w.registry).1
    some ⟨registry, seeded w.registry.db.kv registry.db.kv w.stored⟩
  | .put lookup store' source body =>
    let (db, result) := putSetting decode lookup store' source body w.registry.db
    some ⟨{ w.registry with db }, match result, settingBytes decode body with
      | .ok (), .ok bytes => store w.stored source body.key bytes
      | _, _ => w.stored⟩
  | .guestSet source key value =>
    if (w.registry.modules.get source).isSome then
      let db := match value with
        | none => builtDefaults.remove indexable w.registry.db key
        | some bytes => builtDefaults.set indexable w.registry.db key bytes
      some ⟨{ w.registry with db }, store w.stored source key (value.getD [])⟩
    else none
  | .guestGet source _ => if (w.registry.modules.get source).isSome then some w else none

/-- A guest's read returns what was last stored for its source and key, whatever is stored for
other sources. -/
def ReadsOwn (w : Settings) : Event → Prop
  | .guestGet source key => w.answer source key = w.stored source key ∧
    ∀ w' : Settings, w'.stored source = w.stored source → w'.answer source key = w.answer source key
  | _ => True

/-- A guest's read is of a key under which nothing has been stored for its source. -/
def Unstored (w : Settings) : Event → Prop
  | .guestGet source key => w.stored source key = none
  | _ => True

section Runs
variable {host : Compiler} {decode : String → Option Bytes} {indexable : String → Bool}
  {w w' : Settings}

/-- Whoever runs is answered nothing. -/
@[simp] theorem answer_eq_none (w : Settings) (source : SourceId) (key : String) :
    w.answer source key = none := rfl

theorem readsOwn_iff (w : Settings) (event : Event) : w.ReadsOwn event ↔ w.Unstored event := by
  cases event with
  | guestGet source key =>
    simp only [ReadsOwn, Unstored, answer_eq_none, implies_true, and_true]
    exact eq_comm
  | install => exact Iff.rfl
  | put => exact Iff.rfl
  | guestSet => exact Iff.rfl

/-- The writers that reach the table are the installer and the requests: as long as no guest
stores anything, the table holds what was last stored. -/
def Agrees (w : Settings) : Prop :=
  ∀ source key, kvGet w.registry.db.kv source key = w.stored source key

theorem installBytes_seeded (host : Compiler) (faults : Faults) (drawn : SourceId)
    (repo : SourceRepoId) (bytes : Bytes) (s : Registry) : ∃ stored seeds,
      Seeded stored seeds s.db.kv (installBytes host faults drawn repo bytes s).1.db.kv := by
  cases hinstall : installBytes host faults drawn repo bytes s with
  | mk s' r =>
    obtain ⟨ended, hleft⟩ := installBytes_cases hinstall
    cases ended with
    | prepare => obtain ⟨rfl, -⟩ := hleft; exact ⟨drawn, [], .refl _ _ _⟩
    | upsert => obtain ⟨rfl, -⟩ := hleft; exact ⟨drawn, [], .refl _ _ _⟩
    | save =>
      obtain ⟨-, -, _, _, stored, -, rfl⟩ := hleft
      exact ⟨stored, [], .refl _ _ _⟩
    | later =>
      obtain ⟨-, -, prepared, _, stored, _, -, hseeded, rfl⟩ := hleft
      exact ⟨stored, prepared.seeds, hseeded⟩
    | done =>
      obtain ⟨-, prepared, _, stored, _, -, -, hseeded, rfl⟩ := hleft
      exact ⟨stored, prepared.seeds, hseeded⟩

theorem seeded_eq {source : SourceId} {seeds : List Seed} {kv kv' : KvTable}
    (h : Seeded source seeds kv kv') {stored : SourceId → String → Option Bytes}
    (hagrees : ∀ other key, kvGet kv other key = stored other key) (other : SourceId)
    (key : String) : kvGet kv' other key = seeded kv kv' stored other key := by
  unfold seeded
  cases hkv : kvGet kv other key with
  | some value => simp [h.keeps other key value hkv, ← hagrees, hkv]
  | none =>
    cases hkv' : kvGet kv' other key with
    | some value => simp
    | none => simp [← hagrees, hkv]

theorem putSetting_ok {lookup store' : Option DomainError} {id : SourceId} {body : SettingRequest}
    {db db' : Database} (h : putSetting decode lookup store' id body db = (db', .ok ())) :
    ∃ bytes, settingBytes decode body = .ok bytes ∧
      db' = { db with kv := kvSet db.kv id body.key bytes } := by
  unfold putSetting at h
  split at h
  · simp at h
  · split at h
    · split at h
      · simp at h
      · next bytes hbytes =>
        split at h
        · simp at h
        · simp only [Prod.mk.injEq, and_true] at h
          exact ⟨bytes, hbytes, h.symm⟩
    · simp at h

/-- A request that is refused or fails stores nothing. -/
theorem putSetting_error {lookup store' : Option DomainError} {id : SourceId}
    {body : SettingRequest} {db db' : Database} {problem : Problem}
    (h : putSetting decode lookup store' id body db = (db', .error problem)) : db' = db := by
  unfold putSetting at h
  split at h
  · simp only [Prod.mk.injEq] at h; exact h.1.symm
  · split at h
    · split at h
      · simp only [Prod.mk.injEq] at h; exact h.1.symm
      · split at h
        · simp only [Prod.mk.injEq] at h; exact h.1.symm
        · simp at h
    · simp only [Prod.mk.injEq] at h; exact h.1.symm

theorem step_agrees {event : Event} (h : w.Agrees) (hguest : ∀ s k v, event ≠ .guestSet s k v)
    (hstep : step host decode indexable w event = some w') : w'.Agrees := by
  cases event with
  | install faults drawn repo bytes =>
    obtain rfl := Option.some.inj hstep
    obtain ⟨stored, seeds, hseeded⟩ := installBytes_seeded host faults drawn repo bytes w.registry
    exact seeded_eq hseeded h
  | put lookup store' source body =>
    cases hput : putSetting decode lookup store' source body w.registry.db with
    | mk db result =>
      rw [step, hput] at hstep
      have hw := Option.some.inj hstep
      cases result with
      | error problem =>
        rw [← hw, putSetting_error hput]
        exact h
      | ok _ =>
        obtain ⟨bytes, hbytes, rfl⟩ := putSetting_ok hput
        rw [← hw]
        intro source' key'
        simp only [hbytes, store, kvGet_kvSet]
        split
        · rfl
        · exact h source' key'
  | guestSet s k v => exact absurd rfl (hguest s k v)
  | guestGet source key =>
    simp only [step, Option.ite_none_right_eq_some, Option.some.injEq] at hstep
    obtain ⟨-, rfl⟩ := hstep
    exact h

end Runs

/-- In a run every guest reads its own settings exactly when no guest reads a key under which
something has been stored for its source. -/
theorem settings_reach_iff (host : Compiler) (decode : String → Option Bytes)
    (indexable : String → Bool) (events : List Event) :
    Each (step host decode indexable) ReadsOwn start events ↔
      Each (step host decode indexable) Unstored start events := by
  have heq : ReadsOwn = Unstored := by
    funext w event
    exact propext (readsOwn_iff w event)
  rw [heq]

/-- A source is installed, a setting is stored for it by a request, and the source reads it. -/
def storedRun : List Event :=
  [.install (fun _ => none) ⟨2⟩ ⟨1⟩ [], .put none none ⟨2⟩ ⟨"lang", some "AmVu"⟩,
    .guestGet ⟨2⟩ "lang"]

/-- The source is not answered what was stored for it. -/
theorem storedRun_not_readsOwn : ¬ ∀ (host : Compiler) (decode : String → Option Bytes)
    (indexable : String → Bool) (events : List Event),
    Each (step host decode indexable) ReadsOwn start events := by
  intro h
  have hrun := h exampleHost (fun _ => some [2, 101, 110]) (fun _ => true) storedRun
  have hread := (((hrun _ rfl).2 _ rfl).2 _ rfl).1.1
  exact absurd hread (by decide)

end Settings
end Nyuka.Api
