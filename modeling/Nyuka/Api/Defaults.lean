import Nyuka.Api.Settings
import Nyuka.Runtime.Defaults

/-! The settings of a source in the database, beside the same settings in memory. -/
namespace Nyuka.Api
open Tables Table Persistence Nyuka.Runtime

/-- The store bound to a source. -/
def repositoryDefaults (indexable : String → Bool) (source : SourceId) : Defaults Database where
  get db key := (RepositoryDefaults.new.forSource source).get db key
  set db key value := (RepositoryDefaults.new.forSource source).set indexable db key value
  remove db key := (RepositoryDefaults.new.forSource source).remove indexable db key

/-- What the source has stored under a key that the database can hold. -/
def found (db : Database) (source : SourceId) (key : String) : Option Bytes :=
  if holdable key then kvGet db.kv source key else none

/-- The settings of a source, kept in memory. -/
def inMemory (db : Database) (source : SourceId) : MemoryDefaults := ⟨found db source⟩

/-- No key is read whose last write was a removal. A key that the source cannot store anything
under, because it has no row or the key is refused, is not read after a write of anything but what
it held from the start. -/
def ReadsBack (indexable : String → Bool) (db : Database) (source : SourceId)
    (calls : List SettingCall) : Prop :=
  ∀ before key rest, calls = before ++ .get key :: rest →
    if writable indexable db source key then lastWrite key before ≠ some none
    else ∀ value, lastWrite key before = some value → value = found db source key

/-- What a key holds in the database: a removal leaves an empty value. -/
def heldAfter (row : Bool) (write : Option (Option Bytes)) (old : Option Bytes) : Option Bytes :=
  if row then write.elim old fun value => some (value.getD []) else old

@[simp] theorem heldAfter_none (row : Bool) (old : Option Bytes) :
    heldAfter row none old = old := by
  cases row <;> rfl

@[simp] theorem heldAfter_false (write : Option (Option Bytes)) (old : Option Bytes) :
    heldAfter false write old = old := rfl

@[simp] theorem heldAfter_true_some (value old : Option Bytes) :
    heldAfter true (some value) old = some (value.getD []) := rfl

section Stores
variable {indexable : String → Bool} {db : Database} {source : SourceId} {key : String}

theorem get_eq (db : Database) (key : String) :
    (repositoryDefaults indexable source).get db key = found db source key :=
  selectSetting_toOption db.kv source key

theorem set_eq (db : Database) (key : String) (value : Bytes) :
    (repositoryDefaults indexable source).set db key value =
      if writable indexable db source key then { db with kv := kvSet db.kv source key value }
      else db :=
  insertSetting_eq indexable db source key value

theorem found_set (k : String) (value : Bytes) :
    found ((repositoryDefaults indexable source).set db k value) source key =
      if writable indexable db source key ∧ k = key then some value else found db source key := by
  rw [set_eq]
  by_cases hk : k = key
  · subst hk
    cases hwritable : writable indexable db source k with
    | false => simp
    | true =>
      have hheld : holdable k = true := by
        simp only [writable, Bool.and_eq_true] at hwritable
        exact hwritable.1.1
      simp [found, hheld]
  · simp only [hk, and_false, if_false]
    split
    · simp [found, Ne.symm hk]
    · rfl

@[simp] private theorem sources_set (k : String) (value : Bytes) :
    ((repositoryDefaults indexable source).set db k value).sources = db.sources := by
  rw [set_eq]
  split <;> rfl

@[simp] theorem sources_call (call : SettingCall) :
    ((repositoryDefaults indexable source).call db call).sources = db.sources := by
  cases call with
  | get k => rfl
  | set k value => exact sources_set k value
  | remove k => exact sources_set k []

private theorem found_call (call : SettingCall) :
    found ((repositoryDefaults indexable source).call db call) source key =
      heldAfter (writable indexable db source key) (call.write key) (found db source key) := by
  cases call with
  | get k => exact (heldAfter_none _ _).symm
  | set k value =>
    refine (found_set k value).trans ?_
    cases writable indexable db source key <;> by_cases hk : k = key <;>
      simp [SettingCall.write, hk]
  | remove k =>
    refine (found_set k []).trans ?_
    cases writable indexable db source key <;> by_cases hk : k = key <;>
      simp [SettingCall.write, hk]

private theorem repositoryDefaults_after (calls : List SettingCall) :
    (repositoryDefaults indexable source).get ((repositoryDefaults indexable source).after db calls)
        key =
      heldAfter (writable indexable db source key) (lastWrite key calls) (found db source key) := by
  have hget : found db source key = (repositoryDefaults indexable source).get db key :=
    (get_eq db key).symm
  rw [hget]
  refine get_after (I := fun db' => db'.sources = db.sources)
    (heldAfter (writable indexable db source key)) (heldAfter_none _) (fun w w' old => ?_)
    (fun db' call hdb => (sources_call call).trans hdb) (fun db' call hdb => ?_) rfl calls
  · cases writable indexable db source key with
    | false => rfl
    | true =>
      cases w with
      | none => simp
      | some value => simp
  · have hwritable : writable indexable db' source key = writable indexable db source key := by
      rw [writable, hasRow, hdb, writable, hasRow]
    rw [get_eq, get_eq, found_call, hwritable]

end Stores

/-- The stores answer alike exactly when no key is read that was last removed, and none that the
database refused to store under. -/
theorem defaults_agree_iff (indexable : String → Bool) (db : Database) (source : SourceId)
    (calls : List SettingCall) :
    (repositoryDefaults indexable source).answers db calls =
        memoryDefaults.answers (inMemory db source) calls ↔
      ReadsBack indexable db source calls := by
  rw [answers_eq_iff]
  refine forall_congr' fun before => forall_congr' fun key => forall_congr' fun rest =>
    imp_congr_right fun _ => ?_
  rw [repositoryDefaults_after, memoryDefaults_after]
  change heldAfter (writable indexable db source key) (lastWrite key before) (found db source key) =
    (lastWrite key before).getD (found db source key) ↔ _
  cases lastWrite key before with
  | none => simp
  | some value =>
    cases writable indexable db source key with
    | false => simp [eq_comm]
    | true =>
      cases value with
      | none => simp
      | some value => simp

/-- A removed key is there for the guest that reads it, and is not in memory. A key with U+0000 is
in memory, and is never there for the guest. -/
theorem removed_key_present :
    let d := repositoryDefaults (fun _ => true) LinkedDatabase.guya.id
    let db := LinkedDatabase.oneSource.toDatabase
    let m := inMemory db LinkedDatabase.guya.id
    let key : Memory := [107]
    let table : ResourceTable Unit := .empty
    ((guestSet true d db (some key) 0 1 0).map fun left =>
        (guestGet d left.1 (some key) table 0 1).2) = .ok 1 ∧
      ((guestSet true memoryDefaults m (some key) 0 1 0).map fun left =>
        (guestGet memoryDefaults left.1 (some key) table 0 1).2) = .ok message ∧
      d.answers db [.remove "k", .get "k"] ≠ memoryDefaults.answers m [.remove "k", .get "k"] ∧
      d.answers db [.set "\x00" [1], .get "\x00"] = [none] ∧
      memoryDefaults.answers m [.set "\x00" [1], .get "\x00"] = [some [1]] := by
  decide

end Nyuka.Api
