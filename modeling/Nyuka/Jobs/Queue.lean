import Nyuka.Foundation.Results
import Nyuka.Foundation.Tables
import Nyuka.Domain.Model
import Mathlib.Data.Fintype.Basic

/-! The job queue's statements over the `job` table. Each is one atomic statement; what a
caller does between two of them is not decided here. -/
namespace Nyuka
namespace Queue
open Tables

/-- Wire names for job kinds, stored as text. -/
def kindToStr : JobKind → String
  | .downloadChapter => "download_chapter"
  | .packageChapter => "package_chapter"
  | .refreshMetadata => "refresh_metadata"
  | .checkFollow => "check_follow"
  | .updateSources => "update_sources"
  | .pruneJobs => "prune_jobs"
  | .pruneSessions => "prune_sessions"
  | .reconcileLibrary => "reconcile_library"

def kindFromStr : String → Option JobKind
  | "download_chapter" => some .downloadChapter
  | "package_chapter" => some .packageChapter
  | "refresh_metadata" => some .refreshMetadata
  | "check_follow" => some .checkFollow
  | "update_sources" => some .updateSources
  | "prune_jobs" => some .pruneJobs
  | "prune_sessions" => some .pruneSessions
  | "reconcile_library" => some .reconcileLibrary
  | _ => none

@[simp] theorem kindFromStr_kindToStr (kind : JobKind) :
    kindFromStr (kindToStr kind) = some kind := by cases kind <;> rfl

@[simp] theorem kindToStr_inj {a b : JobKind} : kindToStr a = kindToStr b ↔ a = b := by
  refine ⟨fun h => ?_, congrArg _⟩
  simpa using congrArg kindFromStr h

theorem kindFromStr_eq_some {text : String} {kind : JobKind} (h : kindFromStr text = some kind) :
    text = kindToStr kind := by
  unfold kindFromStr at h
  split at h <;> cases h <;> rfl

theorem plain_kindToStr (kind : JobKind) : Text.Plain ':' (kindToStr kind) := by
  cases kind <;> decide

def stateToStr : JobState → String
  | .queued => "queued"
  | .running => "running"
  | .succeeded => "succeeded"
  | .failed => "failed"
  | .cancelled => "cancelled"

structure JobRow where
  id : JobId
  kind : String
  payload : JsonValue
  state : JobState
  priority : ℤ
  runAt : Time
  attempts : ℤ
  maxAttempts : ℤ
  lockedBy : Option String
  lockedAt : Option Time
  lastError : Option String
  idempotencyKey : Option String
  createdAt : Time
  updatedAt : Time

/-- The unique indexes of the `job` table. -/
inductive JobIndex where
  | id | idempotencyKey
deriving DecidableEq

instance : Fintype JobIndex := ⟨{.id, .idempotencyKey}, fun i => by cases i <;> decide⟩

abbrev JobIndex.Key : JobIndex → Type
  | .id => JobId
  | .idempotencyKey => String

instance (i : JobIndex) : DecidableEq i.Key :=
  match i with
  | .id => inferInstanceAs (DecidableEq JobId)
  | .idempotencyKey => inferInstanceAs (DecidableEq String)

def JobIndex.value : (i : JobIndex) → JobRow → Option i.Key
  | .id, row => some row.id
  | .idempotencyKey, row => row.idempotencyKey

abbrev JobTable := Table JobIndex.value

/-- The largest value of an `integer` column. -/
def maxInteger : ℤ := 2147483647

/-- Exponential backoff with deterministic jitter, in seconds. The attempt is cast to `u64`
for the jitter, so a negative one wraps. -/
def backoff (attempt : ℤ) : ℤ :=
  let base := 2 ^ (max 0 (min attempt 10)).toNat
  let jitter := (attempt % 2 ^ 64 * 7919) % 2 ^ 64 % 30
  min base 3600 + jitter

def rowToJob (row : JobRow) : Except DomainError Job :=
  match kindFromStr row.kind with
  | none => .error (.internal s!"unknown job kind {row.kind.quote}")
  | some kind => .ok {
      id := row.id, kind, state := row.state, payload := row.payload, priority := row.priority,
      runAt := row.runAt, attempts := row.attempts, maxAttempts := row.maxAttempts,
      lastError := row.lastError, createdAt := row.createdAt }

/-- What a caller asks `enqueue` for. -/
structure Enqueue where
  kind : JobKind
  payload : JsonValue
  runAt : Option Time
  idempotencyKey : Option String
  priority : ℤ
  maxAttempts : ℤ

/-- The row an `INSERT` would add under a new id. -/
def Enqueue.row (e : Enqueue) (id : JobId) (now : Time) : JobRow where
  id := id
  kind := kindToStr e.kind
  payload := e.payload
  state := .queued
  priority := e.priority
  runAt := e.runAt.getD now
  attempts := 0
  maxAttempts := e.maxAttempts
  lockedBy := none
  lockedAt := none
  lastError := none
  idempotencyKey := e.idempotencyKey
  createdAt := now
  updatedAt := now

def byKey (jobs : JobTable) (key : Option String) : Option JobRow :=
  key.bind fun k => jobs.lookup .idempotencyKey k

/-- `INSERT .. ON CONFLICT (idempotency_key) DO UPDATE SET updated_at = job.updated_at
RETURNING id`: a row that holds the key stays as it is and answers for the new one. -/
def enqueue (jobs : JobTable) (e : Enqueue) (id : JobId) (now : Time) :
    Except DomainError (JobTable × JobId) :=
  match byKey jobs e.idempotencyKey with
  | some row => .ok (jobs, row.id)
  | none =>
    if h : jobs.Free (e.row id now) then .ok (jobs.insert (e.row id now) h, id)
    else .error (.storage "duplicate key value violates unique constraint")

theorem byKey_eq_some {jobs : JobTable} {key : Option String} {row : JobRow} :
    byKey jobs key = some row ↔ row ∈ jobs.rows ∧ key.isSome ∧ row.idempotencyKey = key := by
  cases key with
  | none => simp [byKey]
  | some k => simp [byKey, Table.lookup_eq_some_iff, JobIndex.value]

theorem byKey_eq_none {jobs : JobTable} {key : Option String} :
    byKey jobs key = none ↔ ∀ row ∈ jobs.rows, key.isSome → row.idempotencyKey ≠ key := by
  cases key with
  | none => simp [byKey]
  | some k => simp [byKey, Table.lookup_eq_none_iff, JobIndex.value]

/-- A successful enqueue names the row that holds the key, or adds the row it names. -/
theorem enqueue_cases {jobs jobs' : JobTable} {e : Enqueue} {id named : JobId} {now : Time}
    (h : enqueue jobs e id now = .ok (jobs', named)) :
    (∃ row, byKey jobs e.idempotencyKey = some row ∧ jobs' = jobs ∧ named = row.id) ∨
    (byKey jobs e.idempotencyKey = none ∧ named = id ∧
      jobs'.rows = e.row id now :: jobs.rows) := by
  unfold enqueue at h
  cases hkey : byKey jobs e.idempotencyKey with
  | some row =>
    simp only [hkey, Except.ok.injEq, Prod.mk.injEq] at h
    exact .inl ⟨row, rfl, h.1.symm, h.2.symm⟩
  | none =>
    simp only [hkey] at h
    split at h
    · simp only [Except.ok.injEq, Prod.mk.injEq] at h
      obtain ⟨rfl, rfl⟩ := h
      exact .inr ⟨rfl, rfl, rfl⟩
    · cases h

/-- `state = 'queued' AND run_at <= now()`, for a row no other transaction has locked. -/
def claimable (now : Time) (locked : List JobId) (row : JobRow) : Bool :=
  row.state = .queued && row.runAt ≤ now && row.id ∉ locked

/-- `ORDER BY priority, run_at`. -/
def JobRow.before (a b : JobRow) : Bool :=
  a.priority < b.priority || (a.priority = b.priority && a.runAt < b.runAt)

@[simp] theorem before_self (a : JobRow) : a.before a = false := by simp [JobRow.before]

theorem before_asymm {a b : JobRow} (h : a.before b = true) : b.before a = false := by
  grind [JobRow.before]

/-- What comes before a row comes before every row that is not itself before it. -/
theorem before_trans {a b c : JobRow} (hab : a.before b = true) (hbc : c.before b = false) :
    a.before c = true := by
  grind [JobRow.before]

/-- `LIMIT 1` of the ordered rows. -/
def firstInOrder : List JobRow → Option JobRow
  | [] => none
  | row :: rows => match firstInOrder rows with
    | none => some row
    | some best => if best.before row then some best else some row

theorem firstInOrder_mem {rows : List JobRow} {row : JobRow} (h : firstInOrder rows = some row) :
    row ∈ rows := by
  induction rows generalizing row with
  | nil => cases h
  | cons r rows ih =>
    unfold firstInOrder at h
    split at h
    · cases h; exact List.mem_cons_self
    · next best hbest =>
      split at h <;> cases h
      · exact List.mem_cons_of_mem _ (ih hbest)
      · exact List.mem_cons_self

private theorem firstInOrder_none {rows : List JobRow} (h : firstInOrder rows = none) :
    rows = [] := by
  cases rows with
  | nil => rfl
  | cons r rows =>
    unfold firstInOrder at h
    split at h
    · cases h
    · split at h <;> cases h

/-- No row comes before the first one. -/
theorem firstInOrder_least {rows : List JobRow} {row : JobRow}
    (h : firstInOrder rows = some row) : ∀ r ∈ rows, r.before row = false := by
  induction rows generalizing row with
  | nil => cases h
  | cons r rows ih =>
    unfold firstInOrder at h
    split at h
    · next hnone =>
      cases h
      simp [firstInOrder_none hnone, before_self]
    · next best hbest =>
      have hleast := ih hbest
      intro r' hr'
      split at h <;> cases h
      · next hbefore =>
        rcases List.mem_cons.mp hr' with rfl | hr'
        · exact before_asymm hbefore
        · exact hleast r' hr'
      · next hbefore =>
        rcases List.mem_cons.mp hr' with rfl | hr'
        · exact before_self r'
        · by_contra hr
          rw [Bool.not_eq_false] at hr
          have hbest' := before_trans hr (Bool.eq_false_iff.mpr hbefore)
          rw [hleast r' hr'] at hbest'
          cases hbest'

/-- `ORDER BY priority, run_at FOR UPDATE SKIP LOCKED LIMIT 1`. Which rows are locked is up
to the transactions in flight; a tie is broken either way by locking the other row. -/
def nextClaimable (jobs : JobTable) (now : Time) (locked : List JobId) : Option JobRow :=
  firstInOrder (jobs.rows.filter (claimable now locked))

theorem nextClaimable_spec {jobs : JobTable} {now : Time} {locked : List JobId} {row : JobRow}
    (h : nextClaimable jobs now locked = some row) :
    row ∈ jobs.rows ∧ claimable now locked row = true := by
  simpa using firstInOrder_mem h

/-- A claim takes no row while another one that it could take comes before. -/
theorem nextClaimable_least {jobs : JobTable} {now : Time} {locked : List JobId} {row : JobRow}
    (h : nextClaimable jobs now locked = some row) :
    ∀ r ∈ jobs.rows, claimable now locked r = true → r.before row = false :=
  fun r hr hclaimable => firstInOrder_least h r (List.mem_filter.mpr ⟨hr, hclaimable⟩)

def JobRow.leased (row : JobRow) (worker : String) (now : Time) : JobRow :=
  { row with
    state := .running, lockedBy := some worker, lockedAt := some now, updatedAt := now
    attempts := row.attempts + 1 }

/-- The table after the statement, and what the caller gets. A claimed row that does not
decode is an error to the caller although the row is claimed. -/
def claim (jobs : JobTable) (worker : String) (now : Time) (locked : List JobId) :
    JobTable × Except DomainError (Option Job) :=
  match nextClaimable jobs now locked with
  | none => (jobs, .ok none)
  | some row =>
    if row.attempts + 1 > maxInteger then (jobs, .error (.storage "integer out of range"))
    else
      (jobs.updateWhere (fun r => r.id = row.id) (fun r => r.leased worker now)
        (by intro i r; cases i <;> rfl),
       (rowToJob (row.leased worker now)).map some)

/-- A worker gets a job only from a row that was claimed and decodes. -/
theorem claim_job {jobs : JobTable} {worker : String} {now : Time} {locked : List JobId}
    {job : Job} (h : (claim jobs worker now locked).2 = .ok (some job)) :
    ∃ row, nextClaimable jobs now locked = some row ∧ row.attempts + 1 ≤ maxInteger ∧
      rowToJob (row.leased worker now) = .ok job := by
  unfold claim at h
  split at h
  · simp at h
  · next row hnext =>
    split at h
    · simp at h
    · obtain ⟨claimed, hjob, hsome⟩ := Results.map_eq_ok.mp h
      obtain rfl := Option.some.inj hsome
      exact ⟨row, hnext, by omega, hjob⟩

/-- A decoded job repeats the columns of its row. -/
theorem rowToJob_ok {row : JobRow} {job : Job} (h : rowToJob row = .ok job) :
    row.kind = kindToStr job.kind ∧ job.id = row.id ∧ job.state = row.state ∧
      job.payload = row.payload ∧ job.priority = row.priority ∧ job.attempts = row.attempts ∧
      job.maxAttempts = row.maxAttempts := by
  unfold rowToJob at h
  split at h
  · cases h
  · next kind hkind =>
    cases h
    exact ⟨kindFromStr_eq_some hkind, rfl, rfl, rfl, rfl, rfl, rfl⟩

def JobRow.finished (row : JobRow) (state : JobState) (error : Option String) (now : Time) :
    JobRow :=
  { row with state := state, lastError := error, lockedBy := none, lockedAt := none,
             updatedAt := now }

/-- `UPDATE job SET state .. WHERE id`, whatever the row's state. -/
def setTerminal (jobs : JobTable) (id : JobId) (state : JobState) (error : Option String)
    (now : Time) : JobTable :=
  jobs.updateWhere (fun r => r.id = id) (fun r => r.finished state error now)
    (by intro i r; cases i <;> rfl)

def complete (jobs : JobTable) (id : JobId) (now : Time) : JobTable :=
  setTerminal jobs id .succeeded none now

def cancel (jobs : JobTable) (id : JobId) (now : Time) : JobTable :=
  setTerminal jobs id .cancelled none now

def get (jobs : JobTable) (id : JobId) : Except DomainError Job :=
  match jobs.lookup .id id with
  | none => .error .notFound
  | some row => rowToJob row

theorem get_ok {jobs : JobTable} {id : JobId} {job : Job} (h : get jobs id = .ok job) :
    ∃ r ∈ jobs.rows, r.id = id ∧ rowToJob r = .ok job := by
  unfold get at h
  split at h
  · cases h
  · next r hr =>
    obtain ⟨hmem, hid⟩ := Table.lookup_eq_some_iff.mp hr
    exact ⟨r, hmem, Option.some.inj hid, h⟩

/-- What `fail` has decided once it has read the job: give up, or run again after a delay. -/
inductive Verdict where
  | exhausted
  | retryAfter (seconds : ℤ)
deriving DecidableEq, Repr

/-- The first half of `fail`: the read and the decision taken on it. -/
def failRead (jobs : JobTable) (id : JobId) (retryable : Bool) : Except DomainError Verdict :=
  match get jobs id with
  | .error e => .error e
  | .ok current =>
    if !retryable || current.attempts ≥ current.maxAttempts then .ok .exhausted
    else .ok (.retryAfter (backoff current.attempts))

def JobRow.requeued (row : JobRow) (next : Time) (error : String) (now : Time) : JobRow :=
  { row with state := .queued, runAt := next, lastError := some error, lockedBy := none,
             lockedAt := none, updatedAt := now }

/-- The second half of `fail`: the statement that acts on the decision. -/
def failWrite (jobs : JobTable) (id : JobId) (error : String) (now : Time) : Verdict → JobTable
  | .exhausted => setTerminal jobs id .failed (some error) now
  | .retryAfter delay =>
    jobs.updateWhere (fun r => r.id = id)
      (fun r => r.requeued (now + Time.seconds delay) error now) (by intro i r; cases i <;> rfl)

/-- `state = 'running' AND locked_at < cutoff`. -/
def stale (cutoff : Time) (row : JobRow) : Bool :=
  row.state = .running && row.lockedAt.any (· < cutoff)

@[simp] theorem stale_iff {cutoff : Time} {row : JobRow} :
    stale cutoff row = true ↔ row.state = .running ∧ row.lockedAt.any (· < cutoff) = true := by
  rw [stale, Bool.and_eq_true, decide_eq_true_eq]

def JobRow.recovered (row : JobRow) (now : Time) : JobRow :=
  { row with state := .queued, lockedBy := none, lockedAt := none, updatedAt := now }

/-- Returns jobs whose lock is older than so many seconds to the queue. -/
def recoverStale (jobs : JobTable) (olderThan : ℕ) (now : Time) : JobTable :=
  jobs.updateWhere (stale (now - Time.seconds olderThan)) (fun r => r.recovered now)
    (by intro i r; cases i <;> rfl)

/-- `state IN ('succeeded', 'cancelled') AND updated_at < cutoff`. -/
def prunable (cutoff : Time) (row : JobRow) : Bool :=
  (row.state = .succeeded || row.state = .cancelled) && row.updatedAt < cutoff

def prune (jobs : JobTable) (olderThan : ℕ) (now : Time) : JobTable :=
  jobs.deleteWhere (prunable (now - Time.seconds olderThan))

/-- Whether a job has reached a state it will not leave on its own. -/
def isTerminal (state : JobState) : Bool :=
  state = .succeeded || state = .failed || state = .cancelled

/-- The row is queued or running. -/
def Active (row : JobRow) : Prop := row.state = .queued ∨ row.state = .running

instance (row : JobRow) : Decidable (Active row) := by unfold Active; infer_instance

theorem active_iff_not_terminal {row : JobRow} : Active row ↔ isTerminal row.state = false := by
  unfold Active isTerminal
  cases row.state <;> simp

end Queue
end Nyuka
