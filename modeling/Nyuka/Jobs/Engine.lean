import Nyuka.Foundation.Runs
import Nyuka.Jobs.Producers
import Mathlib.Logic.Function.Basic

/-! The job engine as it runs: a pool of workers, the API's requests and the scheduler issue
statements against one table, in any order. Between two statements of one party any other
party may act, a handler may run for any length of time, and a process may die. -/
namespace Nyuka
namespace Engine
open Queue Tables

/-- A worker of the pool. `listed` is what an `update_sources` handler has read. -/
inductive Worker where
  | idle
  | handling (job : Job) (listed : Option (List SourceRepoId))
  | failing (job : Job) (error : DomainError) (verdict : Verdict)
  | stopped

/-- The job a worker has claimed and not yet reported on. -/
def Worker.job? : Worker → Option Job
  | handling job _ => some job
  | failing job _ _ => some job
  | _ => none

/-- An API request between its statements. -/
inductive Request where
  | idle
  | cancelChecked (id : JobId)
  | cancelWritten (id : JobId)
  | retryRead (job : Job)

structure World (pool : ℕ) where
  jobs : JobTable
  issued : List JobId
  workers : Fin pool → Worker
  requests : ℕ → Request
  /-- The jobs whose cancellation was answered with success. -/
  answered : List JobId
  repos : List SourceRepoId

/-- A row that another version of the server added, of a kind this one does not know. -/
structure ForeignRow where
  kind : String
  payload : JsonValue
  runAt : Time
  idempotencyKey : Option String
  priority : ℤ
  maxAttempts : ℤ
  unknown : kindFromStr kind = none
  budgeted : 1 ≤ maxAttempts
  unshared : ∀ (p : Producer) now, idempotencyKey ≠ some (p.key now)

def ForeignRow.row (f : ForeignRow) (id : JobId) (now : Time) : JobRow where
  id := id
  kind := f.kind
  payload := f.payload
  state := .queued
  priority := f.priority
  runAt := f.runAt
  attempts := 0
  maxAttempts := f.maxAttempts
  lockedBy := none
  lockedAt := none
  lastError := none
  idempotencyKey := f.idempotencyKey
  createdAt := now
  updatedAt := now

/-- Numerals name the worker of a pool of one. -/
instance neZero_onePool : NeZero (1 : ℕ) := ⟨Nat.one_ne_zero⟩

inductive Action (pool : ℕ) where
  | enqueue (p : Producer) (id : JobId) (now : Time)
  | foreign (f : ForeignRow) (id : JobId) (now : Time)
  /-- `delivered` tells whether the claimed row reaches the worker. -/
  | claim (w : Fin pool) (now : Time) (locked : List JobId) (delivered : Bool)
  | listRepos (w : Fin pool)
  | complete (w : Fin pool) (now : Time)
  | failRead (w : Fin pool) (error : DomainError)
  | failWrite (w : Fin pool) (now : Time)
  /-- The database refuses the worker's report, which the worker ignores. -/
  | reportLost (w : Fin pool)
  | panic (w : Fin pool)
  | abortAll
  /-- What shutdown does once every worker has stopped. -/
  | release (now : Time)
  | restart
  | recoverStale (olderThan : ℕ) (now : Time)
  | cancelRead (q : ℕ) (id : JobId)
  | cancelWrite (q : ℕ) (now : Time)
  | cancelAnswer (q : ℕ)
  | retryRead (q : ℕ) (id : JobId)
  | retryEnqueue (q : ℕ) (id : JobId) (now : Time)
  | prune (olderThan : ℕ) (now : Time)
  | addRepo (repo : SourceRepoId)
  | removeRepo (repo : SourceRepoId)

variable {pool : ℕ}

def workerName (w : Fin pool) : String := s!"worker-{w.val}"

theorem workerName_inj {w v : Fin pool} (h : workerName w = workerName v) : w = v := by
  have htail : toString w.val = toString v.val := by
    simpa [workerName, String.toList_append, ← String.toList_inj] using h
  exact Fin.ext (Text.toString_nat_inj htail)

/-- An empty table and an idle pool. -/
def World.init (repos : List SourceRepoId) : World pool where
  jobs := Table.empty
  issued := []
  workers := fun _ => .idle
  requests := fun _ => .idle
  answered := []
  repos := repos

namespace World

def setWorker (s : World pool) (w : Fin pool) (worker : Worker) : World pool :=
  { s with workers := Function.update s.workers w worker }

def setRequest (s : World pool) (q : ℕ) (request : Request) : World pool :=
  { s with requests := Function.update s.requests q request }

@[simp] theorem setWorker_jobs (s : World pool) (w : Fin pool) (worker : Worker) :
    (s.setWorker w worker).jobs = s.jobs := rfl

@[simp] theorem setRequest_jobs (s : World pool) (q : ℕ) (request : Request) :
    (s.setRequest q request).jobs = s.jobs := rfl

/-- Enqueue under a uuid that was never drawn before. -/
def enqueue (s : World pool) (e : Enqueue) (id : JobId) (now : Time) :
    Option (World pool × JobId) :=
  if id ∈ s.issued then none
  else match Queue.enqueue s.jobs e id now with
    | .ok (jobs, named) => some ({ s with jobs, issued := id :: s.issued }, named)
    | .error _ => none

end World

/-- One atomic step. A request that ends with an error leaves the world as it is. -/
def step (s : World pool) : Action pool → Option (World pool)
  | .enqueue p id now => (s.enqueue (p.enqueue now) id now).map Prod.fst
  | .foreign f id now =>
    if h : id ∉ s.issued ∧ s.jobs.Free (f.row id now) then
      some { s with jobs := s.jobs.insert (f.row id now) h.2, issued := id :: s.issued }
    else none
  | .claim w now locked delivered =>
    match s.workers w with
    | .idle =>
      let (jobs, answer) := claim s.jobs (workerName w) now locked
      match delivered, answer with
      | true, .ok (some job) => some ({ s with jobs }.setWorker w (.handling job none))
      | _, _ => some { s with jobs }
    | _ => none
  | .listRepos w =>
    match s.workers w with
    | .handling job none => some (s.setWorker w (.handling job (some s.repos)))
    | _ => none
  | .complete w now =>
    match s.workers w with
    | .handling job _ => some ({ s with jobs := complete s.jobs job.id now }.setWorker w .idle)
    | _ => none
  | .failRead w error =>
    match s.workers w with
    | .handling job _ =>
      match failRead s.jobs job.id error.isRetryable with
      | .ok verdict => some (s.setWorker w (.failing job error verdict))
      | .error _ => some (s.setWorker w .idle)
    | _ => none
  | .failWrite w now =>
    match s.workers w with
    | .failing job error verdict =>
      some ({ s with jobs := failWrite s.jobs job.id error.toText now verdict }.setWorker w .idle)
    | _ => none
  | .reportLost w =>
    match s.workers w with
    | .handling _ _ => some (s.setWorker w .idle)
    | .failing _ _ _ => some (s.setWorker w .idle)
    | _ => none
  | .panic w =>
    match s.workers w with
    | .handling _ _ => some (s.setWorker w .stopped)
    | _ => none
  | .abortAll => some { s with workers := fun _ => .stopped }
  | .release now =>
    if ∀ w, (s.workers w).job?.isNone then some { s with jobs := recoverStale s.jobs 0 now }
    else none
  | .restart => some { s with workers := fun _ => .idle, requests := fun _ => .idle }
  | .recoverStale olderThan now =>
    some { s with jobs := recoverStale s.jobs olderThan now }
  | .cancelRead q id =>
    match s.requests q, get s.jobs id with
    | .idle, .ok job =>
      if isTerminal job.state then some s else some (s.setRequest q (.cancelChecked id))
    | .idle, .error _ => some s
    | _, _ => none
  | .cancelWrite q now =>
    match s.requests q with
    | .cancelChecked id =>
      some ({ s with jobs := cancel s.jobs id now }.setRequest q (.cancelWritten id))
    | _ => none
  | .cancelAnswer q =>
    match s.requests q with
    | .cancelWritten id =>
      match get s.jobs id with
      | .ok _ => some ({ s with answered := id :: s.answered }.setRequest q .idle)
      | .error _ => some (s.setRequest q .idle)
    | _ => none
  | .retryRead q id =>
    match s.requests q, get s.jobs id with
    | .idle, .ok job =>
      if isTerminal job.state then some (s.setRequest q (.retryRead job)) else some s
    | .idle, .error _ => some s
    | _, _ => none
  | .retryEnqueue q id now =>
    match s.requests q with
    | .retryRead job =>
      (s.enqueue (retryOf job) id now).map fun answer => answer.1.setRequest q .idle
    | _ => none
  | .prune olderThan now => some { s with jobs := prune s.jobs olderThan now }
  | .addRepo repo => some { s with repos := repo :: s.repos }
  | .removeRepo repo => some { s with repos := s.repos.filter (· ≠ repo) }

end Engine
end Nyuka
