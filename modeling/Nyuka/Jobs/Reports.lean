import Nyuka.Jobs.Steps

/-! What the worker loop tells the metrics and the event bus about its jobs, next to what is
stored for them. The loop speaks after its statements, whatever became of them. -/
namespace Nyuka
namespace Engine
open Queue Runs

variable {pool : ℕ}

/-- How a job outcome is counted. -/
inductive Outcome where
  | succeeded | serviceFault | sourceFault
deriving DecidableEq, Repr

/-- Classifies a failure. -/
def classify : DomainError → Outcome
  | .source _ _ | .unsupportedCapability _ => .sourceFault
  | .storage _ | .insufficientStorage | .internal _ | .invalid _ | .conflict _ | .notFound =>
    .serviceFault

/-- The stored state an outcome stands for. -/
def Outcome.state : Outcome → JobState
  | succeeded => .succeeded
  | serviceFault | sourceFault => .failed

/-- The counters of the open window. -/
structure Window where
  succeeded : ℕ
  failedService : ℕ
  failedSource : ℕ

def Window.empty : Window := ⟨0, 0, 0⟩

def Window.record (window : Window) : Outcome → Window
  | .succeeded => { window with succeeded := window.succeeded + 1 }
  | .serviceFault => { window with failedService := window.failedService + 1 }
  | .sourceFault => { window with failedSource := window.failedSource + 1 }

def Window.count (window : Window) : Outcome → ℕ
  | .succeeded => window.succeeded
  | .serviceFault => window.failedService
  | .sourceFault => window.failedSource

/-- What one pass of the loop tells about its job: the outcome it records, if any, and the state
it publishes. -/
structure Report where
  job : JobId
  outcome : Option Outcome
  state : JobState

def Report.succeeded (job : JobId) : Report := ⟨job, some .succeeded, .succeeded⟩

def Report.failed (job : JobId) (error : DomainError) : Report :=
  ⟨job, some (classify error), .failed⟩

/-- A retry is not an outcome. -/
def Report.requeued (job : JobId) : Report := ⟨job, none, .queued⟩

/-- The report on a handler's result when its first statement is refused. -/
def Report.ofResult (job : JobId) : Except DomainError Unit → Report
  | .ok () => .succeeded job
  | .error error => .failed job error

/-- What the loop reports after a statement that is answered. -/
def report (s : World pool) : Action pool → Option Report
  | .complete w _ =>
    match s.workers w with
    | .handling job _ => some (.succeeded job.id)
    | _ => none
  | .failRead w error =>
    match s.workers w with
    | .handling job _ =>
      match failRead s.jobs job.id error.isRetryable with
      | .ok _ => none
      | .error _ => some (.failed job.id error)
    | _ => none
  | .failWrite w _ =>
    match s.workers w with
    | .failing job error .exhausted => some (.failed job.id error)
    | .failing job _ (.retryAfter _) => some (.requeued job.id)
    | _ => none
  | _ => none

/-- The engine with what its loops have told so far, the latest first. `taken` are the windows
the scheduler has closed. -/
structure Observed (pool : ℕ) where
  world : World pool
  window : Window
  taken : List Window
  reports : List Report

def Observed.init (repos : List SourceRepoId) : Observed pool := ⟨.init repos, .empty, [], []⟩

inductive Observation (pool : ℕ) where
  /-- A step of the engine whose statement, if a worker issued it, is answered. -/
  | act (a : Action pool)
  /-- The handler is done, and `complete` or the read of `fail` is refused. -/
  | finishRefused (w : Fin pool) (result : Except DomainError Unit)
  /-- The write of `fail` is refused. -/
  | writeRefused (w : Fin pool)
  /-- The write of `fail` is applied, but its answer is lost. -/
  | writeUnanswered (w : Fin pool) (now : Time)
  /-- `JobMetrics::take`. -/
  | take

namespace Observed

def tell (s : Observed pool) : Option Report → Observed pool
  | none => s
  | some report => { s with
      window := report.outcome.elim s.window s.window.record
      reports := report :: s.reports }

/-- A new process begins with an empty window. -/
def begin (s : Observed pool) : Action pool → Observed pool
  | .restart => { s with window := .empty }
  | _ => s

/-- A step of the engine and what is told after it. -/
def advance (s : Observed pool) (a : Action pool) (told : Option Report) :
    Option (Observed pool) :=
  (step s.world a).map fun world => { (s.begin a).tell told with world }

/-- The outcomes a job has contributed. -/
def outcomes (s : Observed pool) (job : JobId) : List Outcome :=
  (s.reports.filter fun r => r.job = job).filterMap Report.outcome

/-- The state last published for a job. -/
def lastEvent (s : Observed pool) (job : JobId) : Option JobState :=
  (s.reports.find? fun r => r.job = job).map Report.state

end Observed

def observe (s : Observed pool) : Observation pool → Option (Observed pool)
  | .act (.reportLost _) => none
  | .act a => s.advance a (report s.world a)
  | .finishRefused w result =>
    match s.world.workers w with
    | .handling job _ => s.advance (.reportLost w) (some (.ofResult job.id result))
    | _ => none
  | .writeRefused w =>
    match s.world.workers w with
    | .failing job error _ => s.advance (.reportLost w) (some (.failed job.id error))
    | _ => none
  | .writeUnanswered w now =>
    match s.world.workers w with
    | .failing job error _ => s.advance (.failWrite w now) (some (.failed job.id error))
    | _ => none
  | .take => some { s with window := .empty, taken := s.window :: s.taken }

/-- The loop has published a state of the job. -/
def Announced (s : Observed pool) (job : JobId) : Prop := ∃ r ∈ s.reports, r.job = job

variable {s t : Observed pool} {a : Action pool} {told : Option Report}

theorem advance_eq_some (h : s.advance a told = some t) :
    step s.world a = some t.world ∧ t.reports = told.toList ++ s.reports := by
  obtain ⟨world, hstep, rfl⟩ := Option.map_eq_some_iff.mp h
  refine ⟨hstep, ?_⟩
  have hbegin : (s.begin a).reports = s.reports := by cases a <;> rfl
  cases told with
  | none => exact hbegin
  | some r => exact congrArg (r :: ·) hbegin

/-- A report is about the job of a worker, and says that it has ended or will run again. -/
def Spoken (s : Observed pool) (r : Report) : Prop :=
  (∃ w job, (s.world.workers w).job? = some job ∧ r.job = job.id) ∧
    r.state ≠ .running ∧ r.state ≠ .cancelled

section Spoken
variable {w : Fin pool} {job : Job} (h : (s.world.workers w).job? = some job)
include h

theorem spoken_succeeded : Spoken s (.succeeded job.id) :=
  ⟨⟨w, job, h, rfl⟩, by simp [Report.succeeded]⟩

theorem spoken_failed (error : DomainError) : Spoken s (.failed job.id error) :=
  ⟨⟨w, job, h, rfl⟩, by simp [Report.failed]⟩

theorem spoken_requeued : Spoken s (.requeued job.id) :=
  ⟨⟨w, job, h, rfl⟩, by simp [Report.requeued]⟩

theorem spoken_ofResult (result : Except DomainError Unit) :
    Spoken s (.ofResult job.id result) := by
  cases result with
  | ok _ => exact spoken_succeeded h
  | error error => exact spoken_failed h error

end Spoken

private theorem spoken_report {r : Report} (h : report s.world a = some r) : Spoken s r := by
  unfold report at h
  split at h
  · split at h <;> cases h
    next hw => exact spoken_succeeded (by rw [hw]; rfl)
  · split at h
    · next hw =>
      split at h <;> cases h
      exact spoken_failed (by rw [hw]; rfl) _
    · cases h
  · split at h <;> cases h
    · next hw => exact spoken_failed (by rw [hw]; rfl) _
    · next hw => exact spoken_requeued (by rw [hw]; rfl)
  · cases h

/-- Apart from the metrics, an observation is a step of the engine with a report of a worker or
with none. -/
theorem observe_cases {o : Observation pool} (h : observe s o = some t) :
    (o = .take ∧ t.world = s.world ∧ t.reports = s.reports) ∨
      ∃ a told, s.advance a told = some t ∧ ∀ r ∈ told, Spoken s r := by
  cases o with
  | act a =>
    refine .inr ⟨a, report s.world a, ?_, fun r hr => spoken_report hr⟩
    cases a with
    | reportLost w => cases h
    | _ => exact h
  | finishRefused w result =>
    simp only [observe] at h
    split at h
    · next hw =>
      refine .inr ⟨_, _, h, ?_⟩
      rintro r ⟨⟩
      exact spoken_ofResult (by rw [hw]; rfl) result
    · cases h
  | writeRefused w | writeUnanswered w now =>
    simp only [observe] at h
    split at h
    · next hw =>
      refine .inr ⟨_, _, h, ?_⟩
      rintro r ⟨⟩
      exact spoken_failed (by rw [hw]; rfl) _
    · cases h
  | take =>
    cases h
    exact .inl ⟨rfl, rfl, rfl⟩

/-- What the closed windows and the open one have counted of an outcome. -/
def Observed.counted (s : Observed pool) (o : Outcome) : ℕ :=
  s.window.count o + (s.taken.map fun window => window.count o).sum

@[simp] theorem count_record (window : Window) (recorded o : Outcome) :
    (window.record recorded).count o = window.count o + if recorded = o then 1 else 0 := by
  cases recorded <;> cases o <;> rfl

theorem counted_advance (h : s.advance a told = some t) (o : Outcome) :
    t.counted o ≤ s.counted o + (told.toList.filterMap Report.outcome).count o := by
  obtain ⟨world, -, rfl⟩ := Option.map_eq_some_iff.mp h
  have hbegin : (s.begin a).counted o ≤ s.counted o := by
    cases a with
    | restart =>
      have hzero : Window.empty.count o = 0 := by cases o <;> rfl
      simp [Observed.begin, Observed.counted, hzero]
    | _ => exact le_refl _
  refine le_trans (b := (s.begin a).counted o + (told.toList.filterMap Report.outcome).count o) ?_
    (Nat.add_le_add_right hbegin _)
  cases told with
  | none => exact le_refl _
  | some r =>
    cases hr : r.outcome with
    | none => simp [Observed.counted, Observed.tell, hr]
    | some recorded =>
      have hrecord := count_record (s.begin a).window recorded o
      simp only [Observed.counted, Observed.tell, hr, Option.elim_some, Option.toList_some,
        List.filterMap_cons, List.filterMap_nil, List.count_singleton, beq_iff_eq, hrecord]
      omega

/-- The windows together count no outcome that was not recorded, and none twice. -/
theorem counted_le {repos : List SourceRepoId} (h : Reachable observe (.init repos) s)
    (o : Outcome) : s.counted o ≤ (s.reports.filterMap Report.outcome).count o := by
  refine h.invariant (I := fun s : Observed pool =>
    s.counted o ≤ (s.reports.filterMap Report.outcome).count o)
    (by cases o <;> exact Nat.le_refl 0) ?_
  intro s obs t hs hobs
  rcases observe_cases hobs with ⟨rfl, -, hreports⟩ | ⟨a, told, hadvance, -⟩
  · have hsame : t.counted o = s.counted o := by
      have hzero : Window.empty.count o = 0 := by cases o <;> rfl
      cases hobs
      simp [Observed.counted, hzero]
    rw [hsame, hreports]
    exact hs
  · have hadd := counted_advance hadvance o
    rw [(advance_eq_some hadvance).2, List.filterMap_append, List.count_append]
    omega

end Engine
end Nyuka
