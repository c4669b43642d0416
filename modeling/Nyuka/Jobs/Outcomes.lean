import Nyuka.Jobs.Reports

/-! Whether the metrics and the events agree with what is stored for a job. The loop counts and
publishes an end whatever became of the statement that stores it, and it is not the only one who
moves a job. -/
namespace Nyuka
namespace Engine
open Queue Runs

variable {pool : ℕ}

/-- Metrics and events agree with what is stored. -/
structure Agrees (s : Observed pool) : Prop where
  once : ∀ job, (s.outcomes job).length ≤ 1
  stored : ∀ r ∈ s.world.jobs.rows, ∀ o ∈ s.outcomes r.id, r.state = o.state
  announced : ∀ r ∈ s.world.jobs.rows, ∀ state ∈ s.lastEvent r.id, r.state = state

/-- The job is gone, or it never had a row. -/
def Absent (s : Observed pool) (job : JobId) : Prop := ∀ r ∈ s.world.jobs.rows, r.id ≠ job

/-- Nothing was recorded for the job yet, and its row, if there is one, is in this state. -/
def Stands (s : Observed pool) (job : JobId) (state : JobState) : Prop :=
  s.outcomes job = [] ∧ ∀ r ∈ s.world.jobs.rows, r.id = job → r.state = state

/-- No job is claimed or cancelled after something was published for it, no outcome is recorded
for a job that has one, and what is told of a statement that got no answer is so. -/
def Faithful (s : Observed pool) : Observation pool → Prop
  | .act (.claim _ now locked _) => ∀ r, nextClaimable s.world.jobs now locked = some r →
      r.attempts + 1 ≤ maxInteger → ¬ Announced s r.id
  | .act (.cancelWrite q _) => ∀ r ∈ s.world.jobs.rows,
      s.world.requests q = .cancelChecked r.id → ¬ Announced s r.id
  | .act (.complete w _) => ∀ job, (s.world.workers w).job? = some job → s.outcomes job.id = []
  | .act (.failRead w error) => ∀ job listed, s.world.workers w = .handling job listed →
      (∃ verdict, failRead s.world.jobs job.id error.isRetryable = .ok verdict) ∨
        Stands s job.id .failed
  | .act (.failWrite w _) => ∀ job error verdict, s.world.workers w = .failing job error verdict →
      s.outcomes job.id = [] ∨ verdict ≠ .exhausted ∧ Absent s job.id
  | .finishRefused w result => ∀ job, (s.world.workers w).job? = some job →
      Stands s job.id (Report.ofResult job.id result).state
  | .writeRefused w => ∀ job, (s.world.workers w).job? = some job → Stands s job.id .failed
  | .writeUnanswered w _ => ∀ job error verdict, s.world.workers w = .failing job error verdict →
      s.outcomes job.id = [] ∧ (verdict = .exhausted ∨ Absent s job.id)
  | _ => True

variable {s t : Observed pool} {a : Action pool} {told : Option Report}

/-- The report is an outcome. -/
def Report.Ending (r : Report) : Prop := ∃ o, r.outcome = some o ∧ o.state = r.state

section FailWrite
variable {w : Fin pool} {now : Time} {job : Job} {error : DomainError} {verdict : Verdict}

end FailWrite

end Engine
end Nyuka
