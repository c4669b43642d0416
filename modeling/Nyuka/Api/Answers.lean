import Nyuka.Api.Problem
import Nyuka.Jobs.Keys

/-! The answer of the endpoints that queue work: a `202` whose `Location` names a job. The job
is whatever row holds the key, so it need not be one that was queued just now. -/
namespace Nyuka
namespace Api
open Queue Engine

/-- A `202` whose `Location` names a job. -/
structure Accepted where
  location : String
deriving DecidableEq, Repr

def Accepted.job (id : JobId) : Accepted := ⟨s!"/api/v1/jobs/{id.uuid.hyphenated}"⟩

theorem Accepted.job_inj {a b : JobId} (h : Accepted.job a = Accepted.job b) : a = b := by
  obtain ⟨a⟩ := a
  obtain ⟨b⟩ := b
  have htext : a.hyphenated = b.hyphenated := by
    simpa [Accepted.job, ← String.toList_inj, String.toList_append] using h
  rw [Uuid.hyphenated_inj htext]

/-- Enqueue what a producer asks for and name the job in the answer. `job` is the uuid an
insert would draw. -/
def respond (p : Producer) (jobs : JobTable) (job : JobId) (now : Time) :
    JobTable × Except Problem Accepted :=
  match enqueue jobs (p.enqueue now) job now with
  | .error e => (jobs, .error (.ofDomainError e))
  | .ok (jobs, named) => (jobs, .ok (.job named))

/-- The answer names a queued or running job that does what the subject asks for. -/
def Served (jobs : JobTable) (answer : Accepted) (subject : Subject) : Prop :=
  ∃ r ∈ jobs.rows, answer = .job r.id ∧ Active r ∧ subject.CoveredBy r

/-- A success after which no job is queued or running. -/
def swallowed : JobTable × Except Problem Accepted → Bool
  | (jobs, .ok _) => jobs.rows.all fun r => !decide (Active r)
  | _ => false

theorem swallowed_eq_true {answer : JobTable × Except Problem Accepted}
    (h : swallowed answer = true) :
    ∃ jobs accepted, answer = (jobs, .ok accepted) ∧ ∀ r ∈ jobs.rows, ¬ Active r := by
  unfold swallowed at h
  split at h
  · exact ⟨_, _, rfl, by simpa using h⟩
  · cases h

/-- No finished job holds the key. -/
def Unspent (jobs : JobTable) (key : String) : Prop :=
  ∀ r ∈ jobs.rows, r.idempotencyKey = some key → isTerminal r.state = false

instance (jobs : JobTable) (key : String) : Decidable (Unspent jobs key) := by
  unfold Unspent
  infer_instance

variable {pool : ℕ} {s t : World pool}

/-- The endpoints' statement is a step of the engine. -/
theorem step_of_respond {p : Producer} {job : JobId} {now : Time} {jobs : JobTable}
    {answer : Accepted} (h : respond p s.jobs job now = (jobs, .ok answer))
    (hfresh : job ∉ s.issued) :
    step s (.enqueue p job now) = some { s with jobs, issued := job :: s.issued } := by
  unfold respond at h
  split at h
  · simp at h
  · next henqueue =>
    simp only [Prod.mk.injEq] at h
    simp [step, World.enqueue, hfresh, henqueue, h.1]

/-- The rows a response is about: the one that holds the key, or the one it adds. -/
theorem respond_cases {p : Producer} {job : JobId} {now : Time} {jobs jobs' : JobTable}
    {answer : Accepted} (h : respond p jobs job now = (jobs', .ok answer)) :
    (∃ row ∈ jobs.rows, row.idempotencyKey = some (p.key now) ∧ jobs' = jobs ∧
      answer = .job row.id) ∨
    ((∀ row ∈ jobs.rows, row.idempotencyKey ≠ some (p.key now)) ∧ answer = .job job ∧
      jobs'.rows = (p.enqueue now).row job now :: jobs.rows) := by
  unfold respond at h
  split at h
  · simp at h
  · next henqueue =>
    simp only [Prod.mk.injEq, Except.ok.injEq] at h
    obtain ⟨rfl, rfl⟩ := h
    rcases enqueue_cases henqueue with ⟨row, hkey, rfl, rfl⟩ | ⟨hkey, rfl, hrows⟩
    · rw [Producer.enqueue_idempotencyKey, byKey_eq_some] at hkey
      exact .inl ⟨row, hkey.1, hkey.2.2, rfl, rfl⟩
    · rw [Producer.enqueue_idempotencyKey, byKey_eq_none] at hkey
      exact .inr ⟨fun row hrow => hkey row hrow rfl, rfl, hrows⟩

/-- A response names an active job for its subject, of which `P` holds, exactly when no finished
job holds the key and `P` holds of the one that does. -/
theorem respond_names_iff (hkeys : KeysTell s) {p : Producer} {job : JobId} {now : Time}
    {jobs : JobTable} {answer : Accepted} (h : respond p s.jobs job now = (jobs, .ok answer))
    {P : JobRow → Prop} (hnew : P ((p.enqueue now).row job now)) :
    (∃ r ∈ jobs.rows, answer = .job r.id ∧ Active r ∧ p.subject.CoveredBy r ∧ P r) ↔
      Unspent s.jobs (p.key now) ∧
        ∀ r ∈ s.jobs.rows, r.idempotencyKey = some (p.key now) → P r := by
  rcases respond_cases h with ⟨row, hrow, hkey, rfl, rfl⟩ | ⟨hkey, rfl, hrows⟩
  · have hholder : ∀ r ∈ s.jobs.rows, r.idempotencyKey = some (p.key now) → r = row :=
      fun r hr hrkey => (s.jobs.unique .idempotencyKey).eq_of_mem hr hrow hrkey hkey
    constructor
    · rintro ⟨r, hr, hnamed, hactive, -, hP⟩
      have hsame : r = row := row_unique hr hrow (Accepted.job_inj hnamed).symm
      subst hsame
      exact ⟨fun r' hr' hkey' => hholder r' hr' hkey' ▸ active_iff_not_terminal.mp hactive,
        fun r' hr' hkey' => hholder r' hr' hkey' ▸ hP⟩
    · rintro ⟨hunspent, hP⟩
      exact ⟨row, hrow, rfl, active_iff_not_terminal.mpr (hunspent row hrow hkey),
        hkeys row hrow p now hkey, hP row hrow hkey⟩
  · constructor
    · exact fun _ => ⟨fun r hr hrkey => absurd hrkey (hkey r hr),
        fun r hr hrkey => absurd hrkey (hkey r hr)⟩
    · intro _
      refine ⟨(p.enqueue now).row job now, ?_, rfl, .inl rfl, p.covered job now, hnew⟩
      rw [hrows]
      exact List.mem_cons_self

/-- A response names an active job for its subject exactly when no finished job holds the
key. -/
theorem respond_served_iff (hkeys : KeysTell s) {p : Producer} {job : JobId} {now : Time}
    {jobs : JobTable} {answer : Accepted}
    (h : respond p s.jobs job now = (jobs, .ok answer)) :
    Served jobs answer p.subject ↔ Unspent s.jobs (p.key now) := by
  simpa [Served] using respond_names_iff hkeys h (P := fun _ => True) trivial

end Api
end Nyuka
