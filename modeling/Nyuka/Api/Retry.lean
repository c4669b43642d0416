import Nyuka.Api.Answers
import Nyuka.Foundation.Results

/-! `POST /api/v1/jobs/{id}/retry`. The key of a retry is drawn up from the original alone, so the
row of the first retry answers for all the later ones, whatever has become of it. -/
namespace Nyuka
namespace Api
open Queue Engine Runs

/-- The job to retry, which must have finished. -/
def retryRead (jobs : JobTable) (id : JobId) : Except Problem Job :=
  match get jobs id with
  | .error e => .error (.ofMissing e "job")
  | .ok job =>
    if isTerminal job.state then .ok job
    else .error (.conflict s!"This job is {stateToStr job.state} and has not finished yet.")

/-- A fresh job rather than a reset of the old row. `drawn` is the uuid an insert would draw. -/
def retryEnqueue (jobs : JobTable) (job : Job) (drawn : JobId) (now : Time) :
    JobTable × Except Problem Accepted :=
  match enqueue jobs (retryOf job) drawn now with
  | .error e => (jobs, .error (.ofDomainError e))
  | .ok (jobs, named) => (jobs, .ok (.job named))

/-- The answer names a queued or running job that does what the original was to do. -/
def Requeued (jobs : JobTable) (answer : Accepted) (job : Job) : Prop :=
  ∃ r ∈ jobs.rows, answer = .job r.id ∧ Active r ∧ r.kind = kindToStr job.kind ∧
    r.payload = job.payload

variable {pool : ℕ} {s t : World pool} {a : Action pool}

/-- A read that lets the retry go on is a step of the engine. -/
theorem step_of_retryRead {q : ℕ} {id : JobId} {job : Job} (hq : s.requests q = .idle)
    (h : retryRead s.jobs id = .ok job) :
    step s (.retryRead q id) = some (s.setRequest q (.retryRead job)) := by
  unfold retryRead at h
  split at h
  · cases h
  · next hget =>
    split at h
    · next hterminal =>
      cases h
      simp [step, hq, hget, hterminal]
    · cases h

/-- A retry of a job that has not finished is refused, and leaves the engine as it is. -/
theorem retryRead_refused {q : ℕ} {id : JobId} {job : Job} (hq : s.requests q = .idle)
    (hget : get s.jobs id = .ok job) (hlive : isTerminal job.state = false) :
    (∃ problem, retryRead s.jobs id = .error problem ∧ problem.status = 409) ∧
      step s (.retryRead q id) = some s := by
  refine ⟨⟨.conflict s!"This job is {stateToStr job.state} and has not finished yet.", ?_, rfl⟩, ?_⟩
  · simp [retryRead, hget, hlive]
  · simp [step, hq, hget, hlive]

theorem step_of_retryEnqueue {q : ℕ} {job : Job} {drawn : JobId} {now : Time} {jobs : JobTable}
    {answer : Accepted} (hq : s.requests q = .retryRead job)
    (h : retryEnqueue s.jobs job drawn now = (jobs, .ok answer)) (hfresh : drawn ∉ s.issued) :
    step s (.retryEnqueue q drawn now) =
      some ({ s with jobs, issued := drawn :: s.issued }.setRequest q .idle) := by
  unfold retryEnqueue at h
  split at h
  · simp at h
  · next henqueue =>
    simp only [Prod.mk.injEq] at h
    simp [step, hq, World.enqueue, hfresh, henqueue, h.1]

/-- The rows a retry is about: the one that holds the key, or the one it adds. -/
theorem retryEnqueue_cases {job : Job} {drawn : JobId} {now : Time} {jobs jobs' : JobTable}
    {answer : Accepted} (h : retryEnqueue jobs job drawn now = (jobs', .ok answer)) :
    (∃ row ∈ jobs.rows, row.idempotencyKey = some (retryKey job.id) ∧ jobs' = jobs ∧
      answer = .job row.id) ∨
    ((∀ row ∈ jobs.rows, row.idempotencyKey ≠ some (retryKey job.id)) ∧ answer = .job drawn ∧
      jobs'.rows = (retryOf job).row drawn now :: jobs.rows) := by
  unfold retryEnqueue at h
  split at h
  · simp at h
  · next henqueue =>
    simp only [Prod.mk.injEq, Except.ok.injEq] at h
    obtain ⟨rfl, rfl⟩ := h
    rcases enqueue_cases henqueue with ⟨row, hkey, rfl, rfl⟩ | ⟨hkey, rfl, hrows⟩
    · rw [retryOf_idempotencyKey, byKey_eq_some] at hkey
      exact .inl ⟨row, hkey.1, hkey.2.2, rfl, rfl⟩
    · rw [retryOf_idempotencyKey, byKey_eq_none] at hkey
      exact .inr ⟨fun row hrow => hkey row hrow rfl, rfl, hrows⟩

/-- What a job is there to do. -/
abbrev Work := String × JsonValue

/-- Every job id stands for one piece of work, which the rows, the requests and the keys of the
retries agree on, also once the row is gone. -/
structure WorkOf (s : World pool) (work : JobId → Work) : Prop where
  rows : ∀ r ∈ s.jobs.rows, r.id ∈ s.issued ∧ work r.id = (r.kind, r.payload)
  requests : ∀ q job, s.requests q = .retryRead job →
    job.id ∈ s.issued ∧ work job.id = (kindToStr job.kind, job.payload)
  retries : ∀ r ∈ s.jobs.rows, (kindFromStr r.kind).isSome → ∀ id,
    r.idempotencyKey = some (retryKey id) → id ∈ s.issued ∧ work id = (r.kind, r.payload)

/-- A row that a known kind of work was added for under a retry's key was added by a retry. -/
theorem Adds.retries {work : JobId → Work} (hwork : WorkOf s work) {r : JobRow}
    (hadds : Adds s a r) (hknown : (kindFromStr r.kind).isSome) {id : JobId}
    (hkey : r.idempotencyKey = some (retryKey id)) :
    id ∈ s.issued ∧ work id = (r.kind, r.payload) := by
  cases hadds with
  | @enqueued p drawn now _ _ =>
    have hsame : p.key now = retryKey id := by simpa [Enqueue.row] using hkey
    exact absurd hsame.symm (retry_key_ne id p now)
  | @foreign f _ _ _ =>
    have hnone : kindFromStr f.kind = none := f.unknown
    simp [ForeignRow.row, hnone] at hknown
  | @retried q drawn now job _ hq _ =>
    have hsame : retryKey job.id = retryKey id := by simpa [Enqueue.row] using hkey
    rw [← retryKey_inj hsame]
    exact hwork.requests q job hq

/-- Work that is told of drawn ids stays the same when one that was never drawn gets its own. -/
theorem WorkOf.step {work : JobId → Work} (hwork : WorkOf s work) (h : step s a = some t) :
    ∃ work', WorkOf t work' := by
  obtain ⟨hissued, hadded⟩ := step_issued h
  -- the ids drawn so far keep their work, and the row that is added tells its own
  obtain ⟨work', hold, hnew⟩ : ∃ work' : JobId → Work, (∀ id ∈ s.issued, work' id = work id) ∧
      ∀ r, Adds s a r → work' r.id = (r.kind, r.payload) := by
    by_cases hadds : ∃ r, Adds s a r
    · obtain ⟨r, hr⟩ := hadds
      refine ⟨Function.update work r.id (r.kind, r.payload), fun id hid => ?_, fun r' hr' => ?_⟩
      · apply Function.update_of_ne
        rintro rfl
        exact (hadded r hr).1 hid
      · rw [hr'.unique hr, Function.update_self]
    · exact ⟨work, fun _ _ => rfl, fun r hr => absurd ⟨r, hr⟩ hadds⟩
  refine ⟨work', fun r' hr' => ?_, fun q job hq => ?_, fun r' hr' hknown id hkey => ?_⟩
  · rcases (step_rows h r').mp hr' with hadds | ⟨r, hr, hchange⟩ | ⟨hkept, -, -⟩
    · exact ⟨(hadded r' hadds).2, hnew r' hadds⟩
    · have hsame := hchange.sameJob
      obtain ⟨hdrawn, htold⟩ := hwork.rows r hr
      rw [hsame.id, hsame.kind, hsame.payload]
      exact ⟨hissued hdrawn, (hold _ hdrawn).trans htold⟩
    · obtain ⟨hdrawn, htold⟩ := hwork.rows r' hkept
      exact ⟨hissued hdrawn, (hold _ hdrawn).trans htold⟩
  · have hread : job.id ∈ s.issued ∧ work job.id = (kindToStr job.kind, job.payload) := by
      rcases step_request h q with hproceeds | hkept
      · rw [hq] at hproceeds
        cases hproceeds with
        | retryRead hget _ =>
          obtain ⟨r, hr, -, hjob⟩ := get_ok hget
          obtain ⟨hkind, hid, -, hpayload, -⟩ := rowToJob_ok hjob
          rw [hid, ← hkind, hpayload]
          exact hwork.rows r hr
      · exact hwork.requests q job (hkept ▸ hq)
    exact ⟨hissued hread.1, (hold _ hread.1).trans hread.2⟩
  · have hretry : id ∈ s.issued ∧ work id = (r'.kind, r'.payload) := by
      rcases (step_rows h r').mp hr' with hadds | ⟨r, hr, hchange⟩ | ⟨hkept, -, -⟩
      · exact Adds.retries hwork hadds hknown hkey
      · have hsame := hchange.sameJob
        rw [hsame.kind] at hknown
        rw [hsame.idempotencyKey] at hkey
        rw [hsame.kind, hsame.payload]
        exact hwork.retries r hr hknown id hkey
      · exact hwork.retries r' hkept hknown id hkey
    exact ⟨hissued hretry.1, (hold _ hretry.1).trans hretry.2⟩

private theorem workOf_reachable {repos : List SourceRepoId}
    (hs : Reachable step (World.init repos) s) : ∃ work, WorkOf s work := by
  refine hs.invariant (I := fun s => ∃ work, WorkOf s work) ?_ ?_
  · refine ⟨fun _ => ("", .null), ?_, ?_, ?_⟩
    · intro r hr; cases hr
    · intro q job hq; cases hq
    · intro r hr; cases hr
  · rintro s a t ⟨work, hwork⟩ h
    exact hwork.step h

/-- In every reachable state, a retry that is answered with 202 leaves an active job of the
original's kind and payload, named in `Location`, exactly when no finished job and none of an
unknown kind holds the key of the original's retries. -/
theorem retry_requeued_iff {repos : List SourceRepoId} (hs : Reachable step (World.init repos) s)
    {q : ℕ} {job : Job} (hq : s.requests q = .retryRead job) {drawn : JobId} {now : Time}
    {jobs : JobTable} {answer : Accepted}
    (h : retryEnqueue s.jobs job drawn now = (jobs, .ok answer)) :
    Requeued jobs answer job ↔ ∀ r ∈ s.jobs.rows, r.idempotencyKey = some (retryKey job.id) →
      isTerminal r.state = false ∧ (kindFromStr r.kind).isSome := by
  obtain ⟨work, hwork⟩ := workOf_reachable hs
  rcases retryEnqueue_cases h with ⟨row, hrow, hkey, rfl, rfl⟩ | ⟨hkey, rfl, hrows⟩
  · constructor
    · rintro ⟨r, hr, hnamed, hactive, hkind, -⟩ r' hr' hkey'
      have hholder : r' = row :=
        (s.jobs.unique .idempotencyKey).eq_of_mem hr' hrow hkey' hkey
      have hsame : r' = r := hholder.trans (row_unique hrow hr (Accepted.job_inj hnamed))
      rw [hsame, hkind, kindFromStr_kindToStr]
      exact ⟨active_iff_not_terminal.mp hactive, rfl⟩
    · intro hlive
      obtain ⟨hterminal, hknown⟩ := hlive row hrow hkey
      have htold := (hwork.retries row hrow hknown job.id hkey).2
      rw [(hwork.requests q job hq).2, Prod.mk.injEq] at htold
      exact ⟨row, hrow, rfl, active_iff_not_terminal.mpr hterminal, htold.1.symm, htold.2.symm⟩
  · constructor
    · exact fun _ r hr hrkey => absurd hrkey (hkey r hr)
    · intro _
      refine ⟨(retryOf job).row drawn now, ?_, rfl, .inl rfl, rfl, rfl⟩
      rw [hrows]
      exact List.mem_cons_self

/-- A download fails for good, and somebody asks to retry it. -/
def retriedRun : List (Action 1) := [
  .enqueue (.request ⟨7⟩ none) ⟨1⟩ 0,
  .claim 0 0 [] true,
  .failRead 0 .notFound,
  .failWrite 0 0,
  .retryRead 0 ⟨1⟩]

/-- The retry fails as well, and somebody asks to retry the original once more. -/
def retriedTwiceRun : List (Action 1) := retriedRun ++ [
  .retryEnqueue 0 ⟨2⟩ 0,
  .claim 0 0 [] true,
  .failRead 0 .notFound,
  .failWrite 0 0,
  .retryRead 0 ⟨1⟩]

/-- The test holds of the job that is to be retried. -/
def pendingRetry (s : World 1) (test : Job → Bool) : Bool :=
  match s.requests 0 with
  | .retryRead job => test job
  | _ => false

theorem pendingRetry_eq_true {s : World 1} {test : Job → Bool} (h : pendingRetry s test = true) :
    ∃ job, s.requests 0 = .retryRead job ∧ test job = true := by
  unfold pendingRetry at h
  split at h
  · next job hq => exact ⟨job, hq, h⟩
  · cases h

/-- Nothing holds the key of the first retry. -/
theorem first_retry_requeued : ∃ s : World 1, Reachable step (World.init []) s ∧
    ∃ job jobs answer, s.requests 0 = .retryRead job ∧
      retryEnqueue s.jobs job ⟨2⟩ 0 = (jobs, .ok answer) ∧ Requeued jobs answer job := by
  obtain ⟨s, hs, htest⟩ := @exists_exec _ _ step (World.init []) retriedRun
    (fun s => pendingRetry s fun job => (retryEnqueue s.jobs job ⟨2⟩ 0).2.isOk &&
      s.jobs.rows.all fun r => r.idempotencyKey ≠ some (retryKey job.id)) (by decide)
  obtain ⟨job, hq, htest⟩ := pendingRetry_eq_true htest
  rw [Bool.and_eq_true] at htest
  obtain ⟨answer, hok⟩ := Results.isOk_iff.mp htest.1
  refine ⟨s, ⟨_, hs⟩, job, _, answer, hq, Prod.ext rfl hok, ?_⟩
  refine (retry_requeued_iff ⟨_, hs⟩ hq (Prod.ext rfl hok)).mpr fun r hr hkey => ?_
  have hfree : r.idempotencyKey ≠ some (retryKey job.id) := by
    simpa using List.all_eq_true.mp htest.2 r hr
  exact absurd hkey hfree

/-- The second retry is answered with the failed job of the first one, and no job is queued or
running afterwards. -/
theorem second_retry_swallowed : ∃ s : World 1, Reachable step (World.init []) s ∧
    ∃ job jobs answer, s.requests 0 = .retryRead job ∧
      retryEnqueue s.jobs job ⟨3⟩ 0 = (jobs, .ok answer) ∧ ¬ Requeued jobs answer job := by
  obtain ⟨s, hs, htest⟩ := @exists_exec _ _ step (World.init []) retriedTwiceRun
    (fun s => pendingRetry s fun job => swallowed (retryEnqueue s.jobs job ⟨3⟩ 0)) (by decide)
  obtain ⟨job, hq, htest⟩ := pendingRetry_eq_true htest
  obtain ⟨jobs, answer, hanswer, hdone⟩ := swallowed_eq_true htest
  refine ⟨s, ⟨_, hs⟩, job, jobs, answer, hq, hanswer, ?_⟩
  rintro ⟨r, hr, -, hactive, -⟩
  exact hdone r hr hactive

end Api
end Nyuka
