import Nyuka.Jobs.Steps

/-! The lease a claim gives. A worker's report names its job by id alone, so it lands on the
right row only as long as nobody has taken the job away in the meantime. -/
namespace Nyuka
namespace Engine
open Queue Runs

variable {pool : ℕ} {s t : World pool} {a : Action pool}

/-- The row is running under the claim that gave the worker this job. -/
def UnderClaim (w : Fin pool) (job : Job) (r : JobRow) : Prop :=
  r.id = job.id ∧ r.state = .running ∧ r.lockedBy = some (workerName w) ∧
    r.attempts = job.attempts

/-- Every job a worker executes is running under that worker's claim. -/
def LeaseHeld (s : World pool) : Prop :=
  ∀ w job, (s.workers w).job? = some job → ∃ r ∈ s.jobs.rows, UnderClaim w job r

/-- No job is executed by two workers. -/
def Exclusive (s : World pool) : Prop :=
  ∀ w v job job', (s.workers w).job? = some job → (s.workers v).job? = some job' →
    job.id = job'.id → w = v

/-- A worker's report writes a row only while the row is running under its claim. -/
def OwnWrites (s : World pool) (a : Action pool) : Prop :=
  ∀ w job, Reports w a → (s.workers w).job? = some job →
    ∀ r ∈ s.jobs.rows, r.id = job.id → UnderClaim w job r

/-- The step takes no job away from a worker that is executing it: no stale-lock recovery
finds such a job's lock too old, and no cancellation is written to such a job. -/
def Undisturbed (s : World pool) : Action pool → Prop
  | .recoverStale olderThan now => ∀ w job, (s.workers w).job? = some job →
      ∀ r ∈ s.jobs.rows, r.id = job.id → stale (now - Time.seconds olderThan) r = false
  | .cancelWrite q _ => ∀ w job, (s.workers w).job? = some job →
      s.requests q ≠ .cancelChecked job.id
  | _ => True

/-- A test that no worker executes anything when a job could be taken away from it. -/
def quiet (s : World pool) : Action pool → Bool
  | .recoverStale _ _ => decide (∀ w, (s.workers w).job?.isNone)
  | .cancelWrite _ _ => decide (∀ w, (s.workers w).job?.isNone)
  | _ => true

theorem undisturbed_of_quiet (h : quiet s a = true) : Undisturbed s a := by
  have hnone : (∀ w, (s.workers w).job?.isNone = true) → ∀ w job, (s.workers w).job? ≠ some job :=
    fun hidle w job hjob => by simpa [hjob] using hidle w
  cases a with
  | recoverStale _ _ => exact fun w job hjob => absurd hjob (hnone (of_decide_eq_true h) w job)
  | cancelWrite _ _ => exact fun w job hjob => absurd hjob (hnone (of_decide_eq_true h) w job)
  | _ => trivial

theorem UnderClaim.of_mem {w : Fin pool} {job : Job} {r r' : JobRow} (h : UnderClaim w job r)
    (hr : r ∈ s.jobs.rows) (hr' : r' ∈ s.jobs.rows) (hid : r'.id = job.id) :
    UnderClaim w job r' :=
  row_unique hr hr' (h.1.trans hid.symm) ▸ h

theorem LeaseHeld.exclusive (h : LeaseHeld s) : Exclusive s := by
  intro w v job job' hw hv hid
  obtain ⟨r, hr, hclaim⟩ := h w job hw
  obtain ⟨r', hr', hclaim'⟩ := h v job' hv
  have hrr : UnderClaim v job' r := hclaim'.of_mem hr' hr (hclaim.1.trans hid)
  exact workerName_inj (Option.some.inj (hclaim.2.2.1.symm.trans hrr.2.2.1))

theorem LeaseHeld.ownWrites (h : LeaseHeld s) (a : Action pool) : OwnWrites s a := by
  intro w job _ hjob r hr hid
  obtain ⟨r', hr', hclaim⟩ := h w job hjob
  exact hclaim.of_mem hr' hr hid

theorem leaseHeld_init (repos : List SourceRepoId) :
    LeaseHeld (World.init repos : World pool) := by
  intro w job hjob
  cases hjob

/-- A claim gives its worker the lease. -/
theorem claim_underClaim {w : Fin pool} {now : Time} {r : JobRow} {job : Job}
    (hjob : rowToJob (r.leased (workerName w) now) = .ok job) :
    UnderClaim w job (r.leased (workerName w) now) := by
  obtain ⟨-, hid, -, -, -, hattempts, -⟩ := rowToJob_ok hjob
  exact ⟨hid.symm, rfl, rfl, hattempts.symm⟩

/-- A worker that keeps its job keeps its lease through an undisturbed step. -/
theorem lease_kept (hheld : LeaseHeld s) (hcond : Undisturbed s a) {w : Fin pool} {job : Job}
    (hjob : (s.workers w).job? = some job) (hreports : ¬ Reports w a) {r : JobRow}
    (hr : r ∈ s.jobs.rows) (hclaim : UnderClaim w job r) :
    ¬ Deletes a r ∧ ∀ r', ¬ Changes s a r r' := by
  -- a report of another worker on this row would need the lease of this worker
  have hother : ∀ v job', (s.workers v).job? = some job' → r.id = job'.id → w = v :=
    fun v job' hv hid => hheld.exclusive w v job job' hjob hv (hclaim.1.symm.trans hid)
  refine ⟨fun h => ?_, fun r' h => ?_⟩
  · cases h with
    | pruned hprunable => simp [prunable, hclaim.2.1] at hprunable
  · cases h with
    | claimed _ hnext _ =>
      have hqueued := (nextClaimable_spec hnext).2
      simp [claimable, hclaim.2.1] at hqueued
    | completed hv hid => exact hreports (hother _ _ (by rw [hv]; rfl) hid).symm
    | gaveUp hv hid => exact hreports (hother _ _ (by rw [hv]; rfl) hid).symm
    | requeued hv hid => exact hreports (hother _ _ (by rw [hv]; rfl) hid).symm
    | released hworkers _ => rw [hworkers w] at hjob; cases hjob
    | recovered hstale =>
      have := hcond w job hjob r hr hclaim.1
      rw [this] at hstale
      cases hstale
    | cancelled hq hid => exact hcond w job hjob (hclaim.1 ▸ hid ▸ hq)

theorem leaseHeld_step (hheld : LeaseHeld s) (hcond : Undisturbed s a)
    (h : step s a = some t) : LeaseHeld t := by
  intro w job hjob
  have hkeeps : (s.workers w).job? = some job → ¬ Reports w a →
      ∃ r ∈ t.jobs.rows, UnderClaim w job r := by
    intro hjob hreports
    obtain ⟨r, hr, hclaim⟩ := hheld w job hjob
    obtain ⟨hdeletes, hchanges⟩ := lease_kept hheld hcond hjob hreports hr hclaim
    exact ⟨r, row_kept h hr hdeletes hchanges, hclaim⟩
  rcases step_worker h w with hmove | ⟨hsame, hreports⟩
  · generalize t.workers w = worker at hmove hjob
    cases hmove with
    | claimed hr hclaim hrow =>
      cases hjob
      exact ⟨_, (step_rows h _).mpr (.inr (.inl ⟨_, hr, hclaim⟩)), claim_underClaim hrow⟩
    | listed hw => exact hkeeps (by rw [hw]; exact hjob) not_false
    | decided hw hread => exact hkeeps (by rw [hw]; exact hjob) not_false
    | _ => cases hjob
  · exact hkeeps (hsame ▸ hjob) hreports

/-- A step that disturbs an executing worker leaves it without its lease. -/
theorem undisturbed_of_leaseHeld (hheld : LeaseHeld s) (h : step s a = some t)
    (ht : LeaseHeld t) : Undisturbed s a := by
  cases a with
  | recoverStale olderThan now =>
    intro w job hjob r hr hid
    by_contra hstale
    rw [Bool.not_eq_false] at hstale
    have hworkers : t.workers = s.workers := by cases h; rfl
    obtain ⟨r', hr', hclaim⟩ := ht w job (by rw [hworkers]; exact hjob)
    have hrec : r.recovered now ∈ t.jobs.rows :=
      (step_rows h _).mpr (.inr (.inl ⟨r, hr, .recovered hstale⟩))
    have hrunning := (hclaim.of_mem hr' hrec hid).2.1
    cases hrunning
  | cancelWrite q now =>
    intro w job hjob hq
    simp only [step, hq, Option.some.injEq] at h
    have hstep : step s (.cancelWrite q now) = some t := by simp only [step, hq, h]
    have hworkers : t.workers = s.workers := by rw [← h]; rfl
    obtain ⟨r, hr, hclaim⟩ := hheld w job hjob
    obtain ⟨r', hr', hclaim'⟩ := ht w job (by rw [hworkers]; exact hjob)
    have hcancelled : r.finished .cancelled none now ∈ t.jobs.rows :=
      (step_rows hstep _).mpr (.inr (.inl ⟨r, hr, .cancelled hq hclaim.1⟩))
    have hrunning := (hclaim'.of_mem hr' hcancelled hclaim.1).2.1
    cases hrunning
  | _ => trivial

/-- The workers hold their leases throughout a run exactly when no step of it disturbs them. -/
theorem leaseHeld_run (repos : List SourceRepoId) (as : List (Action pool)) :
    Always step LeaseHeld (World.init repos) as ↔ Each step Undisturbed (World.init repos) as :=
  always_iff_each (I := fun _ => True) (fun _ _ _ _ _ => trivial)
    (fun _ _ _ _ hheld h => ⟨undisturbed_of_leaseHeld hheld h,
      fun hcond => leaseHeld_step hheld hcond h⟩)
    as trivial (leaseHeld_init repos)

/-- In a run that takes no job away from a worker executing it, every report lands on a row
running under the reporting worker's claim, and no job is executed by two workers. -/
theorem lease_exclusivity (repos : List SourceRepoId) (as : List (Action pool))
    (hcond : Each step Undisturbed (World.init repos) as) :
    Each step OwnWrites (World.init repos) as ∧ Always step Exclusive (World.init repos) as := by
  have hheld := (leaseHeld_run repos as).mpr hcond
  exact ⟨Each.of_always (fun s a _ h _ _ => h.ownWrites a) hheld hcond,
    hheld.imp fun _ h => h.exclusive⟩

/-- A worker fails its job and another one takes it up, in a run without disturbance. -/
def handoverRun : List (Action 2) := [
  .recoverStale 900 0,
  .enqueue (.request ⟨7⟩ none) ⟨1⟩ 0,
  .claim 0 0 [] true,
  .failRead 0 (.storage "connection reset"),
  .failWrite 0 0,
  .claim 1 (Time.seconds 60) [] true,
  .complete 1 (Time.seconds 60)]

theorem handoverRun_exclusive :
    (exec step (World.init []) handoverRun).isSome = true ∧
      Each step OwnWrites (World.init []) handoverRun ∧
      Always step Exclusive (World.init []) handoverRun := by
  refine ⟨by decide, lease_exclusivity [] handoverRun ?_⟩
  exact Each.of_check (fun _ _ => undisturbed_of_quiet) (by decide)

/-- A handler runs for longer than the lock may age; the recovery of a scheduler tick gives
its job to a second worker. -/
def reclaimedRun : List (Action 2) := [
  .enqueue (.request ⟨7⟩ none) ⟨1⟩ 0,
  .claim 0 0 [] true,
  .recoverStale 900 (Time.seconds 901),
  .claim 1 (Time.seconds 901) [] true]

/-- The two workers execute one job, and the first one's claim is not the row's. -/
def shared : Worker → Worker → JobTable → Bool
  | .handling job none, .handling job' none, jobs => job.id = job'.id &&
      jobs.rows.any fun r => r.id = job.id && r.attempts ≠ job.attempts
  | _, _, _ => false

/-- Both workers execute the job then, and the first one's report finishes it under the second
one's claim. -/
theorem reclaimedRun_not_exclusive :
    ¬ Each step OwnWrites (World.init [])
        (reclaimedRun ++ [.complete 0 (Time.seconds 902)]) ∧
      ¬ Always step Exclusive (World.init []) reclaimedRun := by
  obtain ⟨t, ht, htest⟩ := @exists_exec _ _ step (World.init []) reclaimedRun
    (fun t => shared (t.workers 0) (t.workers 1) t.jobs) (by decide)
  unfold shared at htest
  split at htest
  · next job job' h0 h1 =>
    simp only [Bool.and_eq_true, decide_eq_true_eq, List.any_eq_true] at htest
    obtain ⟨hid, r, hr, hrid, hattempts⟩ := htest
    have hjob : (t.workers 0).job? = some job := by rw [h0]; rfl
    have hjob' : (t.workers 1).job? = some job' := by rw [h1]; rfl
    refine ⟨?_, not_always_of_exec ht fun h => ?_⟩
    · have hstep : ∃ u, step t (.complete 0 (Time.seconds 902)) = some u := by
        simp [step, h0]
      obtain ⟨u, hu⟩ := hstep
      refine not_each_of_exec ht hu fun h => ?_
      exact hattempts (h 0 job rfl hjob r hr hrid).2.2.2
    · exact absurd (h 0 1 job job' hjob hjob' hid) (by decide)
  · cases htest

end Engine
end Nyuka
