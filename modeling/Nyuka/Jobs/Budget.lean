import Nyuka.Jobs.Terminal

/-! The retry budget. A claim spends one attempt and only `fail` compares what is left, so a row
that returns to the queue by another way may be claimed with nothing left to spend. -/
namespace Nyuka
namespace Engine
open Queue Runs

variable {pool : ℕ} {s t : World pool} {a : Action pool}

def WithinBudget (s : World pool) : Prop := ∀ r ∈ s.jobs.rows, r.attempts ≤ r.maxAttempts

/-- A claim takes no job whose budget is used up. -/
def ClaimsWithinBudget (s : World pool) (a : Action pool) : Prop :=
  ∀ w now locked delivered, a = .claim w now locked delivered →
    ∀ r, nextClaimable s.jobs now locked = some r → r.attempts < r.maxAttempts

/-- Every row is within its budget, and a queued one has an attempt left. -/
def Solvent (s : World pool) : Prop :=
  ∀ r ∈ s.jobs.rows, r.attempts ≤ r.maxAttempts ∧ (r.state = .queued → r.attempts < r.maxAttempts)

/-- The step puts no row back into the queue whose budget is used up: not by recovering a stale
lock, and not by a requeue that was decided before another worker spent the last attempt. -/
def Affordable (s : World pool) : Action pool → Prop
  | .recoverStale olderThan now => ∀ r ∈ s.jobs.rows,
      stale (now - Time.seconds olderThan) r = true → r.attempts < r.maxAttempts
  | .release now => ∀ r ∈ s.jobs.rows,
      stale (now - Time.seconds (0 : ℕ)) r = true → r.attempts < r.maxAttempts
  | .failWrite w _ => ∀ job error delay, s.workers w = .failing job error (.retryAfter delay) →
      ∀ r ∈ s.jobs.rows, r.id = job.id → r.attempts < r.maxAttempts
  | _ => True

/-- Every budget allows an attempt, also the one a retry is about to repeat. -/
structure Funded (s : World pool) : Prop where
  rows : ∀ r ∈ s.jobs.rows, 1 ≤ r.maxAttempts
  retries : ∀ q job, s.requests q = .retryRead job → 1 ≤ job.maxAttempts

theorem funded_init (repos : List SourceRepoId) : Funded (World.init repos : World pool) where
  rows := by intro r hr; cases hr
  retries := by intro q job hq; cases hq

theorem Adds.funded (hfunded : Funded s) {r : JobRow} (h : Adds s a r) : 1 ≤ r.maxAttempts := by
  cases h with
  | enqueued _ _ => exact Producer.one_le_maxAttempts _ _
  | foreign _ => exact ForeignRow.budgeted _
  | retried _ hq _ => exact hfunded.retries _ _ hq

theorem funded_step (hfunded : Funded s) (h : step s a = some t) : Funded t where
  rows := by
    intro r' hr'
    rcases (step_rows h r').mp hr' with hadds | ⟨r, hr, hchange⟩ | ⟨hkept, -, -⟩
    · exact hadds.funded hfunded
    · rw [hchange.sameJob.maxAttempts]
      exact hfunded.rows r hr
    · exact hfunded.rows r' hkept
  retries := by
    intro q job hq
    rcases step_request h q with hmove | hsame
    · rw [hq] at hmove
      cases hmove with
      | retryRead hget _ =>
        obtain ⟨r, hr, -, hjob⟩ := get_ok hget
        rw [(rowToJob_ok hjob).2.2.2.2.2.2]
        exact hfunded.rows r hr
    · exact hfunded.retries q job (hsame ▸ hq)

theorem Adds.fresh {r : JobRow} (h : Adds s a r) : r.attempts = 0 := by
  cases h <;> rfl

theorem solvent_step (hfunded : Funded s) (hsolvent : Solvent s) (hcond : Affordable s a)
    (h : step s a = some t) : Solvent t := by
  intro r' hr'
  rcases (step_rows h r').mp hr' with hadds | ⟨r, hr, hchange⟩ | ⟨hkept, -, -⟩
  · have hfresh := hadds.fresh
    have hpositive := hadds.funded hfunded
    omega
  · obtain ⟨hle, hqueued⟩ := hsolvent r hr
    cases hchange with
    | claimed _ hnext _ =>
      have hclaimable := (nextClaimable_spec hnext).2
      simp only [claimable, Bool.and_eq_true, decide_eq_true_eq] at hclaimable
      have hlt := hqueued hclaimable.1.1
      exact ⟨Int.add_one_le_of_lt hlt, fun hstate => by cases hstate⟩
    | completed _ _ => exact ⟨hle, fun hstate => by cases hstate⟩
    | gaveUp _ _ => exact ⟨hle, fun hstate => by cases hstate⟩
    | cancelled _ _ => exact ⟨hle, fun hstate => by cases hstate⟩
    | requeued hw hid => exact ⟨hle, fun _ => hcond _ _ _ hw r hr hid⟩
    | released _ hstale => exact ⟨hle, fun _ => hcond r hr hstale⟩
    | recovered hstale => exact ⟨hle, fun _ => hcond r hr hstale⟩
  · exact hsolvent r' hkept

private theorem affordable_of_solvent (h : step s a = some t) (ht : Solvent t) :
    Affordable s a := by
  -- whatever the step puts back into the queue is queued in the state after it
  have hback : ∀ r ∈ s.jobs.rows, ∀ r', Changes s a r r' → r'.state = .queued →
      r'.attempts = r.attempts → r.attempts < r.maxAttempts := by
    intro r hr r' hchange hstate hattempts
    have hlt := (ht r' ((step_rows h r').mpr (.inr (.inl ⟨r, hr, hchange⟩)))).2 hstate
    rwa [hattempts, hchange.sameJob.maxAttempts] at hlt
  cases a with
  | recoverStale olderThan now =>
    exact fun r hr hstale => hback r hr _ (.recovered hstale) rfl rfl
  | release now =>
    intro r hr hstale
    simp only [step] at h
    split at h
    · next hworkers =>
      exact hback r hr _ (.released (fun w => by simpa using hworkers w) hstale) rfl rfl
    · cases h
  | failWrite w now =>
    exact fun job error delay hw r hr hid => hback r hr _ (.requeued hw hid) rfl rfl
  | _ => trivial

/-- The table stays solvent throughout a run exactly when every step of it is affordable. -/
theorem solvent_run (repos : List SourceRepoId) (as : List (Action pool)) :
    Always step Solvent (World.init repos) as ↔ Each step Affordable (World.init repos) as := by
  refine always_iff_each (I := Funded) (fun s a t hfunded h => funded_step hfunded h)
    (fun s a t hfunded hsolvent h => ?_) as (funded_init repos) (fun r hr => by cases hr)
  exact ⟨affordable_of_solvent h, fun hcond => solvent_step hfunded hsolvent hcond h⟩

/-- In a run that puts no used-up job back into the queue, no job ever exceeds its budget and
no used-up job is claimed. -/
theorem retry_budget (repos : List SourceRepoId) (as : List (Action pool))
    (hcond : Each step Affordable (World.init repos) as) :
    Always step WithinBudget (World.init repos) as ∧
      Each step ClaimsWithinBudget (World.init repos) as := by
  have hsolvent := (solvent_run repos as).mpr hcond
  refine ⟨hsolvent.imp fun s h r hr => (h r hr).1,
    Each.of_always (fun s a t h _ _ => ?_) hsolvent hcond⟩
  rintro w now locked delivered rfl r hnext
  obtain ⟨hr, hclaimable⟩ := nextClaimable_spec hnext
  simp only [claimable, Bool.and_eq_true, decide_eq_true_eq] at hclaimable
  exact (h r hr).2 hclaimable.1.1

/-- A job that a crash strands once, of the five attempts it has. -/
def strandedRun : List (Action 1) := [
  .enqueue (.request ⟨7⟩ none) ⟨1⟩ 0,
  .claim 0 0 [] true,
  .restart,
  .recoverStale 900 (Time.seconds 901),
  .claim 0 (Time.seconds 901) [] true,
  .failRead 0 (.storage "connection reset"),
  .failWrite 0 (Time.seconds 901)]

theorem strandedRun_within_budget :
    (exec step (World.init []) strandedRun).isSome = true ∧
      Always step WithinBudget (World.init []) strandedRun ∧
      Each step ClaimsWithinBudget (World.init []) strandedRun := by
  refine ⟨by decide, retry_budget [] strandedRun ?_⟩
  refine @Each.of_check _ _ step Affordable
    (fun s a => s.jobs.rows.all fun r => r.attempts < r.maxAttempts) (fun s a h => ?_) _ _
    (by decide)
  have hlt : ∀ r ∈ s.jobs.rows, r.attempts < r.maxAttempts := by simpa using h
  cases a with
  | recoverStale _ _ => exact fun r hr _ => hlt r hr
  | release _ => exact fun r hr _ => hlt r hr
  | failWrite _ _ => exact fun _ _ _ _ r hr _ => hlt r hr
  | _ => trivial

/-- A crash strands a job that had one attempt, and the recovery of the next tick queues it. -/
def overspentRun : List (Action 1) := [
  .enqueue (.trigger .pruneSessions (by decide)) ⟨1⟩ 0,
  .claim 0 0 [] true,
  .restart,
  .recoverStale 900 (Time.seconds 901)]

/-- The used-up job is claimed a second time. -/
theorem overspentRun_exceeds_budget :
    ¬ Always step WithinBudget (World.init [])
        (overspentRun ++ [.claim 0 (Time.seconds 901) [] true]) ∧
      ¬ Each step ClaimsWithinBudget (World.init [])
        (overspentRun ++ [.claim 0 (Time.seconds 901) [] true]) := by
  obtain ⟨t, ht, htest⟩ := @exists_exec _ _ step (World.init []) overspentRun
    (fun t => (nextClaimable t.jobs (Time.seconds 901) []).any (fun r =>
        r.attempts = r.maxAttempts) &&
      (step t (.claim 0 (Time.seconds 901) [] true)).any fun u =>
        u.jobs.rows.any fun r => r.attempts > r.maxAttempts) (by decide)
  rw [Bool.and_eq_true, Option.any_eq_true, Option.any_eq_true] at htest
  obtain ⟨⟨r, hnext, hused⟩, u, hu, hexceeds⟩ := htest
  simp only [List.any_eq_true, decide_eq_true_eq] at hused hexceeds
  obtain ⟨r', hr', hgt⟩ := hexceeds
  constructor
  · refine not_always_of_exec (by rw [exec_append, ht]; simpa using hu) fun h => ?_
    have := h r' hr'
    omega
  · refine not_each_of_exec ht hu fun h => ?_
    have := h _ _ _ _ rfl r hnext
    omega

end Engine
end Nyuka
