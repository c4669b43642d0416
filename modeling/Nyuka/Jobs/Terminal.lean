import Nyuka.Jobs.Lease

/-! Terminal states. Neither a report nor a cancellation looks at the state of the row it
writes, so a finished row stays finished only as long as nobody else still means to write it. -/
namespace Nyuka
namespace Engine
open Queue Runs

variable {pool : ℕ} {s t : World pool} {a : Action pool}

/-- The step leaves every terminal row in its state. -/
def Absorbed (s : World pool) (a : Action pool) : Prop :=
  ∀ t, step s a = some t → ∀ r ∈ s.jobs.rows, isTerminal r.state = true →
    ∀ r' ∈ t.jobs.rows, r'.id = r.id → r'.state = r.state

/-- Every cancellation answered with success left its row cancelled. -/
def AnswersStand (s : World pool) : Prop :=
  ∀ id ∈ s.answered, ∀ r ∈ s.jobs.rows, r.id = id → r.state = .cancelled

/-- The step disturbs no executing worker, and a cancellation it writes finds the job neither
succeeded nor failed since the request read it. -/
def Orderly (s : World pool) (a : Action pool) : Prop :=
  Undisturbed s a ∧ ∀ q now, a = .cancelWrite q now → ∀ r ∈ s.jobs.rows,
    s.requests q = .cancelChecked r.id → r.state ≠ .succeeded ∧ r.state ≠ .failed

/-- The row was drawn by this server, and it is cancelled if it is still there. -/
def Settled (s : World pool) (id : JobId) : Prop :=
  id ∈ s.issued ∧ ∀ r ∈ s.jobs.rows, r.id = id → r.state = .cancelled

/-- What the requests and the table say about drawn ids and written cancellations. -/
structure CancelInv (s : World pool) : Prop where
  drawn : Drawn s
  checked : ∀ q id, s.requests q = .cancelChecked id → id ∈ s.issued
  written : ∀ q id, s.requests q = .cancelWritten id → Settled s id
  answered : ∀ id ∈ s.answered, Settled s id

theorem LeaseHeld.running (h : LeaseHeld s) {w : Fin pool} {job : Job}
    (hjob : (s.workers w).job? = some job) {r : JobRow} (hr : r ∈ s.jobs.rows)
    (hid : r.id = job.id) : r.state = .running := by
  obtain ⟨r', hr', hclaim⟩ := h w job hjob
  exact (hclaim.of_mem hr' hr hid).2.1

/-- An orderly step changes a terminal row, if at all, without changing its state. -/
theorem Changes.terminal (hheld : LeaseHeld s) (hcond : Orderly s a) {r r' : JobRow}
    (hr : r ∈ s.jobs.rows) (h : Changes s a r r') (hterminal : isTerminal r.state = true) :
    r'.state = r.state := by
  have hrunning : r.state = .running → r'.state = r.state := fun hrun => by
    simp [hrun, isTerminal] at hterminal
  cases h with
  | claimed _ hnext _ =>
    have hqueued := (nextClaimable_spec hnext).2
    simp only [claimable, Bool.and_eq_true, decide_eq_true_eq] at hqueued
    simp [hqueued.1.1, isTerminal] at hterminal
  | completed hw hid => exact hrunning (hheld.running (by rw [hw]; rfl) hr hid)
  | gaveUp hw hid => exact hrunning (hheld.running (by rw [hw]; rfl) hr hid)
  | requeued hw hid => exact hrunning (hheld.running (by rw [hw]; rfl) hr hid)
  | released _ hstale =>
    simp only [stale, Bool.and_eq_true, decide_eq_true_eq] at hstale
    exact hrunning hstale.1
  | recovered hstale =>
    simp only [stale, Bool.and_eq_true, decide_eq_true_eq] at hstale
    exact hrunning hstale.1
  | cancelled hq hid =>
    obtain ⟨hsucceeded, hfailed⟩ := hcond.2 _ _ rfl r hr (hid ▸ hq)
    simp only [isTerminal, hsucceeded, hfailed, decide_false, Bool.false_or,
      decide_eq_true_eq] at hterminal
    exact hterminal.symm

theorem absorbed_step (hheld : LeaseHeld s) (hinv : CancelInv s) (hcond : Orderly s a) :
    Absorbed s a := by
  intro t h r hr hterminal r' hr' hid
  rcases (step_rows h r').mp hr' with hadds | ⟨r₀, hr₀, hchange⟩ | ⟨hkept, -, -⟩
  · exact absurd (hid ▸ hinv.drawn r hr) ((step_issued h).2 r' hadds).1
  · have heq : r₀ = r := row_unique hr₀ hr (hchange.sameJob.id.symm.trans hid)
    subst heq
    exact hchange.terminal hheld hcond hr₀ hterminal
  · rw [row_unique hkept hr hid]

theorem settled_step (hheld : LeaseHeld s) (hcond : Orderly s a)
    (h : step s a = some t) {id : JobId} (hsettled : Settled s id) : Settled t id := by
  refine ⟨(step_issued h).1 hsettled.1, fun r' hr' hid => ?_⟩
  rcases (step_rows h r').mp hr' with hadds | ⟨r, hr, hchange⟩ | ⟨hkept, -, -⟩
  · exact absurd (hid ▸ hsettled.1) ((step_issued h).2 r' hadds).1
  · have hcancelled := hsettled.2 r hr (hchange.sameJob.id.symm.trans hid)
    rw [hchange.terminal hheld hcond hr (by simp [hcancelled, isTerminal]), hcancelled]
  · exact hsettled.2 r' hkept hid

theorem cancelInv_init (repos : List SourceRepoId) :
    CancelInv (World.init repos : World pool) where
  drawn := by intro r hr; cases hr
  checked := by intro q id hq; cases hq
  written := by intro q id hq; cases hq
  answered := by intro id hid; cases hid

theorem cancelInv_step (hheld : LeaseHeld s) (hinv : CancelInv s) (hcond : Orderly s a)
    (h : step s a = some t) : CancelInv t where
  drawn := drawn_step hinv.drawn h
  checked := by
    intro q id hq
    apply (step_issued h).1
    rcases step_request h q with hmove | hsame
    · rw [hq] at hmove
      cases hmove with
      | cancelChecked hget _ =>
        obtain ⟨r, hr, rfl, -⟩ := get_ok hget
        exact hinv.drawn r hr
    · exact hinv.checked q id (hsame ▸ hq)
  written := by
    intro q id hq
    rcases step_request h q with hmove | hsame
    · rw [hq] at hmove
      cases hmove with
      | cancelWritten hchecked =>
        refine ⟨(step_issued h).1 (hinv.checked q id hchecked), fun r' hr' hid => ?_⟩
        rcases (step_rows h r').mp hr' with hadds | ⟨r, hr, hchange⟩ | ⟨hkept, -, hmissed⟩
        · cases hadds
        · cases hchange; rfl
        · exact absurd (.cancelled hchecked hid) (hmissed _)
    · exact settled_step hheld hcond h (hinv.written q id (hsame ▸ hq))
  answered := by
    intro id hid
    rcases step_answered h with hsame | ⟨q, id', rfl, hq, hcons⟩
    · exact settled_step hheld hcond h (hinv.answered id (hsame ▸ hid))
    · rw [hcons, List.mem_cons] at hid
      rcases hid with rfl | hid
      · exact settled_step hheld hcond h (hinv.written q id hq)
      · exact settled_step hheld hcond h (hinv.answered id hid)

/-- In an orderly run no step moves a row out of a terminal state, and every cancellation that
was answered with success stands. -/
theorem terminal_absorbing (repos : List SourceRepoId) (as : List (Action pool))
    (hcond : Each step Orderly (World.init repos) as) :
    Each step Absorbed (World.init repos) as ∧
      Always step AnswersStand (World.init repos) as := by
  have hinv : Always step (fun s => LeaseHeld s ∧ CancelInv s) (World.init repos) as :=
    Always.of_each (fun s a t h hcond hstep => ⟨leaseHeld_step h.1 hcond.1 hstep,
      cancelInv_step h.1 h.2 hcond hstep⟩) ⟨leaseHeld_init repos, cancelInv_init repos⟩ hcond
  exact ⟨Each.of_always (fun s a t h hcond _ => absorbed_step h.1 h.2 hcond) hinv hcond,
    hinv.imp fun s h id hid => (h.2.answered id hid).2⟩

/-- A cancelled job, and one that a worker finishes. -/
def settledRun : List (Action 1) := [
  .enqueue (.request ⟨7⟩ none) ⟨1⟩ 0,
  .cancelRead 0 ⟨1⟩,
  .cancelWrite 0 0,
  .cancelAnswer 0,
  .enqueue (.request ⟨8⟩ none) ⟨2⟩ 0,
  .claim 0 0 [] true,
  .complete 0 0,
  .recoverStale 900 (Time.seconds 901)]

theorem settledRun_absorbing :
    (exec step (World.init []) settledRun).any (fun t => ⟨1⟩ ∈ t.answered) = true ∧
      Each step Absorbed (World.init []) settledRun ∧
      Always step AnswersStand (World.init []) settledRun := by
  refine ⟨by decide, terminal_absorbing [] settledRun ?_⟩
  refine @Each.of_check _ _ step Orderly
    (fun s a => quiet s a && match a with
      | .cancelWrite _ _ => s.jobs.rows.all fun r => r.state ≠ .succeeded && r.state ≠ .failed
      | _ => true) (fun s a h => ?_) _ _ (by decide)
  rw [Bool.and_eq_true] at h
  refine ⟨undisturbed_of_quiet h.1, ?_⟩
  rintro q now rfl r hr -
  simpa using (List.all_eq_true.mp h.2) r hr

/-- A cancellation of a running job, answered with success while the handler goes on. -/
def cancelledRun : List (Action 1) := [
  .enqueue (.request ⟨7⟩ none) ⟨1⟩ 0,
  .claim 0 0 [] true,
  .cancelRead 0 ⟨1⟩,
  .cancelWrite 0 0,
  .cancelAnswer 0,
  .failRead 0 (.storage "connection reset")]

/-- The handler's retryable failure then puts the cancelled job back into the queue. -/
theorem cancelledRun_not_absorbing :
    ¬ Each step Absorbed (World.init []) (cancelledRun ++ [.failWrite 0 0]) ∧
      ¬ Always step AnswersStand (World.init []) (cancelledRun ++ [.failWrite 0 0]) := by
  obtain ⟨t, ht, htest⟩ := @exists_exec _ _ step (World.init []) cancelledRun
    (fun t => (step t (.failWrite 0 0)).any fun u => ⟨1⟩ ∈ u.answered &&
      t.jobs.rows.any fun r => r.id = ⟨1⟩ && r.state = .cancelled &&
        u.jobs.rows.any fun r' => r'.id = ⟨1⟩ && r'.state = .queued) (by decide)
  obtain ⟨u, hu, htest⟩ := (Option.any_eq_true _ _).mp htest
  simp only [Bool.and_eq_true, decide_eq_true_eq, List.any_eq_true] at htest
  obtain ⟨hanswered, r, hr, ⟨hid, hcancelled⟩, r', hr', hid', hqueued⟩ := htest
  constructor
  · refine not_each_of_exec ht hu fun h => ?_
    have := h u hu r hr (by simp [hcancelled, isTerminal]) r' hr' (hid'.trans hid.symm)
    rw [hqueued, hcancelled] at this
    cases this
  · refine not_always_of_exec (by rw [exec_append, ht]; simpa using hu) fun h => ?_
    have := h ⟨1⟩ hanswered r' hr' hid'
    rw [hqueued] at this
    cases this

end Engine
end Nyuka
