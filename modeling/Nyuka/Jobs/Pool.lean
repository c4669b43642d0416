import Nyuka.Jobs.Steps
import Mathlib.Data.Finset.Card
import Mathlib.Data.Fintype.Card

/-! The pool over the life of one process. A loop ends when its handler panics and nothing starts
it again, and a row is claimed before anybody knows whether its job can be executed. -/
namespace Nyuka
namespace Engine
open Queue Runs

variable {pool : ℕ} {s₀ s t : World pool} {a : Action pool}

/-- The loop has not ended. -/
def Worker.loops : Worker → Bool
  | stopped => false
  | _ => true

/-- The worker loops still claiming jobs. -/
def World.claiming (s : World pool) : ℕ := (Finset.univ.filter fun w => (s.workers w).loops).card

/-- `WorkerPool::start` of a new process, on the rows it finds. -/
def World.start (s : World pool) : World pool :=
  { s with workers := fun _ => .idle, requests := fun _ => .idle }

/-- The action is one of a process that has not been asked to shut down. -/
def serving : Action pool → Bool
  | .abortAll | .release _ | .restart => false
  | _ => true

def serve (s : World pool) (a : Action pool) : Option (World pool) :=
  if serving a then step s a else none

/-- One of the workers executes the row's job, or the row is as the process has found it. -/
def AccountedFor (s₀ : World pool) (workers : Fin pool → Worker) (r : JobRow) : Prop :=
  (∃ w job, (workers w).job? = some job ∧ job.id = r.id) ∨ r ∈ s₀.jobs.rows

/-- The pool is complete, and no row is running unaccounted for. -/
structure Staffed (s₀ s : World pool) : Prop where
  complete : s.claiming = pool
  held : ∀ r ∈ s.jobs.rows, r.state = .running → AccountedFor s₀ s.workers r

/-- Without this worker the row of its job would still be accounted for, if it is running. -/
def Relieved (s₀ s : World pool) (w : Fin pool) : Prop :=
  ∀ job, (s.workers w).job? = some job → ∀ r ∈ s.jobs.rows, r.id = job.id → r.state = .running →
    AccountedFor s₀ (Function.update s.workers w .idle) r

/-- No handler panics; a claimed row reaches its worker, who can decode it; and a worker's report
reaches the database. Where a job or a report is lost, somebody else accounts for the row. -/
def Sound (s₀ s : World pool) : Action pool → Prop
  | .panic _ => False
  | .claim w now locked delivered => ∀ r, nextClaimable s.jobs now locked = some r →
      r.attempts + 1 ≤ maxInteger → (delivered = true ∧ (kindFromStr r.kind).isSome = true) ∨
        AccountedFor s₀ s.workers (r.leased (workerName w) now)
  | .reportLost w => Relieved s₀ s w
  | .failRead w error => ∀ job listed, s.workers w = .handling job listed →
      (∃ verdict, failRead s.jobs job.id error.isRetryable = .ok verdict) ∨ Relieved s₀ s w
  | _ => True

theorem claiming_eq_iff : s.claiming = pool ↔ ∀ w, (s.workers w).loops = true := by
  have hcard : (Finset.univ : Finset (Fin pool)).card = pool := by simp
  rw [World.claiming]
  conv_lhs => rhs; rw [← hcard]
  rw [Finset.card_filter_eq_iff]
  simp

theorem staffed_start (s : World pool) : Staffed s.start s.start where
  complete := claiming_eq_iff.mpr fun _ => rfl
  held _ hr _ := .inr hr

theorem step_of_serve (h : serve s a = some t) : serving a = true ∧ step s a = some t := by
  unfold serve at h
  split at h
  · next hserving => exact ⟨hserving, h⟩
  · cases h

/-- A worker keeps its job until it reports, loses its report or panics. -/
theorem job_kept (h : serve s a = some t) {w : Fin pool} {job : Job}
    (hjob : (s.workers w).job? = some job) :
    (t.workers w).job? = some job ∨ Reports w a ∨ a = .reportLost w ∨
      (∃ error, a = .failRead w error ∧ t.workers w = .idle) ∨ a = .panic w := by
  obtain ⟨hserving, hstep⟩ := step_of_serve h
  rcases step_worker hstep w with hmove | ⟨hsame, -⟩
  · generalize hworker : t.workers w = worker at hmove
    cases hmove with
    | claimed hr hclaim hrow =>
      cases hclaim with
      | claimed hidle _ _ => rw [hidle] at hjob; cases hjob
    | listed hw => rw [hw] at hjob; exact .inl hjob
    | completed => exact .inr (.inl rfl)
    | decided hw _ => rw [hw] at hjob; exact .inl hjob
    | unread => exact .inr (.inr (.inr (.inl ⟨_, rfl, rfl⟩)))
    | failed => exact .inr (.inl rfl)
    | lost => exact .inr (.inr (.inl rfl))
    | panicked => exact .inr (.inr (.inr (.inr rfl)))
    | aborted => cases hserving
    | restarted => cases hserving
  · exact .inl (hsame ▸ hjob)

/-- A step without a panic and without shutdown ends no loop. -/
theorem loops_kept (h : serve s a = some t) (hpanic : ∀ w, a ≠ .panic w) {w : Fin pool}
    (hw : (s.workers w).loops = true) : (t.workers w).loops = true := by
  obtain ⟨hserving, hstep⟩ := step_of_serve h
  rcases step_worker hstep w with hmove | ⟨hsame, -⟩
  · generalize t.workers w = worker at hmove
    cases hmove with
    | panicked => exact absurd rfl (hpanic w)
    | aborted => cases hserving
    | _ => rfl
  · rw [hsame, hw]

/-- The claim of a row whose kind is known reaches its worker. -/
theorem claim_delivers {w : Fin pool} {now : Time} {locked : List JobId} {r : JobRow}
    (h : step s (.claim w now locked true) = some t) (hw : s.workers w = .idle)
    (hnext : nextClaimable s.jobs now locked = some r) (hfits : r.attempts + 1 ≤ maxInteger)
    (hkind : (kindFromStr r.kind).isSome = true) :
    ∃ job, (t.workers w).job? = some job ∧ job.id = r.id := by
  obtain ⟨kind, hkind⟩ := Option.isSome_iff_exists.mp hkind
  have hrow : ∃ job, rowToJob (r.leased (workerName w) now) = .ok job := by
    simp [rowToJob, JobRow.leased, hkind]
  obtain ⟨job, hjob⟩ := hrow
  have hanswer : (claim s.jobs (workerName w) now locked).2 = .ok (some job) := by
    rw [claim, hnext]
    simp only [if_neg (by omega : ¬ r.attempts + 1 > maxInteger), hjob]
    rfl
  simp only [step, hw, hanswer, Option.some.injEq] at h
  subst h
  refine ⟨job, ?_, (rowToJob_ok hjob).2.1⟩
  simp [World.setWorker, Worker.job?]

theorem workers_of_reportLost {w : Fin pool} (h : step s (.reportLost w) = some t) :
    t.workers = Function.update s.workers w .idle := by
  simp only [step] at h
  split at h <;> cases h <;> rfl

private theorem workers_of_failRead {w : Fin pool} {error : DomainError}
    (h : step s (.failRead w error) = some t) (hidle : t.workers w = .idle) :
    t.workers = Function.update s.workers w .idle ∧ ∃ job listed,
      s.workers w = .handling job listed ∧
      ∀ verdict, failRead s.jobs job.id error.isRetryable ≠ .ok verdict := by
  simp only [step] at h
  split at h
  · next job listed hw =>
    split at h
    · cases h
      simp [World.setWorker] at hidle
    · next herror =>
      cases h
      exact ⟨rfl, job, listed, hw, fun verdict hok => by rw [hok] at herror; cases herror⟩
  · cases h

/-- A row that is still running after a sound step is still accounted for. -/
theorem accountedFor_step (hstaffed : Staffed s₀ s) (hsound : Sound s₀ s a)
    (h : serve s a = some t) {r : JobRow} (hr : r ∈ t.jobs.rows) (hrunning : r.state = .running) :
    AccountedFor s₀ t.workers r := by
  obtain ⟨hserving, hstep⟩ := step_of_serve h
  rcases (step_rows hstep r).mp hr with hadds | ⟨r₀, hr₀, hchange⟩ | ⟨hkept, -, hmissed⟩
  · rw [hadds.queued] at hrunning
    cases hrunning
  · cases hchange with
    | @claimed w now locked delivered _ hw hnext hfits =>
      rcases hsound r₀ hnext hfits with ⟨rfl, hkind⟩ | ⟨v, job, hjob, hid⟩ | hfound
      · obtain ⟨job, hjob, hid⟩ := claim_delivers hstep hw hnext hfits hkind
        exact .inl ⟨w, job, hjob, hid⟩
      · rcases job_kept h hjob with hjob' | hreports | hlost | ⟨_, hread, -⟩ | hpanic
        · exact .inl ⟨v, job, hjob', hid⟩
        · cases hreports
        · cases hlost
        · cases hread
        · cases hpanic
      · exact .inr hfound
    | _ => cases hrunning
  · rcases hstaffed.held r hkept hrunning with ⟨w, job, hjob, hid⟩ | hfound
    · rcases job_kept h hjob with hjob' | hreports | rfl | ⟨error, rfl, hidle⟩ | rfl
      · exact .inl ⟨w, job, hjob', hid⟩
      · obtain ⟨r', hchange⟩ := report_changes hstep hreports hjob hid.symm
        exact absurd hchange (hmissed r')
      · rw [workers_of_reportLost hstep]
        exact hsound job hjob r hkept hid.symm hrunning
      · obtain ⟨hworkers, job', listed, hw, herror⟩ := workers_of_failRead hstep hidle
        rcases hsound job' listed hw with ⟨verdict, hok⟩ | hrelieved
        · exact absurd hok (herror verdict)
        · rw [hworkers]
          exact hrelieved job hjob r hkept hid.symm hrunning
      · exact hsound.elim
    · exact .inr hfound

/-- A step that leaves the pool complete and every running row accounted for was sound. -/
theorem sound_of_staffed (h : serve s a = some t) (ht : Staffed s₀ t) : Sound s₀ s a := by
  obtain ⟨hserving, hstep⟩ := step_of_serve h
  cases a with
  | panic w =>
    have hw := claiming_eq_iff.mp ht.complete w
    simp only [step] at hstep
    split at hstep
    · cases hstep
      simp [World.setWorker, Worker.loops] at hw
    · cases hstep
  | claim w now locked delivered =>
    intro r hnext hfits
    cases hw : s.workers w with
    | idle =>
      have hchange : Changes s (.claim w now locked delivered) r (r.leased (workerName w) now) :=
        .claimed hw hnext hfits
      have hleased : r.leased (workerName w) now ∈ t.jobs.rows :=
        (step_rows hstep _).mpr (.inr (.inl ⟨r, (nextClaimable_spec hnext).1, hchange⟩))
      have hheld := ht.held _ hleased rfl
      simp only [step, hw] at hstep
      split at hstep
      · next job hanswer =>
        obtain ⟨r', hnext', -, hjob⟩ := claim_job hanswer
        obtain rfl : r = r' := Option.some.inj (hnext.symm.trans hnext')
        have hkind : r.kind = kindToStr job.kind := (rowToJob_ok hjob).1
        exact .inl ⟨rfl, by rw [hkind, kindFromStr_kindToStr]; rfl⟩
      · cases hstep
        exact .inr hheld
    | _ => simp [step, hw] at hstep
  | reportLost w =>
    intro job hjob r hr hid hrunning
    rw [← workers_of_reportLost hstep]
    have hjobs : t.jobs = s.jobs := (step_frame hstep).jobs not_false
    exact ht.held r (hjobs ▸ hr) hrunning
  | failRead w error =>
    intro job listed hw
    cases hread : failRead s.jobs job.id error.isRetryable with
    | ok verdict => exact .inl ⟨verdict, rfl⟩
    | error e =>
      refine .inr fun job hjob r hr hid hrunning => ?_
      have hjobs : t.jobs = s.jobs := (step_frame hstep).jobs not_false
      simp only [step, hw, hread, Option.some.injEq] at hstep
      subst hstep
      exact ht.held r (hjobs ▸ hr) hrunning
  | _ => trivial

theorem staffed_step_iff (hstaffed : Staffed s₀ s) (h : serve s a = some t) :
    Staffed s₀ t ↔ Sound s₀ s a := by
  refine ⟨sound_of_staffed h, fun hsound => ⟨claiming_eq_iff.mpr fun w => ?_, ?_⟩⟩
  · refine loops_kept h ?_ (claiming_eq_iff.mp hstaffed.complete w)
    rintro v rfl
    exact hsound
  · exact fun r hr hrunning => accountedFor_step hstaffed hsound h hr hrunning

/-- From the start of a process on, the pool is complete and accounts for every running row
throughout a run exactly when all steps of the run are sound. -/
theorem staffed_run_iff (s : World pool) (as : List (Action pool)) :
    Always serve (Staffed s.start) s.start as ↔ Each serve (Sound s.start) s.start as :=
  always_iff_each (I := fun _ => True) (fun _ _ _ _ _ => trivial)
    (fun _ _ _ _ hstaffed h => staffed_step_iff hstaffed h) as trivial (staffed_start s)

/-- A handler meets a job it cannot survive. -/
def panickingRun : List (Action 1) := [
  .enqueue (.request ⟨7⟩ none) ⟨1⟩ 0,
  .claim 0 0 [] true,
  .panic 0]

/-- The only loop is gone, and the row is left running. -/
theorem panickingRun_understaffed : ¬ ∀ {pool : ℕ} (s : World pool) (as : List (Action pool)),
    Always serve (Staffed s.start) s.start as := by
  intro h
  obtain ⟨t, ht, htest⟩ := @exists_exec _ _ serve (World.init [] : World 1).start panickingRun
    (fun t => !(t.workers 0).loops) (by decide)
  refine not_always_of_exec ht (fun hstaffed => ?_) (h (World.init []) panickingRun)
  rw [claiming_eq_iff.mp hstaffed.complete 0] at htest
  cases htest

end Engine
end Nyuka
