import Nyuka.Jobs.Engine

/-! What one step can do to the job table and to the parties. Every invariant below is derived
from these lemmas; none of them unfolds `step` again. -/
namespace Nyuka
namespace Engine
open Queue Tables

variable {pool : ℕ} {s t : World pool} {a : Action pool}

/-- The row a step adds to the table. -/
inductive Adds (s : World pool) : Action pool → JobRow → Prop where
  | enqueued {p : Producer} {id : JobId} {now : Time} (hid : id ∉ s.issued)
      (hkey : byKey s.jobs (some (p.key now)) = none) :
      Adds s (.enqueue p id now) ((p.enqueue now).row id now)
  | foreign {f : ForeignRow} {id : JobId} {now : Time} (hid : id ∉ s.issued) :
      Adds s (.foreign f id now) (f.row id now)
  | retried {q : ℕ} {id : JobId} {now : Time} {job : Job} (hid : id ∉ s.issued)
      (hq : s.requests q = .retryRead job)
      (hkey : byKey s.jobs (retryOf job).idempotencyKey = none) :
      Adds s (.retryEnqueue q id now) ((retryOf job).row id now)

/-- What a step makes of a row that its statement hits. -/
inductive Changes (s : World pool) : Action pool → JobRow → JobRow → Prop where
  | claimed {w : Fin pool} {now : Time} {locked : List JobId} {delivered : Bool} {r : JobRow}
      (hw : s.workers w = .idle) (hnext : nextClaimable s.jobs now locked = some r)
      (hfits : r.attempts + 1 ≤ maxInteger) :
      Changes s (.claim w now locked delivered) r (r.leased (workerName w) now)
  | completed {w : Fin pool} {now : Time} {job : Job} {listed : Option (List SourceRepoId)}
      {r : JobRow} (hw : s.workers w = .handling job listed) (hid : r.id = job.id) :
      Changes s (.complete w now) r (r.finished .succeeded none now)
  | gaveUp {w : Fin pool} {now : Time} {job : Job} {error : DomainError} {r : JobRow}
      (hw : s.workers w = .failing job error .exhausted) (hid : r.id = job.id) :
      Changes s (.failWrite w now) r (r.finished .failed (some error.toText) now)
  | requeued {w : Fin pool} {now : Time} {job : Job} {error : DomainError} {delay : ℤ}
      {r : JobRow} (hw : s.workers w = .failing job error (.retryAfter delay))
      (hid : r.id = job.id) :
      Changes s (.failWrite w now) r (r.requeued (now + Time.seconds delay) error.toText now)
  | released {now : Time} {r : JobRow} (hworkers : ∀ w, (s.workers w).job? = none)
      (hstale : stale (now - Time.seconds (0 : ℕ)) r = true) :
      Changes s (.release now) r (r.recovered now)
  | recovered {olderThan : ℕ} {now : Time} {r : JobRow}
      (hstale : stale (now - Time.seconds olderThan) r = true) :
      Changes s (.recoverStale olderThan now) r (r.recovered now)
  | cancelled {q : ℕ} {now : Time} {id : JobId} {r : JobRow}
      (hq : s.requests q = .cancelChecked id) (hid : r.id = id) :
      Changes s (.cancelWrite q now) r (r.finished .cancelled none now)

/-- The rows a step deletes. -/
inductive Deletes : Action pool → JobRow → Prop where
  | pruned {olderThan : ℕ} {now : Time} {r : JobRow}
      (hprunable : prunable (now - Time.seconds olderThan) r = true) :
      Deletes (.prune olderThan now) r

/-- The row is in the table after the step. -/
def After (s : World pool) (a : Action pool) (r' : JobRow) : Prop :=
  Adds s a r' ∨ (∃ r ∈ s.jobs.rows, Changes s a r r') ∨
    (r' ∈ s.jobs.rows ∧ ¬ Deletes a r' ∧ ∀ r'', ¬ Changes s a r' r'')

theorem after_iff_of_untouched (hjobs : t.jobs = s.jobs) (hadds : ∀ r, ¬ Adds s a r)
    (hchanges : ∀ r r', ¬ Changes s a r r') (hdeletes : ∀ r, ¬ Deletes a r) (r' : JobRow) :
    r' ∈ t.jobs.rows ↔ After s a r' := by
  simp [After, hjobs, hadds, hchanges, hdeletes]

theorem after_iff_of_update {p : JobRow → Bool} {f : JobRow → JobRow}
    (hf : ∀ i r, JobIndex.value i (f r) = JobIndex.value i r)
    (hjobs : t.jobs = s.jobs.updateWhere p f hf) (hadds : ∀ r, ¬ Adds s a r)
    (hchanges : ∀ r ∈ s.jobs.rows, ∀ r', Changes s a r r' ↔ p r = true ∧ r' = f r)
    (hdeletes : ∀ r, ¬ Deletes a r) (r' : JobRow) :
    r' ∈ t.jobs.rows ↔ After s a r' := by
  rw [hjobs, Table.mem_updateWhere]
  constructor
  · rintro ⟨r, hr, rfl⟩
    by_cases hp : p r = true
    · exact .inr (.inl ⟨r, hr, (hchanges r hr _).mpr ⟨hp, by simp [hp]⟩⟩)
    · refine .inr (.inr ?_)
      simp only [hp]
      exact ⟨hr, hdeletes r, fun r'' h => hp ((hchanges r hr r'').mp h).1⟩
  · rintro (hadd | ⟨r, hr, hchange⟩ | ⟨hr, -, hkept⟩)
    · exact absurd hadd (hadds r')
    · obtain ⟨hp, rfl⟩ := (hchanges r hr r').mp hchange
      exact ⟨r, hr, by simp [hp]⟩
    · refine ⟨r', hr, if_neg fun hp => ?_⟩
      exact hkept (f r') ((hchanges r' hr _).mpr ⟨hp, rfl⟩)

/-- An enqueue leaves the table as it is, or adds its row when no row holds its key. -/
theorem enqueue_rows {e : Enqueue} {id named : JobId} {now : Time}
    (h : s.enqueue e id now = some (t, named)) :
    id ∉ s.issued ∧ t.issued = id :: s.issued ∧ t.workers = s.workers ∧
      t.requests = s.requests ∧ t.answered = s.answered ∧ t.repos = s.repos ∧
      ((∃ row, byKey s.jobs e.idempotencyKey = some row ∧ t.jobs = s.jobs ∧ named = row.id) ∨
        (byKey s.jobs e.idempotencyKey = none ∧ named = id ∧
          t.jobs.rows = e.row id now :: s.jobs.rows)) := by
  unfold World.enqueue at h
  split at h
  · cases h
  · next hid =>
    cases henqueue : Queue.enqueue s.jobs e id now with
    | error e => simp [henqueue] at h
    | ok answer =>
      obtain ⟨jobs, named'⟩ := answer
      simp only [henqueue, Option.some.injEq, Prod.mk.injEq] at h
      obtain ⟨rfl, rfl⟩ := h
      exact ⟨hid, rfl, rfl, rfl, rfl, rfl, enqueue_cases henqueue⟩

/-- The action has a statement that writes job rows. -/
def Action.WritesRows : Action pool → Prop
  | .enqueue _ _ _ | .foreign _ _ _ | .claim _ _ _ _ | .complete _ _ | .failWrite _ _
  | .release _ | .recoverStale _ _ | .cancelWrite _ _ | .retryEnqueue _ _ _ | .prune _ _ => True
  | _ => False

/-- The action draws a uuid for a row. -/
def Action.Draws : Action pool → Prop
  | .enqueue _ _ _ | .foreign _ _ _ | .retryEnqueue _ _ _ => True
  | _ => False

/-- The action is one of the pool. -/
def Action.Works : Action pool → Prop
  | .claim _ _ _ _ | .listRepos _ | .complete _ _ | .failRead _ _ | .failWrite _ _
  | .reportLost _ | .panic _ | .abortAll | .restart => True
  | _ => False

/-- The action is one of the API's requests, or ends them. -/
def Action.Requests : Action pool → Prop
  | .cancelRead _ _ | .cancelWrite _ _ | .cancelAnswer _ | .retryRead _ _ | .retryEnqueue _ _ _
  | .restart => True
  | _ => False

/-- What a step leaves alone. -/
structure Frame (s t : World pool) (a : Action pool) : Prop where
  jobs : ¬ a.WritesRows → t.jobs = s.jobs
  issued : ¬ a.Draws → t.issued = s.issued
  workers : ¬ a.Works → t.workers = s.workers
  requests : ¬ a.Requests → t.requests = s.requests
  answered : (∀ q, a ≠ .cancelAnswer q) → t.answered = s.answered

theorem step_frame (h : step s a = some t) : Frame s t a := by
  cases a with
  | enqueue p id now =>
    obtain ⟨⟨u, named⟩, hu, rfl⟩ := Option.map_eq_some_iff.mp h
    obtain ⟨-, -, hworkers, hrequests, hanswered, -⟩ := enqueue_rows hu
    exact ⟨absurd trivial, absurd trivial, fun _ => hworkers, fun _ => hrequests,
      fun _ => hanswered⟩
  | retryEnqueue q id now =>
    simp only [step] at h
    split at h
    · obtain ⟨⟨u, named⟩, hu, rfl⟩ := Option.map_eq_some_iff.mp h
      obtain ⟨-, -, hworkers, -, hanswered, -⟩ := enqueue_rows hu
      exact ⟨absurd trivial, absurd trivial, fun _ => hworkers, absurd trivial,
        fun _ => hanswered⟩
    · cases h
  | foreign f id now =>
    simp only [step] at h
    split at h <;> cases h
    exact ⟨absurd trivial, absurd trivial, fun _ => rfl, fun _ => rfl, fun _ => rfl⟩
  | complete w now | failWrite w now =>
    simp only [step] at h
    split at h <;> cases h
    exact ⟨absurd trivial, fun _ => rfl, absurd trivial, fun _ => rfl, fun _ => rfl⟩
  | listRepos w | panic w =>
    simp only [step] at h
    split at h <;> cases h
    exact ⟨fun _ => rfl, fun _ => rfl, absurd trivial, fun _ => rfl, fun _ => rfl⟩
  | reportLost w =>
    simp only [step] at h
    split at h <;> cases h <;>
      exact ⟨fun _ => rfl, fun _ => rfl, absurd trivial, fun _ => rfl, fun _ => rfl⟩
  | claim w now locked delivered =>
    simp only [step] at h
    split at h
    · split at h <;> cases h <;>
        exact ⟨absurd trivial, fun _ => rfl, absurd trivial, fun _ => rfl, fun _ => rfl⟩
    · cases h
  | failRead w error =>
    simp only [step] at h
    split at h
    · split at h <;> cases h <;>
        exact ⟨fun _ => rfl, fun _ => rfl, absurd trivial, fun _ => rfl, fun _ => rfl⟩
    · cases h
  | release now =>
    simp only [step] at h
    split at h <;> cases h
    exact ⟨absurd trivial, fun _ => rfl, fun _ => rfl, fun _ => rfl, fun _ => rfl⟩
  | cancelWrite q now =>
    simp only [step] at h
    split at h <;> cases h
    exact ⟨absurd trivial, fun _ => rfl, fun _ => rfl, absurd trivial, fun _ => rfl⟩
  | cancelRead q id | retryRead q id =>
    simp only [step] at h
    split at h
    · split at h <;> cases h <;>
        exact ⟨fun _ => rfl, fun _ => rfl, fun _ => rfl, absurd trivial, fun _ => rfl⟩
    · cases h
      exact ⟨fun _ => rfl, fun _ => rfl, fun _ => rfl, absurd trivial, fun _ => rfl⟩
    · cases h
  | cancelAnswer q =>
    simp only [step] at h
    split at h
    · split at h <;> cases h <;>
        exact ⟨fun _ => rfl, fun _ => rfl, fun _ => rfl, absurd trivial,
          fun hother => absurd rfl (hother q)⟩
    · cases h
  | recoverStale _ _ | prune _ _ =>
    cases h
    exact ⟨absurd trivial, fun _ => rfl, fun _ => rfl, fun _ => rfl, fun _ => rfl⟩
  | abortAll =>
    cases h
    exact ⟨fun _ => rfl, fun _ => rfl, absurd trivial, fun _ => rfl, fun _ => rfl⟩
  | restart =>
    cases h
    exact ⟨fun _ => rfl, fun _ => rfl, absurd trivial, absurd trivial, fun _ => rfl⟩
  | addRepo _ | removeRepo _ =>
    cases h
    exact ⟨fun _ => rfl, fun _ => rfl, fun _ => rfl, fun _ => rfl, fun _ => rfl⟩

theorem enqueue_adds {e : Enqueue} {id named : JobId} {now : Time}
    (h : s.enqueue e id now = some (t, named))
    (hadds : ∀ r, Adds s a r ↔ byKey s.jobs e.idempotencyKey = none ∧ r = e.row id now)
    (hchanges : ∀ r r', ¬ Changes s a r r') (hdeletes : ∀ r, ¬ Deletes a r) (r' : JobRow) :
    r' ∈ t.jobs.rows ↔ After s a r' := by
  obtain ⟨-, -, -, -, -, -, ⟨row, hkey, hjobs, -⟩ | ⟨hkey, -, hrows⟩⟩ := enqueue_rows h
  · simp [After, hjobs, hadds, hchanges, hdeletes, hkey]
  · simp [After, hrows, hadds, hchanges, hdeletes, hkey]

private theorem claim_rows {w : Fin pool} {now : Time} {locked : List JobId} {delivered : Bool}
    (hw : s.workers w = .idle)
    (hjobs : t.jobs = (claim s.jobs (workerName w) now locked).1) (r' : JobRow) :
    r' ∈ t.jobs.rows ↔ After s (.claim w now locked delivered) r' := by
  unfold claim at hjobs
  split at hjobs
  · next hnext =>
    refine after_iff_of_untouched hjobs (by rintro r ⟨⟩) (fun r r' h => ?_) (by rintro r ⟨⟩) r'
    cases h with
    | claimed _ hnext' _ => rw [hnext] at hnext'; cases hnext'
  · next row hnext =>
    split at hjobs
    · next hoverflow =>
      refine after_iff_of_untouched hjobs (by rintro r ⟨⟩) (fun r r' h => ?_)
        (by rintro r ⟨⟩) r'
      cases h with
      | claimed _ hnext' hfits => rw [hnext] at hnext'; cases hnext'; omega
    · next hfits =>
      refine after_iff_of_update (fun i r => by cases i <;> rfl) hjobs (by rintro r ⟨⟩)
        (fun r hr r' => ?_) (by rintro r ⟨⟩) r'
      constructor
      · intro h
        cases h with
        | claimed _ hnext' _ => rw [hnext] at hnext'; cases hnext'; simp
      · rintro ⟨hid, rfl⟩
        have hrow := (nextClaimable_spec hnext).1
        have heq : r = row := (s.jobs.unique .id).eq_of_mem hr hrow
          (k := row.id) (by simpa [JobIndex.value] using hid) rfl
        subst heq
        exact .claimed hw hnext (by omega)

private theorem enqueue_after {p : Producer} {id : JobId} {now : Time}
    (h : step s (.enqueue p id now) = some t) (r' : JobRow) :
    r' ∈ t.jobs.rows ↔ After s (.enqueue p id now) r' := by
  obtain ⟨⟨u, named⟩, hu, rfl⟩ := Option.map_eq_some_iff.mp h
  have hid := (enqueue_rows hu).1
  refine enqueue_adds hu (fun r => ?_) (by rintro r r' ⟨⟩) (by rintro r ⟨⟩) r'
  rw [Producer.enqueue_idempotencyKey]
  refine ⟨fun h => ?_, fun h => h.2 ▸ .enqueued hid h.1⟩
  cases h with
  | enqueued _ hkey => exact ⟨hkey, rfl⟩

private theorem foreign_after {f : ForeignRow} {id : JobId} {now : Time}
    (h : step s (.foreign f id now) = some t) (r' : JobRow) :
    r' ∈ t.jobs.rows ↔ After s (.foreign f id now) r' := by
  simp only [step] at h
  split at h
  · next hfree =>
    cases h
    have hadds : ∀ r, Adds s (.foreign f id now) r ↔ r = f.row id now := fun r =>
      ⟨fun h => by cases h; rfl, fun hr => hr ▸ .foreign hfree.1⟩
    have hchanges : ∀ r r', ¬ Changes s (.foreign f id now) r r' := by rintro r r' ⟨⟩
    have hdeletes : ∀ r, ¬ Deletes (.foreign f id now : Action pool) r := by
      rintro r ⟨⟩
    simp [After, hadds, hchanges, hdeletes]
  · cases h

private theorem complete_after {w : Fin pool} {now : Time}
    (h : step s (.complete w now) = some t) (r' : JobRow) :
    r' ∈ t.jobs.rows ↔ After s (.complete w now) r' := by
  cases hw : s.workers w with
  | handling job listed =>
    simp only [step, hw, Option.some.injEq] at h
    refine after_iff_of_update (fun i r => by cases i <;> rfl) (congrArg World.jobs h).symm
      (by rintro r ⟨⟩) (fun r _ r' => ?_) (by rintro r ⟨⟩) r'
    constructor
    · intro h
      cases h with
      | completed hw' hid => rw [hw] at hw'; cases hw'; simp [hid]
    · rintro ⟨hid, rfl⟩
      exact .completed hw (by simpa using hid)
  | _ => simp [step, hw] at h

private theorem failWrite_after {w : Fin pool} {now : Time}
    (h : step s (.failWrite w now) = some t) (r' : JobRow) :
    r' ∈ t.jobs.rows ↔ After s (.failWrite w now) r' := by
  cases hw : s.workers w with
  | failing job error verdict =>
    simp only [step, hw, Option.some.injEq] at h
    cases verdict with
    | exhausted =>
      refine after_iff_of_update (fun i r => by cases i <;> rfl) (congrArg World.jobs h).symm
        (by rintro r ⟨⟩) (fun r _ r' => ?_) (by rintro r ⟨⟩) r'
      constructor
      · intro h
        cases h with
        | gaveUp hw' hid => rw [hw] at hw'; cases hw'; simp [hid]
        | requeued hw' hid => rw [hw] at hw'; cases hw'
      · rintro ⟨hid, rfl⟩
        exact .gaveUp hw (by simpa using hid)
    | retryAfter delay =>
      refine after_iff_of_update (fun i r => by cases i <;> rfl) (congrArg World.jobs h).symm
        (by rintro r ⟨⟩) (fun r _ r' => ?_) (by rintro r ⟨⟩) r'
      constructor
      · intro h
        cases h with
        | gaveUp hw' hid => rw [hw] at hw'; cases hw'
        | requeued hw' hid => rw [hw] at hw'; cases hw'; simp [hid]
      · rintro ⟨hid, rfl⟩
        exact .requeued hw (by simpa using hid)
  | _ => simp [step, hw] at h

private theorem release_after {now : Time}
    (h : step s (.release now) = some t) (r' : JobRow) :
    r' ∈ t.jobs.rows ↔ After s (.release now) r' := by
  simp only [step] at h
  split at h
  · next hworkers =>
    simp only [Option.some.injEq] at h
    refine after_iff_of_update (fun i r => by cases i <;> rfl) (congrArg World.jobs h).symm
      (by rintro r ⟨⟩) (fun r _ r' => ?_) (by rintro r ⟨⟩) r'
    constructor
    · intro h
      cases h with
      | released _ hstale => exact ⟨hstale, rfl⟩
    · rintro ⟨hstale, rfl⟩
      exact .released (by simpa using hworkers) hstale
  · cases h

private theorem recoverStale_after {olderThan : ℕ} {now : Time}
    (h : step s (.recoverStale olderThan now) = some t) (r' : JobRow) :
    r' ∈ t.jobs.rows ↔ After s (.recoverStale olderThan now) r' := by
  simp only [step, Option.some.injEq] at h
  refine after_iff_of_update (fun i r => by cases i <;> rfl) (congrArg World.jobs h).symm
    (by rintro r ⟨⟩) (fun r _ r' => ?_) (by rintro r ⟨⟩) r'
  constructor
  · intro h
    cases h with
    | recovered hstale => exact ⟨hstale, rfl⟩
  · rintro ⟨hstale, rfl⟩
    exact .recovered hstale

private theorem cancelWrite_after {q : ℕ} {now : Time}
    (h : step s (.cancelWrite q now) = some t) (r' : JobRow) :
    r' ∈ t.jobs.rows ↔ After s (.cancelWrite q now) r' := by
  cases hq : s.requests q with
  | cancelChecked id =>
    simp only [step, hq, Option.some.injEq] at h
    refine after_iff_of_update (fun i r => by cases i <;> rfl) (congrArg World.jobs h).symm
      (by rintro r ⟨⟩) (fun r _ r' => ?_) (by rintro r ⟨⟩) r'
    constructor
    · intro h
      cases h with
      | cancelled hq' hid => rw [hq] at hq'; cases hq'; simp [hid]
    · rintro ⟨hid, rfl⟩
      exact .cancelled hq (by simpa using hid)
  | _ => simp [step, hq] at h

private theorem retryEnqueue_after {q : ℕ} {id : JobId} {now : Time}
    (h : step s (.retryEnqueue q id now) = some t) (r' : JobRow) :
    r' ∈ t.jobs.rows ↔ After s (.retryEnqueue q id now) r' := by
  cases hq : s.requests q with
  | retryRead job =>
    simp only [step, hq] at h
    obtain ⟨⟨u, named⟩, hu, rfl⟩ := Option.map_eq_some_iff.mp h
    have hid := (enqueue_rows hu).1
    have hrows : ∀ r', r' ∈ u.jobs.rows ↔ After s (.retryEnqueue q id now) r' := by
      refine enqueue_adds hu (fun r => ?_) (by rintro r r' ⟨⟩) (by rintro r ⟨⟩)
      refine ⟨fun h => ?_, fun h => h.2 ▸ .retried hid hq h.1⟩
      cases h with
      | retried _ hq' hkey => rw [hq] at hq'; cases hq'; exact ⟨hkey, rfl⟩
    exact hrows r'
  | _ => simp [step, hq] at h

private theorem prune_after {olderThan : ℕ} {now : Time}
    (h : step s (.prune olderThan now) = some t) (r' : JobRow) :
    r' ∈ t.jobs.rows ↔ After s (.prune olderThan now) r' := by
  simp only [step, Option.some.injEq] at h
  subst h
  have hadds : ∀ r, ¬ Adds s (.prune olderThan now) r := by rintro r ⟨⟩
  have hchanges : ∀ r r', ¬ Changes s (.prune olderThan now) r r' := by rintro r r' ⟨⟩
  have hdeletes : ∀ r, Deletes (.prune olderThan now : Action pool) r ↔
      prunable (now - Time.seconds olderThan) r = true := fun r =>
    ⟨fun h => by cases h; assumption, .pruned⟩
  simp [After, hadds, hchanges, hdeletes, prune]

/-- A step turns the table into exactly the rows it adds, the rows it changes as it changes
them, and the rows its statement does not hit. -/
theorem step_rows (h : step s a = some t) (r' : JobRow) :
    r' ∈ t.jobs.rows ↔ After s a r' := by
  cases a with
  | enqueue p id now => exact enqueue_after h r'
  | foreign f id now => exact foreign_after h r'
  | claim w now locked delivered =>
    cases hw : s.workers w with
    | idle =>
      simp only [step, hw] at h
      refine claim_rows hw ?_ r'
      split at h <;> cases h <;> rfl
    | _ => simp [step, hw] at h
  | complete w now => exact complete_after h r'
  | failWrite w now => exact failWrite_after h r'
  | release now => exact release_after h r'
  | recoverStale olderThan now => exact recoverStale_after h r'
  | cancelWrite q now => exact cancelWrite_after h r'
  | retryEnqueue q id now => exact retryEnqueue_after h r'
  | prune olderThan now => exact prune_after h r'
  | listRepos _ | failRead _ _ | reportLost _ | panic _ | abortAll | restart | cancelRead _ _
  | cancelAnswer _ | retryRead _ _ | addRepo _ | removeRepo _ =>
    exact after_iff_of_untouched ((step_frame h).jobs not_false) (by rintro r ⟨⟩)
      (by rintro r r' ⟨⟩) (by rintro r ⟨⟩) r'

/-- The action reports the outcome of the worker's job. -/
def Reports (w : Fin pool) : Action pool → Prop
  | .complete v _ => v = w
  | .failWrite v _ => v = w
  | _ => False

/-- What a step makes of a worker it concerns. -/
inductive Moves (s : World pool) : Action pool → Fin pool → Worker → Prop where
  | claimed {w : Fin pool} {now : Time} {locked : List JobId} {r : JobRow} {job : Job}
      (hr : r ∈ s.jobs.rows)
      (hclaim : Changes s (.claim w now locked true) r (r.leased (workerName w) now))
      (hjob : rowToJob (r.leased (workerName w) now) = .ok job) :
      Moves s (.claim w now locked true) w (.handling job none)
  | listed {w : Fin pool} {job : Job} (hw : s.workers w = .handling job none) :
      Moves s (.listRepos w) w (.handling job (some s.repos))
  | completed {w : Fin pool} {now : Time} : Moves s (.complete w now) w .idle
  | decided {w : Fin pool} {error : DomainError} {job : Job}
      {listed : Option (List SourceRepoId)} {verdict : Verdict}
      (hw : s.workers w = .handling job listed)
      (hread : failRead s.jobs job.id error.isRetryable = .ok verdict) :
      Moves s (.failRead w error) w (.failing job error verdict)
  | unread {w : Fin pool} {error : DomainError} : Moves s (.failRead w error) w .idle
  | failed {w : Fin pool} {now : Time} : Moves s (.failWrite w now) w .idle
  | lost {w : Fin pool} : Moves s (.reportLost w) w .idle
  | panicked {w : Fin pool} : Moves s (.panic w) w .stopped
  | aborted {w : Fin pool} : Moves s .abortAll w .stopped
  | restarted {w : Fin pool} : Moves s .restart w .idle

private theorem moves_of_setWorker {v : Fin pool} {worker : Worker} {u : World pool}
    (hu : u.workers = s.workers) (ht : t = u.setWorker v worker) (hmove : Moves s a v worker)
    (hreports : ∀ w, w ≠ v → ¬ Reports w a) (w : Fin pool) :
    Moves s a w (t.workers w) ∨ (t.workers w = s.workers w ∧ ¬ Reports w a) := by
  subst ht
  by_cases hwv : w = v
  · subst hwv
    exact .inl (by simpa [World.setWorker] using hmove)
  · exact .inr ⟨by simp [World.setWorker, hwv, hu], hreports w hwv⟩

/-- A worker moves, or it stays as it is and has reported nothing. -/
theorem step_worker (h : step s a = some t) (w : Fin pool) :
    Moves s a w (t.workers w) ∨ (t.workers w = s.workers w ∧ ¬ Reports w a) := by
  cases a with
  | claim v now locked delivered =>
    cases hv : s.workers v with
    | idle =>
      simp only [step, hv] at h
      split at h
      · next job hanswer =>
        cases h
        have hmove : Moves s (.claim v now locked true) v (.handling job none) := by
          obtain ⟨r, hnext, hfits, hjob⟩ := claim_job hanswer
          exact .claimed (nextClaimable_spec hnext).1 (.claimed hv hnext hfits) hjob
        exact moves_of_setWorker rfl rfl hmove (fun _ _ => not_false) w
      · cases h
        exact .inr ⟨rfl, not_false⟩
    | _ => simp [step, hv] at h
  | listRepos v =>
    simp only [step] at h
    split at h
    · next job hv => cases h; exact moves_of_setWorker rfl rfl (.listed hv) (fun _ _ => not_false) w
    · cases h
  | complete v now =>
    simp only [step] at h
    split at h
    · cases h
      exact moves_of_setWorker rfl rfl .completed (fun w hw h => hw h.symm) w
    · cases h
  | failRead v error =>
    simp only [step] at h
    split at h
    · next job listed hv =>
      split at h
      · next verdict hread =>
        cases h
        exact moves_of_setWorker rfl rfl (.decided hv hread) (fun _ _ => not_false) w
      · cases h
        exact moves_of_setWorker rfl rfl .unread (fun _ _ => not_false) w
    · cases h
  | failWrite v now =>
    simp only [step] at h
    split at h
    · cases h
      exact moves_of_setWorker rfl rfl .failed (fun w hw h => hw h.symm) w
    · cases h
  | reportLost v =>
    simp only [step] at h
    split at h <;> cases h <;> exact moves_of_setWorker rfl rfl .lost (fun _ _ => not_false) w
  | panic v =>
    simp only [step] at h
    split at h <;> cases h
    exact moves_of_setWorker rfl rfl .panicked (fun _ _ => not_false) w
  | abortAll => cases h; exact .inl .aborted
  | restart => cases h; exact .inl .restarted
  | enqueue _ _ _ | foreign _ _ _ | release _ | recoverStale _ _ | cancelRead _ _
  | cancelWrite _ _ | cancelAnswer _ | retryRead _ _ | retryEnqueue _ _ _ | prune _ _ | addRepo _
  | removeRepo _ => exact .inr ⟨congrFun ((step_frame h).workers not_false) w, not_false⟩

/-- What a step makes of an API request it concerns. -/
inductive Proceeds (s : World pool) : Action pool → ℕ → Request → Prop where
  | cancelChecked {q : ℕ} {id : JobId} {job : Job} (hget : get s.jobs id = .ok job)
      (hlive : isTerminal job.state = false) :
      Proceeds s (.cancelRead q id) q (.cancelChecked id)
  | cancelWritten {q : ℕ} {now : Time} {id : JobId} (hq : s.requests q = .cancelChecked id) :
      Proceeds s (.cancelWrite q now) q (.cancelWritten id)
  | cancelAnswered {q : ℕ} : Proceeds s (.cancelAnswer q) q .idle
  | retryRead {q : ℕ} {id : JobId} {job : Job} (hget : get s.jobs id = .ok job)
      (hterminal : isTerminal job.state = true) :
      Proceeds s (.retryRead q id) q (.retryRead job)
  | retried {q : ℕ} {id : JobId} {now : Time} : Proceeds s (.retryEnqueue q id now) q .idle
  | restarted {q : ℕ} : Proceeds s .restart q .idle

private theorem proceeds_of_setRequest {p : ℕ} {request : Request} {u : World pool}
    (hu : u.requests = s.requests) (ht : t = u.setRequest p request)
    (hmove : Proceeds s a p request) (q : ℕ) :
    Proceeds s a q (t.requests q) ∨ t.requests q = s.requests q := by
  subst ht
  by_cases hqp : q = p
  · subst hqp
    exact .inl (by simpa [World.setRequest] using hmove)
  · exact .inr (by simp [World.setRequest, hqp, hu])

theorem step_request (h : step s a = some t) (q : ℕ) :
    Proceeds s a q (t.requests q) ∨ t.requests q = s.requests q := by
  cases a with
  | cancelRead p id =>
    simp only [step] at h
    split at h
    · next job hp hget =>
      split at h
      · cases h; exact .inr rfl
      · next hlive =>
        cases h
        exact proceeds_of_setRequest rfl rfl (.cancelChecked hget (by simpa using hlive)) q
    · cases h; exact .inr rfl
    · cases h
  | cancelWrite p now =>
    simp only [step] at h
    split at h
    · next id hp => cases h; exact proceeds_of_setRequest rfl rfl (.cancelWritten hp) q
    · cases h
  | cancelAnswer p =>
    simp only [step] at h
    split at h
    · split at h <;> cases h <;> exact proceeds_of_setRequest rfl rfl .cancelAnswered q
    · cases h
  | retryRead p id =>
    simp only [step] at h
    split at h
    · next job hp hget =>
      split at h
      · next hterminal =>
        cases h
        exact proceeds_of_setRequest rfl rfl (.retryRead hget hterminal) q
      · cases h; exact .inr rfl
    · cases h; exact .inr rfl
    · cases h
  | retryEnqueue p id now =>
    simp only [step] at h
    split at h
    · obtain ⟨⟨u, named⟩, hu, rfl⟩ := Option.map_eq_some_iff.mp h
      exact proceeds_of_setRequest (enqueue_rows hu).2.2.2.1 rfl .retried q
    · cases h
  | restart => cases h; exact .inl .restarted
  | enqueue _ _ _ | foreign _ _ _ | claim _ _ _ _ | listRepos _ | complete _ _ | failRead _ _
  | failWrite _ _ | reportLost _ | panic _ | abortAll | release _ | recoverStale _ _ | prune _ _
  | addRepo _ | removeRepo _ => exact .inr (congrFun ((step_frame h).requests not_false) q)

/-- The cancellations answered with success grow by one when such an answer is given. -/
theorem step_answered (h : step s a = some t) :
    t.answered = s.answered ∨ ∃ q id, a = .cancelAnswer q ∧ s.requests q = .cancelWritten id ∧
      t.answered = id :: s.answered := by
  by_cases hother : ∀ q, a ≠ .cancelAnswer q
  · exact .inl ((step_frame h).answered hother)
  · push Not at hother
    obtain ⟨q, rfl⟩ := hother
    simp only [step] at h
    split at h
    · next id hq =>
      split at h <;> cases h
      · exact .inr ⟨q, id, rfl, hq, rfl⟩
      · exact .inl rfl
    · cases h

/-- Drawn uuids stay drawn, and the one of an added row is drawn by the step. -/
theorem step_issued (h : step s a = some t) :
    s.issued ⊆ t.issued ∧ ∀ r, Adds s a r → r.id ∉ s.issued ∧ r.id ∈ t.issued := by
  cases a with
  | enqueue p id now =>
    obtain ⟨⟨u, named⟩, hu, rfl⟩ := Option.map_eq_some_iff.mp h
    obtain ⟨hid, hissued, -⟩ := enqueue_rows hu
    rw [hissued]
    refine ⟨List.subset_cons_self _ _, fun r hr => ?_⟩
    cases hr
    exact ⟨hid, List.mem_cons_self⟩
  | foreign f id now =>
    simp only [step] at h
    split at h <;> cases h
    next hfree =>
    refine ⟨List.subset_cons_self _ _, fun r hr => ?_⟩
    cases hr
    exact ⟨hfree.1, List.mem_cons_self⟩
  | retryEnqueue q id now =>
    simp only [step] at h
    split at h
    · obtain ⟨⟨u, named⟩, hu, rfl⟩ := Option.map_eq_some_iff.mp h
      obtain ⟨hid, hissued, -⟩ := enqueue_rows hu
      change s.issued ⊆ u.issued ∧ ∀ r : JobRow, _ → r.id ∉ s.issued ∧ r.id ∈ u.issued
      rw [hissued]
      refine ⟨List.subset_cons_self _ _, fun r hr => ?_⟩
      cases hr
      exact ⟨hid, List.mem_cons_self⟩
    · cases h
  | claim _ _ _ _ | listRepos _ | complete _ _ | failRead _ _ | failWrite _ _ | reportLost _
  | panic _ | abortAll | release _ | restart | recoverStale _ _ | cancelRead _ _ | cancelWrite _ _
  | cancelAnswer _ | retryRead _ _ | prune _ _ | addRepo _ | removeRepo _ =>
    exact ⟨(step_frame h).issued not_false ▸ List.Subset.refl _, by rintro r ⟨⟩⟩

/-- The columns no statement writes after the insert. -/
structure SameJob (r r' : JobRow) : Prop where
  id : r'.id = r.id
  kind : r'.kind = r.kind
  payload : r'.payload = r.payload
  idempotencyKey : r'.idempotencyKey = r.idempotencyKey
  priority : r'.priority = r.priority
  maxAttempts : r'.maxAttempts = r.maxAttempts

theorem Changes.sameJob {r r' : JobRow} (h : Changes s a r r') : SameJob r r' := by
  cases h <;> exact ⟨rfl, rfl, rfl, rfl, rfl, rfl⟩

/-- Two rows of one table with the same id are the same row. -/
theorem row_unique {r r' : JobRow} (hr : r ∈ s.jobs.rows) (hr' : r' ∈ s.jobs.rows)
    (hid : r.id = r'.id) : r = r' :=
  (s.jobs.unique .id).eq_of_mem hr hr' (k := r'.id) (congrArg some hid) rfl

/-- A row a step neither changes nor deletes is still there. -/
theorem row_kept (h : step s a = some t) {r : JobRow} (hr : r ∈ s.jobs.rows)
    (hdeletes : ¬ Deletes a r) (hchanges : ∀ r', ¬ Changes s a r r') : r ∈ t.jobs.rows :=
  (step_rows h r).mpr (.inr (.inr ⟨hr, hdeletes, hchanges⟩))

/-- The id of every row was drawn by this server. -/
def Drawn (s : World pool) : Prop := ∀ r ∈ s.jobs.rows, r.id ∈ s.issued

theorem drawn_step (hdrawn : Drawn s) (h : step s a = some t) : Drawn t := by
  intro r' hr'
  obtain ⟨hissued, hadded⟩ := step_issued h
  rcases (step_rows h r').mp hr' with hadds | ⟨r, hr, hchange⟩ | ⟨hkept, -, -⟩
  · exact (hadded r' hadds).2
  · exact hchange.sameJob.id ▸ hissued (hdrawn r hr)
  · exact hissued (hdrawn r' hkept)

/-- A report writes the row of the worker's job. -/
theorem report_changes (h : step s a = some t) {w : Fin pool} (hreports : Reports w a) {job : Job}
    (hjob : (s.workers w).job? = some job) {r : JobRow} (hid : r.id = job.id) :
    ∃ r', Changes s a r r' := by
  cases a with
  | complete v now =>
    obtain rfl : v = w := hreports
    cases hw : s.workers v with
    | handling job' listed =>
      rw [hw] at hjob
      cases hjob
      exact ⟨_, .completed hw hid⟩
    | _ => simp [step, hw] at h
  | failWrite v now =>
    obtain rfl : v = w := hreports
    cases hw : s.workers v with
    | failing job' error verdict =>
      rw [hw] at hjob
      cases hjob
      cases verdict with
      | exhausted => exact ⟨_, .gaveUp hw hid⟩
      | retryAfter delay => exact ⟨_, .requeued hw hid⟩
    | _ => simp [step, hw] at h
  | _ => cases hreports

theorem Adds.queued {r : JobRow} (h : Adds s a r) : r.state = .queued := by cases h <;> rfl

theorem Adds.unique {r r' : JobRow} (h : Adds s a r) (h' : Adds s a r') : r = r' := by
  cases h with
  | enqueued _ _ => cases h'; rfl
  | foreign _ => cases h'; rfl
  | retried _ hq _ => cases h' with | retried _ hq' _ => rw [hq] at hq'; cases hq'; rfl

end Engine
end Nyuka
