import Nyuka.Jobs.Steps

/-! What is left of the pool's work once shutdown has returned. The drain may end with each
worker anywhere in its loop, and the release compares a lock stamped by the database's clock with
a cutoff taken from the process's. -/
namespace Nyuka
namespace Engine
open Queue Runs

variable {pool : ℕ} {s t : World pool} {a : Action pool}

/-- What a shutdown did. -/
structure DrainReport where
  drained : ℕ
  released : ℕ
deriving DecidableEq, Repr

/-- How the release statement fares: refused, applied without an answer, or answered. -/
inductive Release where
  | refused | unanswered | answered
deriving DecidableEq, Repr

/-- `shutdown` from the end of the drain on: the stragglers are aborted and joined, then their
rows are released. `drained` workers have stopped by themselves, `now` is what the process's clock
reads for the cutoff. -/
def shutdown (s : World pool) (drained : ℕ) (now : Time) (release : Release) :
    World pool × DrainReport :=
  let stopped : World pool := { s with workers := fun _ => .stopped }
  let released := s.jobs.rows.countP (stale (now - Time.seconds (0 : ℕ)))
  match release with
  | .refused => (stopped, ⟨drained, 0⟩)
  | .unanswered => ({ stopped with jobs := recoverStale s.jobs 0 now }, ⟨drained, 0⟩)
  | .answered => ({ stopped with jobs := recoverStale s.jobs 0 now }, ⟨drained, released⟩)

/-- A worker of this pool holds the row's lock. -/
def ClaimedBy (pool : ℕ) (r : JobRow) : Prop := ∃ w : Fin pool, r.lockedBy = some (workerName w)

instance decidableClaimedBy (pool : ℕ) (r : JobRow) : Decidable (ClaimedBy pool r) := by
  unfold ClaimedBy; infer_instance

/-- Nothing is held and nothing is doubled. -/
structure Drained (s t : World pool) : Prop where
  released : ∀ r ∈ t.jobs.rows, r.state = .running → ¬ ClaimedBy pool r
  kept : ∀ r ∈ s.jobs.rows, r.state = .succeeded → r ∈ t.jobs.rows
  requeued : ∀ r ∈ s.jobs.rows, ClaimedBy pool r →
    ∃ r' ∈ t.jobs.rows, r'.id = r.id ∧ r'.state = .queued

/-- A lock is held by a running row only. -/
def Locks (s : World pool) : Prop :=
  ∀ r ∈ s.jobs.rows, r.lockedBy.isSome → r.state = .running

theorem locks_step (hlocks : Locks s) (h : step s a = some t) : Locks t := by
  intro r' hr' hlocked
  rcases (step_rows h r').mp hr' with hadds | ⟨r, -, hchange⟩ | ⟨hkept, -, -⟩
  · cases hadds <;> cases hlocked
  · cases hchange with
    | claimed _ _ _ => rfl
    | _ => cases hlocked
  · exact hlocks r' hkept hlocked

theorem locks_reachable {repos : List SourceRepoId} (hs : Reachable step (World.init repos) s) :
    Locks s :=
  hs.invariant (fun r hr => by cases hr) fun _ _ _ => locks_step

/-- An applied release is two steps of the engine. -/
theorem exec_shutdown (s : World pool) (drained : ℕ) (now : Time) {release : Release}
    (happlied : release ≠ .refused) :
    exec step s [.abortAll, .release now] = some (shutdown s drained now release).1 := by
  have hnone : ∀ w, ((fun _ : Fin pool => Worker.stopped) w).job?.isNone = true := fun _ => rfl
  cases release with
  | refused => exact absurd rfl happlied
  | unanswered => simp [step, shutdown, Worker.job?]
  | answered => simp [step, shutdown, Worker.job?]

/-- The cutoff of a release is what the process's clock reads. -/
@[simp] theorem release_cutoff (now : Time) :
    now - Time.seconds (0 : ℕ) = now := by simp [Time.seconds]

@[simp] theorem jobs_of_refused (s : World pool) (drained : ℕ) (now : Time) :
    (shutdown s drained now .refused).1.jobs = s.jobs := rfl

theorem mem_shutdown {drained : ℕ} {now : Time} {release : Release} (happlied : release ≠ .refused)
    {r' : JobRow} : r' ∈ (shutdown s drained now release).1.jobs.rows ↔
      ∃ r ∈ s.jobs.rows, (if stale now r then r.recovered now else r) = r' := by
  have hjobs : (shutdown s drained now release).1.jobs = recoverStale s.jobs 0 now := by
    cases release with
    | refused => exact absurd rfl happlied
    | unanswered => rfl
    | answered => rfl
  rw [hjobs, recoverStale, Tables.Table.mem_updateWhere, release_cutoff]

section Shutdown
variable {repos : List SourceRepoId} {drained : ℕ} {now : Time} {release : Release}

/-- A claimed row that the release does not hit stays as it is, running. -/
theorem overtaken_of_drained (hlocks : Locks s)
    (h : Drained s (shutdown s drained now release).1) {r : JobRow} (hr : r ∈ s.jobs.rows)
    (hclaimed : ClaimedBy pool r) :
    release ≠ .refused ∧ r.lockedAt.any (· < now) = true := by
  have hrunning : r.state = .running := by
    obtain ⟨w, hw⟩ := hclaimed
    exact hlocks r hr (by rw [hw]; rfl)
  obtain ⟨r', hr', hid, hqueued⟩ := h.requeued r hr hclaimed
  have happlied : release ≠ .refused := by
    rintro rfl
    rw [jobs_of_refused] at hr'
    rw [row_unique hr' hr hid, hrunning] at hqueued
    cases hqueued
  refine ⟨happlied, ?_⟩
  obtain ⟨r₀, hr₀, hafter⟩ := (mem_shutdown happlied).mp hr'
  split at hafter
  · next hstale =>
    have hsame : r₀ = r := row_unique hr₀ hr (by rw [← hid, ← hafter]; rfl)
    exact (stale_iff.mp (hsame ▸ hstale)).2
  · subst hafter
    rw [row_unique hr₀ hr hid, hrunning] at hqueued
    cases hqueued

theorem drained_of_overtaken (hlocks : Locks s)
    (h : ∀ r ∈ s.jobs.rows, ClaimedBy pool r →
      release ≠ .refused ∧ r.lockedAt.any (· < now) = true) :
    Drained s (shutdown s drained now release).1 := by
  have hstale : ∀ r ∈ s.jobs.rows, ClaimedBy pool r → stale now r = true := by
    intro r hr hclaimed
    have hlocked := (h r hr hclaimed).2
    obtain ⟨w, hw⟩ := hclaimed
    exact stale_iff.mpr ⟨hlocks r hr (by rw [hw]; rfl), hlocked⟩
  by_cases happlied : release = .refused
  · -- then no row was claimed
    subst happlied
    have hnone : ∀ r ∈ s.jobs.rows, ¬ ClaimedBy pool r := fun r hr hclaimed =>
      absurd rfl (h r hr hclaimed).1
    exact ⟨fun r hr _ => hnone r hr, fun r hr _ => hr,
      fun r hr hclaimed => absurd hclaimed (hnone r hr)⟩
  · constructor
    · intro r hr hrunning hclaimed
      obtain ⟨r₀, hr₀, hafter⟩ := (mem_shutdown happlied).mp hr
      split at hafter
      · subst hafter
        cases hrunning
      · next hfresh =>
        subst hafter
        exact hfresh (hstale r₀ hr₀ hclaimed)
    · intro r hr hsucceeded
      refine (mem_shutdown happlied).mpr ⟨r, hr, if_neg fun hrow => ?_⟩
      rw [(stale_iff.mp hrow).1] at hsucceeded
      cases hsucceeded
    · intro r hr hclaimed
      refine ⟨r.recovered now, (mem_shutdown happlied).mpr ⟨r, hr, ?_⟩, rfl, rfl⟩
      rw [if_pos (hstale r hr hclaimed)]

/-- Wherever the drain has left the workers, the shutdown leaves nothing held and nothing doubled
exactly when its release is applied and the process's clock has overtaken the lock of every row
the pool still holds. -/
theorem drained_iff (hs : Reachable step (World.init repos) s) :
    Drained s (shutdown s drained now release).1 ↔ ∀ r ∈ s.jobs.rows, ClaimedBy pool r →
      release ≠ .refused ∧ r.lockedAt.any (· < now) = true :=
  ⟨fun h _ hr hclaimed => overtaken_of_drained (locks_reachable hs) h hr hclaimed,
    drained_of_overtaken (locks_reachable hs)⟩

end Shutdown

/-- Of three workers one is idle, one in its handler and one about to give its job up. -/
def straggling : List (Action 3) := [
  .enqueue (.request ⟨7⟩ none) ⟨1⟩ 0,
  .enqueue (.request ⟨8⟩ none) ⟨2⟩ 0,
  .claim 0 10 [] true,
  .claim 1 10 [] true,
  .failRead 1 (.storage "connection reset")]

/-- With the clocks together both jobs are queued again. -/
theorem straggling_drained : ∃ s : World 3, exec step (World.init []) straggling = some s ∧
    Drained s (shutdown s 1 20 .answered).1 := by
  obtain ⟨s, hs, htest⟩ := @exists_exec _ _ step (World.init []) straggling
    (fun s => s.jobs.rows.all fun r => r.lockedAt.any (· < 20)) (by decide)
  refine ⟨s, hs, (drained_iff ⟨straggling, hs⟩).mpr fun r hr _ => ⟨by decide, ?_⟩⟩
  exact List.all_eq_true.mp htest r hr

/-- The database's clock is ahead of the process's, which reads no more than the locks: nothing is
released. -/
theorem straggling_held : ¬ ∀ {pool : ℕ} {repos : List SourceRepoId} {s : World pool},
    Reachable step (World.init repos) s → ∀ (drained : ℕ) (now : Time) (release : Release),
      Drained s (shutdown s drained now release).1 := by
  intro h
  obtain ⟨s, hs, htest⟩ := @exists_exec _ _ step (World.init []) straggling
    (fun s => s.jobs.rows.any fun r => decide (ClaimedBy 3 r) && r.state = .running &&
      r.lockedAt.all fun locked => 5 ≤ locked) (by decide)
  obtain ⟨r, hr, htest⟩ := List.any_eq_true.mp htest
  simp only [Bool.and_eq_true, decide_eq_true_eq] at htest
  obtain ⟨⟨hclaimed, hrunning⟩, hahead⟩ := htest
  have hfresh : stale 5 r = false := by
    cases hlocked : r.lockedAt with
    | none => simp [stale, hlocked]
    | some locked =>
      have hle : 5 ≤ locked := by simpa [hlocked] using hahead
      simp [stale, hlocked, hle]
  have hkept : r ∈ (shutdown s 1 5 .answered).1.jobs.rows :=
    (mem_shutdown (by decide)).mpr ⟨r, hr, by rw [hfresh]; rfl⟩
  exact (h ⟨straggling, hs⟩ 1 5 .answered).released r hkept hrunning hclaimed

end Engine
end Nyuka
