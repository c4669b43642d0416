import Nyuka.Jobs.Steps

/-! What an idempotency key tells. A key outlives the work it was drawn up for, but never names
other work: whatever row holds a producer's key does what that producer wants done. -/
namespace Nyuka
namespace Engine
open Queue Runs

variable {pool : ℕ} {s t : World pool} {a : Action pool}

def KeysTell (s : World pool) : Prop :=
  ∀ r ∈ s.jobs.rows, ∀ (p : Producer) now, r.idempotencyKey = some (p.key now) →
    p.subject.CoveredBy r

theorem Adds.keysTell {r : JobRow} (h : Adds s a r) (p : Producer) (now : Time)
    (hkey : r.idempotencyKey = some (p.key now)) : p.subject.CoveredBy r := by
  cases h with
  | @enqueued q id now' _ _ =>
    have hsame : q.key now' = p.key now := by
      simpa [Enqueue.row] using hkey
    rw [← subject_eq_of_key hsame]
    exact q.covered id now'
  | foreign _ => exact absurd hkey (ForeignRow.unshared _ p now)
  | retried _ _ _ => exact absurd (Option.some.inj hkey) (retry_key_ne _ p now)

theorem keysTell_step (hkeys : KeysTell s) (h : step s a = some t) : KeysTell t := by
  intro r' hr' p now hkey
  rcases (step_rows h r').mp hr' with hadds | ⟨r, hr, hchange⟩ | ⟨hkept, -, -⟩
  · exact hadds.keysTell p now hkey
  · have hsame := hchange.sameJob
    exact (hkeys r hr p now (hsame.idempotencyKey ▸ hkey)).congr hsame.kind hsame.payload
  · exact hkeys r' hkept p now hkey

/-- Keys tell the truth in every reachable state, whatever the order of the steps. -/
theorem keysTell_reachable {repos : List SourceRepoId}
    (h : Reachable step (World.init repos) s) : KeysTell s :=
  h.invariant (fun r hr => by cases hr) fun _ _ _ hkeys hstep => keysTell_step hkeys hstep

/-- An enqueue leaves a row under its key that does what its producer wants done. -/
theorem covered_of_enqueue (hkeys : KeysTell s) {p : Producer} {id : JobId} {now : Time}
    (h : step s (.enqueue p id now) = some t) :
    ∃ r ∈ t.jobs.rows, p.subject.CoveredBy r ∧ r.idempotencyKey = some (p.key now) := by
  obtain ⟨⟨u, named⟩, hu, rfl⟩ := Option.map_eq_some_iff.mp h
  obtain ⟨-, -, -, -, -, -, ⟨row, hrow, hjobs, -⟩ | ⟨-, -, hrows⟩⟩ := enqueue_rows hu
  · obtain ⟨hmem, -, hkey⟩ := byKey_eq_some.mp hrow
    rw [Producer.enqueue_idempotencyKey] at hkey
    exact ⟨row, by rw [hjobs]; exact hmem, hkeys row hmem p now hkey, hkey⟩
  · exact ⟨(p.enqueue now).row id now, by rw [hrows]; exact List.mem_cons_self, p.covered id now,
      p.enqueue_idempotencyKey now⟩

end Engine
end Nyuka
