import Nyuka.Api.Answers
import Nyuka.Domain.Library

/-! `POST /api/v1/downloads`. The handler looks at the library, then enqueues under a key that
may belong to a job of any age. -/
namespace Nyuka
namespace Api
open Queue Engine Runs

structure Chapter where
  id : ChapterId

/-- What the handler's reads answer; each of them may fail. -/
structure LibraryReads (id : ChapterId) where
  chapter : Except DomainError {c : Chapter // c.id = id}
  downloaded : Except DomainError (Option DownloadedChapter)
  «exists» : String → Except DomainError Bool

/-- Whether the row's file is there: checked against the filesystem, not just the row. -/
def LibraryReads.inLibrary {id : ChapterId} (reads : LibraryReads id) : Except DomainError Bool :=
  match reads.downloaded with
  | .error e => .error e
  | .ok none => .ok false
  | .ok (some existing) => reads.exists existing.relativePath

/-- The jobs after the request, and its answer. `job` is the uuid an insert would draw. -/
def request (id : ChapterId) (idempotencyKey : Option (List UInt8)) (reads : LibraryReads id)
    (jobs : JobTable) (job : JobId) (now : Time) : JobTable × Except Problem Accepted :=
  match reads.chapter with
  | .error e => (jobs, .error (.ofMissing e "chapter"))
  | .ok chapter =>
    match reads.inLibrary with
    | .error e => (jobs, .error (.ofDomainError e))
    | .ok true => (jobs, .error (.conflict "This chapter is already in the library."))
    | .ok false => respond (.request chapter.val.id idempotencyKey) jobs job now

variable {pool : ℕ} {s : World pool}

theorem request_accepted {id : ChapterId} {idempotencyKey : Option (List UInt8)}
    {reads : LibraryReads id} {jobs jobs' : JobTable} {job : JobId} {now : Time}
    {answer : Accepted}
    (h : request id idempotencyKey reads jobs job now = (jobs', .ok answer)) :
    reads.inLibrary = .ok false ∧
      respond (.request id idempotencyKey) jobs job now = (jobs', .ok answer) := by
  unfold request at h
  split at h
  · simp at h
  · next chapter _ =>
    obtain ⟨chapter, rfl⟩ := chapter
    split at h
    · simp at h
    · simp at h
    · next hlibrary => exact ⟨hlibrary, h⟩

/-- An accepted request is one step of the engine. -/
theorem request_step {id : ChapterId} {idempotencyKey : Option (List UInt8)}
    {reads : LibraryReads id} {job : JobId} {now : Time} {jobs : JobTable} {answer : Accepted}
    (h : request id idempotencyKey reads s.jobs job now = (jobs, .ok answer))
    (hfresh : job ∉ s.issued) :
    step s (.enqueue (.request id idempotencyKey) job now) =
      some { s with jobs, issued := job :: s.issued } :=
  step_of_respond (request_accepted h).2 hfresh

/-- In every reachable state, a request that is answered with 202 leaves an active download of
its chapter, named in `Location`, exactly when no finished job holds the request's key. -/
theorem request_served_iff {repos : List SourceRepoId} (hs : Reachable step (World.init repos) s)
    {id : ChapterId} {idempotencyKey : Option (List UInt8)} {reads : LibraryReads id}
    {job : JobId} {now : Time} {jobs : JobTable} {answer : Accepted}
    (h : request id idempotencyKey reads s.jobs job now = (jobs, .ok answer)) :
    Served jobs answer (.chapter id) ↔ Unspent s.jobs (downloadKey id idempotencyKey) := by
  exact respond_served_iff (keysTell_reachable hs) (request_accepted h).2

/-- A chapter that was never downloaded. -/
def absentReads (id : ChapterId) : LibraryReads id where
  chapter := .ok ⟨⟨id⟩, rfl⟩
  downloaded := .ok none
  «exists» := fun _ => .ok false

/-- A download fails for good, as for a chapter the source no longer has. -/
def failedDownloadRun : List (Action 1) := [
  .enqueue (.request ⟨7⟩ none) ⟨1⟩ 0,
  .claim 0 0 [] true,
  .failRead 0 .notFound,
  .failWrite 0 0]

/-- A download of another chapter is under way when the client asks again under a key of its own. -/
def failedEarlierRun : List (Action 1) := failedDownloadRun ++ [
  .enqueue (.request ⟨8⟩ none) ⟨2⟩ 0,
  .claim 0 0 [] true]

/-- The failed chapter is queued again, and the other one's request is answered with its running
job. -/
theorem later_requests_served : ∃ s : World 1, Reachable step (World.init []) s ∧
    (s.jobs.rows.any fun r => r.state = .failed && (Subject.chapter ⟨7⟩).CoveredBy r) = true ∧
    (∃ jobs, request ⟨7⟩ (some [97]) (absentReads ⟨7⟩) s.jobs ⟨3⟩ 0 = (jobs, .ok (.job ⟨3⟩)) ∧
      Served jobs (.job ⟨3⟩) (.chapter ⟨7⟩)) ∧
    ∃ jobs, request ⟨8⟩ none (absentReads ⟨8⟩) s.jobs ⟨3⟩ 0 = (jobs, .ok (.job ⟨2⟩)) ∧
      Served jobs (.job ⟨2⟩) (.chapter ⟨8⟩) := by
  obtain ⟨s, hs, htest⟩ := @exists_exec _ _ step (World.init []) failedEarlierRun
    (fun s => (s.jobs.rows.any fun r => r.state = .failed &&
        (Subject.chapter ⟨7⟩).CoveredBy r) &&
      (decide ((request ⟨7⟩ (some [97]) (absentReads ⟨7⟩) s.jobs ⟨3⟩ 0).2 = .ok (.job ⟨3⟩)) &&
        decide (Unspent s.jobs (downloadKey ⟨7⟩ (some [97])))) &&
      (decide ((request ⟨8⟩ none (absentReads ⟨8⟩) s.jobs ⟨3⟩ 0).2 = .ok (.job ⟨2⟩)) &&
        decide (Unspent s.jobs (downloadKey ⟨8⟩ none)))) (by decide)
  simp only [Bool.and_eq_true, decide_eq_true_eq] at htest
  obtain ⟨⟨hfailed, hanswer, hunspent⟩, hanswer', hunspent'⟩ := htest
  exact ⟨s, ⟨_, hs⟩, hfailed,
    ⟨_, Prod.ext rfl hanswer, (request_served_iff ⟨_, hs⟩ (Prod.ext rfl hanswer)).mpr hunspent⟩,
    _, Prod.ext rfl hanswer', (request_served_iff ⟨_, hs⟩ (Prod.ext rfl hanswer')).mpr hunspent'⟩

/-- The next request for the chapter is answered with the failed job, and no download of it is
queued or running afterwards. -/
theorem second_request_swallowed :
    ∃ s : World 1, Reachable step (World.init []) s ∧ ∃ jobs answer,
      request ⟨7⟩ none (absentReads ⟨7⟩) s.jobs ⟨2⟩ 0 = (jobs, .ok answer) ∧
        ¬ Served jobs answer (.chapter ⟨7⟩) ∧
        ∀ r ∈ jobs.rows, (Subject.chapter ⟨7⟩).CoveredBy r → ¬ Active r := by
  obtain ⟨s, hs, htest⟩ := @exists_exec _ _ step (World.init []) failedDownloadRun
    (fun s => swallowed (request ⟨7⟩ none (absentReads ⟨7⟩) s.jobs ⟨2⟩ 0)) (by decide)
  obtain ⟨jobs, answer, hrequest, hdone⟩ := swallowed_eq_true htest
  refine ⟨s, ⟨_, hs⟩, jobs, answer, hrequest, ?_, fun r hr _ => hdone r hr⟩
  rintro ⟨r, hr, -, hactive, -⟩
  exact hdone r hr hactive

end Api
end Nyuka
