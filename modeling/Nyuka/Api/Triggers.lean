import Nyuka.Api.Answers
import Nyuka.Foundation.Results

/-! The endpoints that queue work by hand: a follow's check-now, a repository's refresh and the
maintenance trigger. All of them key the job on the minute. -/
namespace Nyuka
namespace Api
open Queue Engine Runs

structure Follow where
  id : FollowId

structure SourceRepo where
  id : SourceRepoId

/-- `POST /api/v1/follows/{id}/check-now`, given what the read of the follow answers. -/
def checkNow (id : FollowId) (follow : Except DomainError {f : Follow // f.id = id})
    (jobs : JobTable) (job : JobId) (now : Time) : JobTable × Except Problem Accepted :=
  match follow with
  | .error e => (jobs, .error (.ofMissing e "follow"))
  | .ok follow => respond (.checkNow follow.val.id) jobs job now

/-- `POST /api/v1/source-repos/{id}/refresh`, given what the read of the repository answers. -/
def refreshRepo (id : SourceRepoId) (repo : Except DomainError SourceRepo)
    (jobs : JobTable) (job : JobId) (now : Time) : JobTable × Except Problem Accepted :=
  match repo with
  | .error e => (jobs, .error (.ofMissing e "source repository"))
  | .ok _ => respond (.refreshRepo id) jobs job now

/-- The triggerable kind a text names. -/
def triggerKind (text : String) : Option {kind : JobKind // kind ∈ triggerable} :=
  (kindFromStr text).bind fun kind => if h : kind ∈ triggerable then some ⟨kind, h⟩ else none

/-- `POST /api/v1/jobs`. -/
def trigger (kind : String) (jobs : JobTable) (job : JobId) (now : Time) :
    JobTable × Except Problem Accepted :=
  match triggerKind kind with
  | none =>
    let allowed := ", ".intercalate (triggerable.map kindToStr)
    (jobs, .error {
      Problem.invalid s!"`{kind}` cannot be queued by hand; expected one of {allowed}" with
      errors := [{ field := "/kind", message := s!"Must be one of: {allowed}." }] })
  | some ⟨kind, allowed⟩ => respond (.trigger kind allowed) jobs job now

/-- A kind that may not be queued by hand is refused on its own field, and nothing changes. -/
theorem trigger_refused {kind : String} (h : triggerKind kind = none) (jobs : JobTable)
    (job : JobId) (now : Time) : ∃ problem, trigger kind jobs job now = (jobs, .error problem) ∧
      problem.status = 400 ∧ problem.errors.map (·.field) = ["/kind"] := by
  simp [trigger, h, Problem.invalid, Problem.new]

/-- The run a worker is in will read the repository or has read it. -/
def ReadsRepo (repo : SourceRepoId) : Worker → Prop
  | .handling _ none => True
  | .handling _ (some listed) => repo ∈ listed
  | _ => False

variable {pool : ℕ} {s : World pool}

instance (repo : SourceRepoId) (w : Worker) : Decidable (ReadsRepo repo w) :=
  match w with
  | .handling _ none => isTrue trivial
  | .handling _ (some listed) => inferInstanceAs (Decidable (repo ∈ listed))
  | .idle | .failing _ _ _ | .stopped => isFalse id

/-- A worker that runs the job under its present claim reads the repository. -/
def RunReads (s : World pool) (repo : SourceRepoId) (r : JobRow) : Prop :=
  r.state = .running → ∀ w job, (s.workers w).job? = some job → job.id = r.id →
    job.attempts = r.attempts → ReadsRepo repo (s.workers w)

/-- The answer names a queued `update_sources` job, or a running one whose run reads the
repository. -/
def ServedRepo (s : World pool) (jobs : JobTable) (answer : Accepted) (repo : SourceRepoId) :
    Prop :=
  ∃ r ∈ jobs.rows, answer = .job r.id ∧ Active r ∧ r.kind = kindToStr .updateSources ∧
    RunReads s repo r

/-- In every reachable state, a manual trigger that is answered with 202 leaves work to do,
named in `Location`, exactly when no finished job holds the minute's key; for a repository, a
run that holds the key must not have read the repositories without this one, either. -/
theorem manual_triggers_served_iff {repos : List SourceRepoId}
    (hs : Reachable step (World.init repos) s) :
    (∀ id follow job now jobs answer,
      checkNow id follow s.jobs job now = (jobs, .ok answer) →
        (Served jobs answer (.follow id) ↔
          Unspent s.jobs ((Producer.checkNow id).key now))) ∧
    (∀ id repo job now jobs answer,
      refreshRepo id repo s.jobs job now = (jobs, .ok answer) →
        (ServedRepo s jobs answer id ↔
          Unspent s.jobs ((Producer.refreshRepo id).key now) ∧
            ∀ r ∈ s.jobs.rows, r.idempotencyKey = some ((Producer.refreshRepo id).key now) →
              RunReads s id r)) ∧
    (∀ text job now jobs answer, trigger text s.jobs job now = (jobs, .ok answer) →
      ∃ kind allowed, kindFromStr text = some kind ∧
        (Served jobs answer (.sweep kind allowed) ↔
          Unspent s.jobs ((Producer.trigger kind allowed).key now))) := by
  have hkeys := keysTell_reachable hs
  refine ⟨fun id follow job now jobs answer h => ?_, fun id repo job now jobs answer h => ?_,
    fun text job now jobs answer h => ?_⟩
  · unfold checkNow at h
    split at h
    · simp at h
    · next follow =>
      obtain ⟨follow, rfl⟩ := follow
      exact respond_served_iff hkeys h
  · unfold refreshRepo at h
    split at h
    · simp at h
    · exact respond_names_iff hkeys h (P := RunReads s id) (fun hrunning => by cases hrunning)
  · unfold trigger at h
    split at h
    · simp at h
    · next kind allowed hkind =>
      refine ⟨kind, allowed, ?_, respond_served_iff hkeys h⟩
      obtain ⟨kind', hkind', hallowed⟩ := Option.bind_eq_some_iff.mp hkind
      split at hallowed
      · simp only [Option.some.injEq, Subtype.mk.injEq] at hallowed
        rw [hkind', hallowed]
      · cases hallowed

/-- A check of a series finishes within the minute it was asked for. -/
def finishedCheckRun : List (Action 1) := [
  .enqueue (.checkNow ⟨5⟩) ⟨1⟩ 0,
  .claim 0 0 [] true,
  .complete 0 (Time.seconds 20)]

/-- A prune by hand follows it, and a refresh whose run has read its repository. -/
def triggeredRun : List (Action 1) := finishedCheckRun ++ [
  .enqueue (.trigger .pruneJobs (by decide)) ⟨2⟩ (Time.seconds 30),
  .claim 0 (Time.seconds 30) [] true,
  .complete 0 (Time.seconds 35),
  .addRepo ⟨3⟩,
  .enqueue (.refreshRepo ⟨3⟩) ⟨3⟩ (Time.seconds 40),
  .claim 0 (Time.seconds 40) [] true,
  .listRepos 0]

/-- In the next minute the check and the prune are queued again. Within this one the refresh is
answered with the run that has read the repository. -/
theorem later_triggers_served : ∃ s : World 1, Reachable step (World.init []) s ∧
    (∃ jobs, checkNow ⟨5⟩ (.ok ⟨⟨⟨5⟩⟩, rfl⟩) s.jobs ⟨4⟩ (Time.seconds 70) = (jobs, .ok (.job ⟨4⟩)) ∧
      Served jobs (.job ⟨4⟩) (.follow ⟨5⟩)) ∧
    (∃ jobs, refreshRepo ⟨3⟩ (.ok ⟨⟨3⟩⟩) s.jobs ⟨4⟩ (Time.seconds 50) = (jobs, .ok (.job ⟨3⟩)) ∧
      ServedRepo s jobs (.job ⟨3⟩) ⟨3⟩) ∧
    ∃ jobs, trigger "prune_jobs" s.jobs ⟨4⟩ (Time.seconds 70) = (jobs, .ok (.job ⟨4⟩)) ∧
      Served jobs (.job ⟨4⟩) (.sweep .pruneJobs (by decide)) := by
  obtain ⟨s, hs, htest⟩ := @exists_exec _ _ step (World.init []) triggeredRun
    (fun s => (decide ((checkNow ⟨5⟩ (.ok ⟨⟨⟨5⟩⟩, rfl⟩) s.jobs ⟨4⟩ (Time.seconds 70)).2 =
          .ok (.job ⟨4⟩)) &&
        decide (Unspent s.jobs ((Producer.checkNow ⟨5⟩).key (Time.seconds 70)))) &&
      (decide ((refreshRepo ⟨3⟩ (.ok ⟨⟨3⟩⟩) s.jobs ⟨4⟩ (Time.seconds 50)).2 = .ok (.job ⟨3⟩)) &&
        decide (Unspent s.jobs ((Producer.refreshRepo ⟨3⟩).key (Time.seconds 50)))) &&
      (decide ((trigger "prune_jobs" s.jobs ⟨4⟩ (Time.seconds 70)).2 = .ok (.job ⟨4⟩)) &&
        decide (Unspent s.jobs
          ((Producer.trigger .pruneJobs (by decide)).key (Time.seconds 70)))) &&
      decide (ReadsRepo ⟨3⟩ (s.workers 0))) (by decide)
  simp only [Bool.and_eq_true, decide_eq_true_eq] at htest
  obtain ⟨⟨⟨⟨hcheck, hunspent⟩, hrefresh, hunspent'⟩, hprune, hunspent''⟩, hreading⟩ := htest
  have hserved := manual_triggers_served_iff ⟨_, hs⟩
  have hreads : ∀ r : JobRow, RunReads s ⟨3⟩ r := by
    intro r _ w job _ _ _
    obtain rfl : w = 0 := Subsingleton.elim _ _
    exact hreading
  obtain ⟨kind, allowed, hkind, htrigger⟩ :=
    hserved.2.2 "prune_jobs" _ _ _ _ (Prod.ext rfl hprune)
  cases hkind
  exact ⟨s, ⟨_, hs⟩,
    ⟨_, Prod.ext rfl hcheck, (hserved.1 _ _ _ _ _ _ (Prod.ext rfl hcheck)).mpr hunspent⟩,
    ⟨_, Prod.ext rfl hrefresh, (hserved.2.1 _ _ _ _ _ _ (Prod.ext rfl hrefresh)).mpr
      ⟨hunspent', fun r _ _ => hreads r⟩⟩,
    _, Prod.ext rfl hprune, htrigger.mpr hunspent''⟩

/-- A refresh has read the repositories when another one is added. -/
def listedRefreshRun : List (Action 1) := [
  .addRepo ⟨3⟩,
  .enqueue (.refreshRepo ⟨3⟩) ⟨1⟩ 0,
  .claim 0 0 [] true,
  .listRepos 0,
  .addRepo ⟨4⟩]

/-- The worker's run has read a list without the repository, and every job is that run's. -/
def listedWithout (repo : SourceRepoId) (jobs : JobTable) : Worker → Bool
  | .handling job (some listed) => repo ∉ listed && jobs.rows.all fun r =>
      r.state = .running && r.id = job.id && r.attempts = job.attempts
  | _ => false

/-- The next check is answered with the finished job, and the refresh of the added repository
with the run that does not know it. -/
theorem manual_triggers_swallowed :
    (∃ s : World 1, Reachable step (World.init []) s ∧ ∃ jobs answer,
      checkNow ⟨5⟩ (.ok ⟨⟨⟨5⟩⟩, rfl⟩) s.jobs ⟨2⟩ (Time.seconds 40) = (jobs, .ok answer) ∧
        ¬ Served jobs answer (.follow ⟨5⟩)) ∧
    (∃ s : World 1, Reachable step (World.init []) s ∧ ⟨4⟩ ∈ s.repos ∧ ∃ jobs answer,
      refreshRepo ⟨4⟩ (.ok ⟨⟨4⟩⟩) s.jobs ⟨2⟩ (Time.seconds 40) = (jobs, .ok answer) ∧
        ¬ ServedRepo s jobs answer ⟨4⟩) := by
  constructor
  · obtain ⟨s, hs, htest⟩ := @exists_exec _ _ step (World.init []) finishedCheckRun
      (fun s => swallowed (checkNow ⟨5⟩ (.ok ⟨⟨⟨5⟩⟩, rfl⟩) s.jobs ⟨2⟩ (Time.seconds 40)))
      (by decide)
    obtain ⟨jobs, answer, hanswer, hdone⟩ := swallowed_eq_true htest
    refine ⟨s, ⟨_, hs⟩, jobs, answer, hanswer, ?_⟩
    rintro ⟨r, hr, -, hactive, -⟩
    exact hdone r hr hactive
  · obtain ⟨s, hs, htest⟩ := @exists_exec _ _ step (World.init []) listedRefreshRun
      (fun s => decide (⟨4⟩ ∈ s.repos) &&
        (refreshRepo ⟨4⟩ (.ok ⟨⟨4⟩⟩) s.jobs ⟨2⟩ (Time.seconds 40)).2.isOk &&
        listedWithout ⟨4⟩ (refreshRepo ⟨4⟩ (.ok ⟨⟨4⟩⟩) s.jobs ⟨2⟩ (Time.seconds 40)).1
          (s.workers 0)) (by decide)
    simp only [Bool.and_eq_true, decide_eq_true_eq] at htest
    obtain ⟨⟨hrepo, hok⟩, htest⟩ := htest
    obtain ⟨answer, hanswer⟩ := Results.isOk_iff.mp hok
    unfold listedWithout at htest
    split at htest
    · next job listed hworker =>
      refine ⟨s, ⟨_, hs⟩, hrepo, _, answer, Prod.ext rfl hanswer, ?_⟩
      rintro ⟨r, hr, -, -, -, hreads⟩
      simp only [Bool.and_eq_true, decide_eq_true_eq, List.all_eq_true] at htest
      obtain ⟨hunlisted, hrows⟩ := htest
      obtain ⟨⟨hrunning, hid⟩, hattempts⟩ := hrows r hr
      have := hreads hrunning 0 job (by rw [hworker]; rfl) hid.symm hattempts.symm
      rw [hworker] at this
      exact hunlisted this
    · cases htest

end Api
end Nyuka
