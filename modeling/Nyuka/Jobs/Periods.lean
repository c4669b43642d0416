import Nyuka.Foundation.Runs
import Nyuka.Jobs.Producers
import Mathlib.Data.List.Sublists

/-! The scheduler's fixed periods over the life of a deployment. A row suppresses the second job
of a period only while it exists, so it depends on the prunes, and on what the clock does from one
reading to the next, whether a period is served once. -/
namespace Nyuka
namespace Periods
open Queue Runs Tables

/-- What a process reads off the clock, nanoseconds since the epoch, as the database keeps it. -/
def stamp (now : ℤ) : Time := now / 1000

def nanosPerSec : ℕ := 1000000000

/-- A periodic kind with what its duration has past the whole seconds. -/
structure Entry extends Periodic where
  subsecNanos : ℕ
  secs_lt : everySecs < 2 ^ 64
  subsecNanos_lt : subsecNanos < nanosPerSec
deriving DecidableEq

namespace Entry

def every (e : Entry) : ℕ := e.everySecs * nanosPerSec + e.subsecNanos

def key (e : Entry) (now : ℤ) : String :=
  periodKey (kindToStr e.kind) e.everySecs (stamp now)

def enqueue (e : Entry) (now : ℤ) : Enqueue where
  kind := e.kind
  payload := .object []
  runAt := none
  idempotencyKey := some (e.key now)
  priority := e.priority
  maxAttempts := e.maxAttempts

/-- How long the instants of one period lie apart at most. The key knows whole seconds only, and
none below one. -/
def width (e : Entry) : ℕ := (asI64 (max e.everySecs 1)).natAbs * nanosPerSec

/-- An entry of the schedule that ships asks for what the engine's scheduler asks for. -/
theorem enqueue_eq_periodic (e : Entry) (h : e.toPeriodic ∈ defaultSchedule) (now : ℤ) :
    e.enqueue now = (Producer.periodic e.toPeriodic h).enqueue (stamp now) := rfl

end Entry

/-- The longest duration a `chrono::Duration` holds. -/
def maxChrono : ℕ := 9223372036854775807 * 1000000

/-- `chrono::Duration::from_std`. -/
def fromStd (nanos : ℕ) : Option ℤ := if nanos ≤ maxChrono then some nanos else none

def longest (schedule : List Entry) : ℕ := (schedule.map Entry.every).max?.getD 0

/-- Whole hours, rounded toward zero. -/
def numHours (nanos : ℤ) : ℤ := (nanos.tdiv nanosPerSec).tdiv 3600

/-- Fails when job-row retention is shorter than the longest schedule period. -/
def checkRetention (retention : ℤ) (schedule : List Entry) : Except DomainError Unit :=
  let longest := (fromStd (longest schedule)).getD 0
  if retention ≤ longest then
    .error (.invalid (s!"job retention of {numHours retention} hours is not longer than the " ++
      s!"longest schedule period of {numHours longest} hours; " ++
      "pruned rows would let that schedule fire more than once per period"))
  else .ok ()

theorem checkRetention_ok_iff {retention : ℤ} {schedule : List Entry} :
    checkRetention retention schedule = .ok () ↔
      (fromStd (longest schedule)).getD 0 < retention := by
  simp only [checkRetention]
  split
  · next hshort => simp [hshort]
  · next hlong => simp only [true_iff]; omega

/-- The longest of the schedule's periods, as its keys tell them apart. -/
def widest (schedule : List Entry) : ℕ := (schedule.map Entry.width).max?.getD 0

theorem width_le_widest {schedule : List Entry} {e : Entry} (he : e ∈ schedule) :
    e.width ≤ widest schedule := List.le_max?_getD_of_mem (List.mem_map_of_mem he)

private theorem every_le_longest {schedule : List Entry} {e : Entry} (he : e ∈ schedule) :
    e.every ≤ longest schedule := List.le_max?_getD_of_mem (List.mem_map_of_mem he)

/-- A schedule the check understands: its longest period fits a `chrono::Duration` and is at least
a second long. The retention that the check compares with it then outlasts every bucket. -/
theorem widest_le_longest {schedule : List Entry} (hfits : longest schedule ≤ maxChrono)
    (hsecond : nanosPerSec ≤ longest schedule) : widest schedule ≤ longest schedule := by
  have hall : ∀ w ∈ schedule.map Entry.width, w ≤ longest schedule := by
    intro w hw
    obtain ⟨e, he, rfl⟩ := List.mem_map.mp hw
    have hevery := every_le_longest he
    simp only [Entry.every, nanosPerSec, maxChrono] at hevery hfits hsecond
    have hsecs : max e.everySecs 1 < 2 ^ 63 := by omega
    have hwidth : e.width = max e.everySecs 1 * 1000000000 := by
      rw [Entry.width, asI64, if_pos hsecs]
      rfl
    omega
  unfold widest
  cases hmax : (schedule.map Entry.width).max? with
  | none => exact Nat.zero_le _
  | some w => exact hall w (List.max?_mem hmax)

/-- Instants of one period lie less than its width apart. -/
theorem lt_add_width {e f : Entry} (hsecs : max e.everySecs 1 = max f.everySecs 1)
    {now later : ℤ} (h : periodBucket e.everySecs (stamp now) =
      periodBucket f.everySecs (stamp later)) : later < now + f.width := by
  set w := asI64 (max f.everySecs 1) with hw
  have hne : w ≠ 0 := by
    have := f.secs_lt
    simp only [hw, asI64]
    split <;> omega
  have hlt := Int.emod_lt_abs (stamp later).timestamp hne
  have hpos := Int.emod_nonneg (stamp now).timestamp hne
  have hdiv : (stamp now).timestamp / w = (stamp later).timestamp / w := by
    simpa only [periodBucket, hsecs, ← hw] using h
  have hnow := Int.emod_add_mul_ediv (stamp now).timestamp w
  have hlater := Int.emod_add_mul_ediv (stamp later).timestamp w
  rw [hdiv] at hnow
  have hapart : (stamp later).timestamp < (stamp now).timestamp + |w| := by omega
  have hwidth : (f.width : ℤ) = |w| * 1000000000 := by
    simp [Entry.width, nanosPerSec, ← hw]
  rw [hwidth]
  unfold stamp Time.timestamp at hapart
  omega

/-- A job that the scheduler queued: the entry it served and what the tick had read. -/
structure Firing where
  entry : Entry
  now : ℤ
deriving DecidableEq

/-- The period of a kind that a firing serves. -/
def Firing.period (f : Firing) : JobKind × ℕ × ℤ :=
  (f.entry.kind, max f.entry.everySecs 1, periodBucket f.entry.everySecs (stamp f.now))

def Firing.key (f : Firing) : String := f.entry.key f.now

structure World where
  jobs : JobTable
  /-- What the statements so far have read off the clock, the latest first. -/
  readings : List ℤ
  fired : List Firing

def World.init : World := ⟨Table.empty, [], []⟩

/-- The statements on the job table, whoever issues them. -/
inductive Action where
  /-- One entry of a tick that has read `now`; the database's clock is at `dbNow`. -/
  | entry (e : Entry) (now : ℤ) (id : JobId) (dbNow : Time)
  | other (p : Producer) (unscheduled : ¬ p.Scheduled) (now : ℤ) (id : JobId) (dbNow : Time)
  | retry (job : Job) (id : JobId) (now : ℤ)
  | claim (worker : String) (now : ℤ) (locked : List JobId)
  | complete (id : JobId) (now : ℤ)
  | fail (id : JobId) (error : String) (verdict : Verdict) (now : ℤ)
  | cancel (id : JobId) (now : ℤ)
  | recoverStale (olderThan : ℕ) (now : ℤ)
  | pruneJobs (now : ℤ)
  | restart

namespace Action

def reading : Action → Option ℤ
  | entry _ now _ _ | other _ _ now _ _ | retry _ _ now | claim _ now _ | complete _ now
  | fail _ _ _ now | cancel _ now | recoverStale _ now | pruneJobs now => some now
  | restart => none

/-- What the action enqueues, under which id, and what the row is stamped with. -/
def asks : Action → Option (Enqueue × JobId × Time)
  | entry e now id dbNow => some (e.enqueue now, id, dbNow)
  | other p _ now id dbNow => some (p.enqueue (stamp now), id, dbNow)
  | retry job id now => some (retryOf job, id, stamp now)
  | _ => none

/-- A tick asks for the entries of the schedule only. -/
def Asked (schedule : List Entry) : Action → Prop
  | entry e _ _ _ => e ∈ schedule
  | _ => True

instance (schedule : List Entry) (a : Action) : Decidable (a.Asked schedule) := by
  cases a <;> unfold Asked <;> infer_instance

/-- What a tick counts as enqueued: an entry whose key was not there before. -/
def fires (jobs : JobTable) : Action → List Firing
  | entry e now _ _ => if (byKey jobs (some (e.key now))).isSome then [] else [⟨e, now⟩]
  | _ => []

end Action

/-- `DELETE .. WHERE updated_at < now - retention`. -/
def cutoff (retention : ℤ) (now : ℤ) : Time := (now - retention) / 1000

/-- The table after the action's statement, unless it is refused. -/
def apply (retention : ℤ) (jobs : JobTable) (a : Action) : Option JobTable :=
  match a.asks with
  | some (e, id, at_) => (Queue.enqueue jobs e id at_).toOption.map Prod.fst
  | none => match a with
    | .claim worker now locked => some (claim jobs worker (stamp now) locked).1
    | .complete id now => some (complete jobs id (stamp now))
    | .fail id error verdict now => some (failWrite jobs id error (stamp now) verdict)
    | .cancel id now => some (cancel jobs id (stamp now))
    | .recoverStale olderThan now => some (recoverStale jobs olderThan (stamp now))
    | .pruneJobs now => some (jobs.deleteWhere (prunable (cutoff retention now)))
    | _ => some jobs

def step (schedule : List Entry) (retention : ℤ) (s : World) (a : Action) : Option World :=
  if a.Asked schedule then (apply retention s.jobs a).map fun jobs =>
    { jobs, readings := a.reading.toList ++ s.readings, fired := a.fires s.jobs ++ s.fired }
  else none

section Step
variable {schedule : List Entry} {retention : ℤ} {s t : World} {a : Action}

theorem step_cases (h : step schedule retention s a = some t) :
    a.Asked schedule ∧ apply retention s.jobs a = some t.jobs ∧
      t.readings = a.reading.toList ++ s.readings ∧ t.fired = a.fires s.jobs ++ s.fired := by
  unfold step at h
  split at h
  · next hasked =>
    obtain ⟨jobs, hjobs, rfl⟩ := Option.map_eq_some_iff.mp h
    exact ⟨hasked, hjobs, rfl, rfl⟩
  · cases h

/-- What an action that enqueues does to the rows. -/
theorem apply_asks {jobs jobs' : JobTable} {e : Enqueue} {id : JobId} {at_ : Time}
    (hasks : a.asks = some (e, id, at_)) (h : apply retention jobs a = some jobs') :
    (∃ row, byKey jobs e.idempotencyKey = some row ∧ jobs' = jobs) ∨
      (byKey jobs e.idempotencyKey = none ∧ jobs'.rows = e.row id at_ :: jobs.rows) := by
  simp only [apply, hasks] at h
  obtain ⟨⟨u, named⟩, hu, rfl⟩ := Option.map_eq_some_iff.mp h
  cases henqueue : Queue.enqueue jobs e id at_ with
  | error e => simp [henqueue, Except.toOption] at hu
  | ok answer =>
    simp only [henqueue, Except.toOption, Option.some.injEq] at hu
    subst hu
    rcases enqueue_cases henqueue with ⟨row, hkey, hjobs, -⟩ | ⟨hkey, -, hrows⟩
    · exact .inl ⟨row, hkey, hjobs⟩
    · exact .inr ⟨hkey, hrows⟩

/-- The statement leaves the row as it is or stamps it with the time of the reading. -/
structure Stamps (a : Action) (r r' : JobRow) : Prop where
  kind : r'.kind = r.kind
  idempotencyKey : r'.idempotencyKey = r.idempotencyKey
  stamped : r' = r ∨ ∃ now, a.reading = some now ∧ r'.updatedAt = stamp now

theorem Stamps.refl (a : Action) (r : JobRow) : Stamps a r r := ⟨rfl, rfl, .inl rfl⟩

/-- The rows after the statement stand for the rows before it. -/
def Restamped (a : Action) (jobs jobs' : JobTable) : Prop :=
  (∀ r ∈ jobs.rows, ∃ r' ∈ jobs'.rows, Stamps a r r') ∧
    ∀ r' ∈ jobs'.rows, ∃ r ∈ jobs.rows, Stamps a r r'

theorem restamped_refl (a : Action) (jobs : JobTable) : Restamped a jobs jobs :=
  ⟨fun r hr => ⟨r, hr, .refl a r⟩, fun r hr => ⟨r, hr, .refl a r⟩⟩

private theorem restamped_of_update {jobs : JobTable} {p : JobRow → Bool} {f : JobRow → JobRow}
    (hf : ∀ i r, JobIndex.value i (f r) = JobIndex.value i r)
    (hstamps : ∀ r, Stamps a r (f r)) : Restamped a jobs (jobs.updateWhere p f hf) := by
  have heach : ∀ r, Stamps a r (if p r then f r else r) := by
    intro r
    split
    · exact hstamps r
    · exact .refl a r
  constructor
  · intro r hr
    exact ⟨_, Table.mem_updateWhere.mpr ⟨r, hr, rfl⟩, heach r⟩
  · intro r' hr'
    obtain ⟨r, hr, rfl⟩ := Table.mem_updateWhere.mp hr'
    exact ⟨r, hr, heach r⟩

/-- A statement that neither enqueues nor prunes. -/
theorem apply_restamped {jobs jobs' : JobTable} (h : apply retention jobs a = some jobs')
    (hasks : a.asks = none) (hprune : ∀ now, a ≠ .pruneJobs now) : Restamped a jobs jobs' := by
  simp only [apply, hasks] at h
  cases a with
  | entry _ _ _ _ | other _ _ _ _ _ | retry _ _ _ => cases hasks
  | claim worker now locked =>
    obtain rfl := Option.some.inj h
    unfold claim
    split
    · exact restamped_refl _ _
    · split
      · exact restamped_refl _ _
      · exact restamped_of_update (fun i r => by cases i <;> rfl)
          fun r => ⟨rfl, rfl, .inr ⟨now, rfl, rfl⟩⟩
  | complete id now | cancel id now =>
    obtain rfl := Option.some.inj h
    exact restamped_of_update (fun i r => by cases i <;> rfl)
      fun r => ⟨rfl, rfl, .inr ⟨now, rfl, rfl⟩⟩
  | fail id error verdict now =>
    obtain rfl := Option.some.inj h
    cases verdict <;>
      exact restamped_of_update (fun i r => by cases i <;> rfl)
        fun r => ⟨rfl, rfl, .inr ⟨now, rfl, rfl⟩⟩
  | recoverStale olderThan now =>
    obtain rfl := Option.some.inj h
    exact restamped_of_update (fun i r => by cases i <;> rfl)
      fun r => ⟨rfl, rfl, .inr ⟨now, rfl, rfl⟩⟩
  | pruneJobs now => exact absurd rfl (hprune now)
  | restart =>
    obtain rfl := Option.some.inj h
    exact restamped_refl _ _

/-- A row is still there after the step, stamped if anything, or it was pruned. -/
theorem row_after (h : step schedule retention s a = some t) {r : JobRow}
    (hr : r ∈ s.jobs.rows) :
    (∃ now, a = .pruneJobs now ∧ prunable (cutoff retention now) r = true) ∨
      ∃ r' ∈ t.jobs.rows, Stamps a r r' := by
  obtain ⟨-, hjobs, -, -⟩ := step_cases h
  cases hasks : a.asks with
  | some asked =>
    obtain ⟨e, id, at_⟩ := asked
    rcases apply_asks hasks hjobs with ⟨-, -, hsame⟩ | ⟨-, hrows⟩
    · exact .inr ⟨r, by rw [hsame]; exact hr, .refl a r⟩
    · exact .inr ⟨r, by rw [hrows]; exact List.mem_cons_of_mem _ hr, .refl a r⟩
  | none =>
    by_cases hprune : ∃ now, a = .pruneJobs now
    · obtain ⟨now, rfl⟩ := hprune
      obtain hdeleted : s.jobs.deleteWhere (prunable (cutoff retention now)) = t.jobs :=
        Option.some.inj hjobs
      by_cases hprunable : prunable (cutoff retention now) r = true
      · exact .inl ⟨now, rfl, hprunable⟩
      · refine .inr ⟨r, ?_, .refl _ r⟩
        rw [← hdeleted]
        exact Table.mem_deleteWhere.mpr ⟨hr, by simpa using hprunable⟩
    · push Not at hprune
      exact .inr ((apply_restamped hjobs hasks hprune).1 r hr)

/-- A row after the step was there before, or the step has enqueued it. -/
theorem row_before (h : step schedule retention s a = some t) {r' : JobRow}
    (hr' : r' ∈ t.jobs.rows) :
    (∃ r ∈ s.jobs.rows, Stamps a r r') ∨
      ∃ e id at_, a.asks = some (e, id, at_) ∧ r' = e.row id at_ := by
  obtain ⟨-, hjobs, -, -⟩ := step_cases h
  cases hasks : a.asks with
  | some asked =>
    obtain ⟨e, id, at_⟩ := asked
    rcases apply_asks hasks hjobs with ⟨-, -, hsame⟩ | ⟨-, hrows⟩
    · rw [hsame] at hr'
      exact .inl ⟨r', hr', .refl a r'⟩
    · rw [hrows] at hr'
      rcases List.mem_cons.mp hr' with rfl | hr'
      · exact .inr ⟨e, id, at_, rfl, rfl⟩
      · exact .inl ⟨r', hr', .refl a r'⟩
  | none =>
    by_cases hprune : ∃ now, a = .pruneJobs now
    · obtain ⟨now, rfl⟩ := hprune
      obtain hdeleted : s.jobs.deleteWhere (prunable (cutoff retention now)) = t.jobs :=
        Option.some.inj hjobs
      rw [← hdeleted] at hr'
      exact .inl ⟨r', (Table.mem_deleteWhere.mp hr').1, .refl _ r'⟩
    · push Not at hprune
      exact .inl ((apply_restamped hjobs hasks hprune).2 r' hr')

end Step

/-! ### Once a period -/

/-- No two firings serve one period of one kind. -/
def OncePerPeriod (s : World) : Prop := (s.fired.map Firing.period).Nodup

/-- The row of a firing is there; if it has ended, it was stamped after the firing. -/
def Stands (s : World) (f : Firing) : Prop :=
  ∃ r ∈ s.jobs.rows, r.idempotencyKey = some f.key ∧
    (r.state = .succeeded ∨ r.state = .cancelled →
      ∃ u, [u, f.now].Sublist s.readings ∧ r.updatedAt = stamp u)

/-- The row was stamped and then pruned, a whole retention later by the clock. -/
def Pruned (retention : ℤ) (s : World) (f : Firing) : Prop :=
  ∃ u p, [p, u, f.now].Sublist s.readings ∧ u < p - retention

structure Accounted (retention : ℤ) (s : World) : Prop where
  read : ∀ f ∈ s.fired, f.now ∈ s.readings
  kept : ∀ f ∈ s.fired, Stands s f ∨ Pruned retention s f

/-- When a tick reads the clock at `now`: a tick, the end of its job and a prune have read `a`, `b`
and `c` before, in this order, and what the clock lost from `a` to `b` and from `c` to `now` is
together no more than what the retention has over the longest period. -/
def InTime (schedule : List Entry) (retention : ℤ) (s : World) : Action → Prop
  | .entry _ now _ _ => ∀ a b c : ℤ, [c, b, a].Sublist s.readings →
      (a - b) + (c - now) ≤ retention - widest schedule
  | _ => True

section Once
variable {schedule : List Entry} {retention : ℤ} {s t : World} {a : Action}

theorem readings_sublist (h : step schedule retention s a = some t) :
    s.readings.Sublist t.readings := by
  rw [(step_cases h).2.2.1]
  exact List.sublist_append_right _ _

theorem Stands.step {f : Firing} (hread : f.now ∈ s.readings) (hstands : Stands s f)
    (h : step schedule retention s a = some t) : Stands t f ∨ Pruned retention t f := by
  obtain ⟨r, hr, hkey, hended⟩ := hstands
  have hreadings := (step_cases h).2.2.1
  rcases row_after h hr with ⟨now, rfl, hprunable⟩ | ⟨r', hr', hstamps⟩
  · right
    simp only [prunable, Bool.and_eq_true, Bool.or_eq_true, decide_eq_true_eq] at hprunable
    obtain ⟨u, hsub, hstamp⟩ := hended hprunable.1
    refine ⟨u, now, ?_, ?_⟩
    · rw [hreadings]
      exact hsub.cons_cons now
    · have hpast := hprunable.2
      rw [hstamp] at hpast
      have hold : u / 1000 < (now - retention) / 1000 := hpast
      omega
  · left
    refine ⟨r', hr', hstamps.idempotencyKey.trans hkey, fun hstate => ?_⟩
    rcases hstamps.stamped with rfl | ⟨now, hnow, hstamp⟩
    · obtain ⟨u, hsub, hstamp⟩ := hended hstate
      exact ⟨u, hsub.trans (readings_sublist h), hstamp⟩
    · refine ⟨now, ?_, hstamp⟩
      rw [hreadings, hnow]
      exact (List.singleton_sublist.mpr hread).cons_cons now

theorem Pruned.step {f : Firing} (hpruned : Pruned retention s f)
    (h : step schedule retention s a = some t) : Pruned retention t f := by
  obtain ⟨u, p, hsub, hlate⟩ := hpruned
  exact ⟨u, p, hsub.trans (readings_sublist h), hlate⟩

/-- What a step fires: an entry of the schedule whose key no row holds, for which it adds one. -/
theorem step_fired (h : step schedule retention s a = some t) :
    t.fired = s.fired ∨ ∃ e now id dbNow, a = .entry e now id dbNow ∧ e ∈ schedule ∧
      byKey s.jobs (some (e.key now)) = none ∧ t.fired = ⟨e, now⟩ :: s.fired ∧
      t.readings = now :: s.readings ∧ (e.enqueue now).row id dbNow ∈ t.jobs.rows := by
  obtain ⟨hasked, hjobs, hreadings, hfired⟩ := step_cases h
  cases a with
  | entry e now id dbNow =>
    rcases apply_asks rfl hjobs with ⟨row, hkey, -⟩ | ⟨hkey, hrows⟩
    · left
      have hheld : byKey s.jobs (some (e.key now)) = some row := hkey
      simpa [Action.fires, hheld] using hfired
    · right
      have hfree : byKey s.jobs (some (e.key now)) = none := hkey
      refine ⟨e, now, id, dbNow, rfl, hasked, hfree, ?_, hreadings, ?_⟩
      · simpa [Action.fires, hfree] using hfired
      · rw [hrows]
        exact List.mem_cons_self
  | _ => exact .inl hfired

theorem Accounted.step (hacc : Accounted retention s) (h : step schedule retention s a = some t) :
    Accounted retention t := by
  have hold : ∀ f ∈ s.fired, f.now ∈ t.readings ∧ (Stands t f ∨ Pruned retention t f) := by
    intro f hf
    refine ⟨(readings_sublist h).subset (hacc.read f hf), ?_⟩
    rcases hacc.kept f hf with hstands | hpruned
    · exact hstands.step (hacc.read f hf) h
    · exact .inr (hpruned.step h)
  rcases step_fired h with hsame | ⟨e, now, id, dbNow, -, -, -, hfired, hreadings, hrow⟩
  · exact ⟨fun f hf => (hold f (hsame ▸ hf)).1, fun f hf => (hold f (hsame ▸ hf)).2⟩
  · have hnew : Stands t ⟨e, now⟩ := by
      refine ⟨_, hrow, rfl, fun hstate => ?_⟩
      rcases hstate with hstate | hstate <;> cases hstate
    constructor
    · intro f hf
      rw [hfired] at hf
      rcases List.mem_cons.mp hf with rfl | hf
      · rw [hreadings]
        exact List.mem_cons_self
      · exact (hold f hf).1
    · intro f hf
      rw [hfired] at hf
      rcases List.mem_cons.mp hf with rfl | hf
      · exact .inl hnew
      · exact (hold f hf).2

/-- Firings of one period of a kind have one key. -/
theorem key_of_period {f g : Firing} (h : f.period = g.period) : f.key = g.key := by
  simp only [Firing.period, Prod.mk.injEq] at h
  obtain ⟨hkind, -, hbucket⟩ := h
  rw [Firing.key, Entry.key, hkind, periodKey, hbucket]
  rfl

/-- A period that was served is not served again in time. -/
theorem not_served_again (hacc : Accounted retention s) {e : Entry} (he : e ∈ schedule)
    {now : ℤ} {id : JobId} {dbNow : Time}
    (hintime : InTime schedule retention s (.entry e now id dbNow))
    (hfree : byKey s.jobs (some (e.key now)) = none) {f : Firing} (hf : f ∈ s.fired) :
    f.period ≠ Firing.period ⟨e, now⟩ := by
  intro hperiod
  rcases hacc.kept f hf with ⟨r, hr, hkey, -⟩ | ⟨u, p, hsub, hlate⟩
  · rw [key_of_period hperiod] at hkey
    exact byKey_eq_none.mp hfree r hr rfl hkey
  · have hlost := hintime f.now u p hsub
    simp only [Firing.period, Prod.mk.injEq] at hperiod
    have hnear : now < f.now + e.width := lt_add_width hperiod.2.1 hperiod.2.2
    have hwidth := width_le_widest he
    have hcast : (e.width : ℤ) ≤ widest schedule := by exact_mod_cast hwidth
    omega

theorem once_step (h : step schedule retention s a = some t)
    (hinv : Accounted retention s ∧ OncePerPeriod s) (hintime : InTime schedule retention s a) :
    Accounted retention t ∧ OncePerPeriod t := by
  refine ⟨hinv.1.step h, ?_⟩
  rcases step_fired h with hsame | ⟨e, now, id, dbNow, rfl, he, hfree, hfired, -, -⟩
  · unfold OncePerPeriod
    rw [hsame]
    exact hinv.2
  · unfold OncePerPeriod
    rw [hfired, List.map_cons, List.nodup_cons]
    refine ⟨fun hmem => ?_, hinv.2⟩
    obtain ⟨f, hf, hperiod⟩ := List.mem_map.mp hmem
    exact not_served_again hinv.1 he hintime hfree hf hperiod

end Once

/-! ### Ticks -/

/-- One entry after the other. A tick reads the clock once; `draw` is what each of its statements
draws and is stamped with. -/
def entryActions (now : ℤ) : List Entry → (ℕ → JobId × Time) → List Action
  | [], _ => []
  | e :: es, draw =>
    .entry e now (draw 0).1 (draw 0).2 :: entryActions now es fun n => draw (n + 1)

/-- The checks of the due follows, each with its interval. -/
def followActions (now : ℤ) : List (FollowId × ℤ) → (ℕ → JobId × Time) → List Action
  | [], _ => []
  | f :: fs, draw =>
    .other (.dueFollow f.1 f.2) not_false now (draw 0).1 (draw 0).2 ::
      followActions now fs fun n => draw (n + 1)

/-- The statements of one tick that returns `Ok`. -/
def tickActions (schedule : List Entry) (staleAfter : ℕ) (now recoveredAt : ℤ)
    (draw followDraw : ℕ → JobId × Time) (batch : List (FollowId × ℤ)) : List Action :=
  .recoverStale staleAfter recoveredAt ::
    (entryActions now schedule draw ++ followActions now batch followDraw)

/-- A row that holds the key of a kind's period is of that kind. -/
def KindsTell (s : World) : Prop :=
  ∀ r ∈ s.jobs.rows, ∀ kind everySecs now,
    r.idempotencyKey = some (periodKey (kindToStr kind) everySecs now) → r.kind = kindToStr kind

/-- A row of the entry's kind holds the key of the period `now` is in. -/
def Served (s : World) (e : Entry) (now : ℤ) : Prop :=
  ∃ r ∈ s.jobs.rows, r.idempotencyKey = some (e.key now) ∧ r.kind = kindToStr e.kind

section Ticks
variable {schedule : List Entry} {retention : ℤ} {s t : World} {a : Action}

theorem kindsTell_step (htell : KindsTell s) (h : step schedule retention s a = some t) :
    KindsTell t := by
  intro r' hr' kind everySecs now hkey
  rcases row_before h hr' with ⟨r, hr, hstamps⟩ | ⟨e, id, at_, hasks, rfl⟩
  · rw [hstamps.kind]
    exact htell r hr kind everySecs now (hstamps.idempotencyKey ▸ hkey)
  · cases a with
    | entry entry now' _ _ =>
      cases hasks
      have hsame : periodKey (kindToStr entry.kind) entry.everySecs (stamp now') =
          periodKey (kindToStr kind) everySecs now := Option.some.inj hkey
      exact congrArg kindToStr (kind_of_key hsame)
    | other p unscheduled now' _ _ =>
      cases hasks
      have hsame : p.key (stamp now') = periodKey (kindToStr kind) everySecs now := by
        simpa [Enqueue.row] using hkey
      exact absurd hsame.symm (periodKey_ne_key kind everySecs now unscheduled _)
    | retry job _ _ =>
      cases hasks
      have hsame : retryKey job.id = periodKey (kindToStr kind) everySecs now :=
        Option.some.inj hkey
      exact absurd hsame.symm (periodKey_ne_retryKey kind everySecs now job.id)
    | _ => cases hasks

theorem kindsTell_reachable (hs : Reachable (step schedule retention) World.init s) :
    KindsTell s :=
  hs.invariant (fun r hr => by cases hr) fun _ _ _ htell h => kindsTell_step htell h

theorem served_of_entry {e : Entry} {now : ℤ} {id : JobId} {dbNow : Time} (htell : KindsTell s)
    (h : step schedule retention s (.entry e now id dbNow) = some t) : Served t e now := by
  obtain ⟨-, hjobs, -, -⟩ := step_cases h
  rcases apply_asks rfl hjobs with ⟨row, hkey, hsame⟩ | ⟨-, hrows⟩
  · obtain ⟨hrow, -, hkey⟩ := byKey_eq_some.mp hkey
    exact ⟨row, by rw [hsame]; exact hrow, hkey, htell row hrow _ _ _ hkey⟩
  · exact ⟨_, by rw [hrows]; exact List.mem_cons_self, rfl, rfl⟩

theorem Served.step {e : Entry} {now : ℤ} (hserved : Served s e now)
    (h : step schedule retention s a = some t) (hprune : ∀ later, a ≠ .pruneJobs later) :
    Served t e now := by
  obtain ⟨r, hr, hkey, hkind⟩ := hserved
  rcases row_after h hr with ⟨later, rfl, -⟩ | ⟨r', hr', hstamps⟩
  · exact absurd rfl (hprune later)
  · exact ⟨r', hr', hstamps.idempotencyKey.trans hkey, hstamps.kind.trans hkind⟩

/-- Only a prune takes a served period away. -/
theorem served_run {as : List Action} (htell : KindsTell s)
    (h : exec (step schedule retention) s as = some t) (hprune : ∀ later, .pruneJobs later ∉ as)
    {e : Entry} {now : ℤ}
    (hserved : Served s e now ∨ ∃ id dbNow, .entry e now id dbNow ∈ as) : Served t e now := by
  induction as generalizing s with
  | nil =>
    cases h
    rcases hserved with hserved | ⟨_, _, hmem⟩
    · exact hserved
    · cases hmem
  | cons a as ih =>
    obtain ⟨u, hu, hrest⟩ := Option.bind_eq_some_iff.mp h
    apply ih (kindsTell_step htell hu) hrest fun later hmem =>
      hprune later (List.mem_cons_of_mem _ hmem)
    rcases hserved with hserved | ⟨id, dbNow, hmem⟩
    · exact .inl (hserved.step hu fun later ha => hprune later (ha ▸ List.mem_cons_self))
    · rcases List.mem_cons.mp hmem with rfl | hmem
      · exact .inl (served_of_entry htell hu)
      · exact .inr ⟨id, dbNow, hmem⟩

private theorem mem_entryActions {now : ℤ} {es : List Entry} {e : Entry} (he : e ∈ es)
    (draw : ℕ → JobId × Time) : ∃ id dbNow, .entry e now id dbNow ∈ entryActions now es draw := by
  induction es generalizing draw with
  | nil => cases he
  | cons e' es ih =>
    rcases List.mem_cons.mp he with rfl | he
    · exact ⟨_, _, List.mem_cons_self⟩
    · obtain ⟨id, dbNow, hmem⟩ := ih he fun n => draw (n + 1)
      exact ⟨id, dbNow, List.mem_cons_of_mem _ hmem⟩

/-- A tick that returns `Ok` leaves every period of the schedule served, whatever statements of
others have come between its own, a prune apart. -/
theorem tick_serves (hs : Reachable (step schedule retention) World.init s) {as : List Action}
    (h : exec (step schedule retention) s as = some t) {staleAfter : ℕ} {now recoveredAt : ℤ}
    {draw followDraw : ℕ → JobId × Time} {batch : List (FollowId × ℤ)}
    (htick : (tickActions schedule staleAfter now recoveredAt draw followDraw batch).Sublist as)
    (hprune : ∀ later, .pruneJobs later ∉ as) : ∀ e ∈ schedule, Served t e now := by
  intro e he
  obtain ⟨id, dbNow, hmem⟩ := @mem_entryActions now schedule e he draw
  refine served_run (kindsTell_reachable hs) h hprune (.inr ⟨id, dbNow, htick.subset ?_⟩)
  exact List.mem_cons_of_mem _ (List.mem_append_left _ hmem)

end Ticks

/-! ### Runs -/

/-- The keys of a kind's periods are nobody else's. -/
def KeysApart (e : Entry) : Prop :=
  ∀ now, (∀ (other : Entry) later, other.kind ≠ e.kind → e.key now ≠ other.key later) ∧
    (∀ p : Producer, ¬ p.Scheduled → ∀ later, e.key now ≠ p.key later) ∧
    ∀ id, e.key now ≠ retryKey id

theorem keysApart (e : Entry) : KeysApart e := by
  intro now
  refine ⟨fun other later hkind hkey => hkind (kind_of_key hkey).symm, fun p hp later => ?_,
    fun id => ?_⟩
  · exact periodKey_ne_key _ _ _ hp later
  · exact periodKey_ne_retryKey _ _ _ id

/-- In a run whose ticks all read the clock in time, no period of a kind is served by two jobs;
every tick of it that returns `Ok` leaves all its periods served; and the keys of a kind are
nobody else's. -/
theorem served_once {schedule : List Entry} {retention : ℤ} {as : List Action}
    (hclock : Each (step schedule retention) (InTime schedule retention) World.init as) :
    Always (step schedule retention) OncePerPeriod World.init as ∧
    (∀ pre mid suf s t staleAfter now recoveredAt draw followDraw batch,
      as = pre ++ (mid ++ suf) → exec (step schedule retention) World.init pre = some s →
      exec (step schedule retention) s mid = some t →
      (tickActions schedule staleAfter now recoveredAt draw followDraw batch).Sublist mid →
      (∀ later, .pruneJobs later ∉ mid) → ∀ e ∈ schedule, Served t e now) ∧
    ∀ e ∈ schedule, KeysApart e := by
  refine ⟨?_, ?_, fun e _ => keysApart e⟩
  · have hinit : Accounted retention World.init ∧ OncePerPeriod World.init := by
      refine ⟨⟨?_, ?_⟩, List.nodup_nil⟩
      · intro f hf; cases hf
      · intro f hf; cases hf
    have hall : Always (step schedule retention)
        (fun s => Accounted retention s ∧ OncePerPeriod s) World.init as :=
      Always.of_each (fun _ _ _ hinv hintime h => once_step h hinv hintime) hinit hclock
    exact hall.imp fun s h => h.2
  · intro pre mid suf s t staleAfter now recoveredAt draw followDraw batch _ hpre hmid htick hprune
    exact tick_serves ⟨pre, hpre⟩ hmid htick hprune

/-- The clock is at most `slack` behind what it read before. -/
def Behind (slack : ℤ) (s : World) (a : Action) : Prop :=
  ∀ now ∈ a.reading, ∀ c ∈ s.readings, c - now ≤ slack

/-- The check does what it is for when the longest period is one that it understands: then a clock
is in time that never loses more than half of what the retention has over that period. -/
theorem inTime_of_behind {schedule : List Entry} {retention slack : ℤ}
    (hfits : longest schedule ≤ maxChrono) (hsecond : nanosPerSec ≤ longest schedule)
    (hslack : 2 * slack ≤ retention - (fromStd (longest schedule)).getD 0) {as : List Action}
    (hclock : Each (step schedule retention) (Behind slack) World.init as) :
    Each (step schedule retention) (InTime schedule retention) World.init as := by
  have hwide : (widest schedule : ℤ) ≤ (fromStd (longest schedule)).getD 0 := by
    rw [fromStd, if_pos hfits]
    show (widest schedule : ℤ) ≤ longest schedule
    exact_mod_cast widest_le_longest hfits hsecond
  have hlosses : Always (step schedule retention)
      (fun s => ∀ a b, [b, a].Sublist s.readings → a - b ≤ slack) World.init as := by
    apply Always.of_each (P := Behind slack) _ _ hclock
    · intro s a t hinv hbehind h x y hsub
      rw [(step_cases h).2.2.1] at hsub
      cases hreading : a.reading with
      | none =>
        rw [hreading] at hsub
        exact hinv x y hsub
      | some now =>
        rw [hreading] at hsub
        cases hsub with
        | cons _ hsub => exact hinv x y hsub
        | cons_cons _ hsub => exact hbehind y hreading x (List.singleton_sublist.mp hsub)
    · intro x y hsub
      cases hsub
  refine Each.of_always (fun s a t hlost hbehind _ => ?_) hlosses hclock
  cases a with
  | entry e now id dbNow =>
    intro x y z hsub
    have hfirst : x - y ≤ slack := hlost x y ((List.sublist_cons_self z [y, x]).trans hsub)
    have hsecond : z - now ≤ slack := hbehind now rfl z (hsub.subset List.mem_cons_self)
    omega
  | _ => trivial

/-- An entry with whole seconds. -/
def Entry.ofPeriodic (p : Periodic) (h : p.everySecs < 2 ^ 64) : Entry := ⟨p, 0, h, by decide⟩

theorem default_secs_lt : ∀ p ∈ defaultSchedule, p.everySecs < 2 ^ 64 := by decide

/-- The schedule that ships. -/
def shipped : List Entry := defaultSchedule.pmap Entry.ofPeriodic default_secs_lt

/-- `secs` whole seconds after the epoch. -/
def atSecond (secs : ℕ) : ℤ := secs * nanosPerSec

/-- The rows of a week are kept. -/
def week : ℤ := atSecond (7 * day)

/-- The shipped entry for pruning. -/
def pruning : Entry := ⟨⟨.pruneJobs, day, 20, 1⟩, 0, by decide, by decide⟩

def tripleInTime (slack now : ℤ) : List ℤ → Bool
  | [c, b, a] => (a - b) + (c - now) ≤ slack
  | _ => true

def testInTime (schedule : List Entry) (retention : ℤ) (s : World) : Action → Bool
  | .entry _ now _ _ =>
    (s.readings.sublistsLen 3).all (tripleInTime (retention - widest schedule) now)
  | _ => true

theorem inTime_of_test {schedule : List Entry} {retention : ℤ} (s : World) (a : Action)
    (h : testInTime schedule retention s a = true) : InTime schedule retention s a := by
  cases a with
  | entry e now id dbNow =>
    intro x y z hsub
    have hmem : [z, y, x] ∈ s.readings.sublistsLen 3 := List.mem_sublistsLen.mpr ⟨hsub, rfl⟩
    simpa [tripleInTime] using List.all_eq_true.mp h _ hmem
  | _ => trivial

/-- Rows are pruned in two periods, and before the second one the clock goes back by an hour. -/
def prunedTwice : List Action := [
  .entry pruning (atSecond 7200) ⟨1⟩ 0,
  .claim "worker-0" (atSecond 7201) [],
  .complete ⟨1⟩ (atSecond 7202),
  .pruneJobs (atSecond (8 * day)),
  .entry pruning (atSecond (8 * day - 3600)) ⟨2⟩ 0]

theorem prunedTwice_once : Always (step shipped week) OncePerPeriod World.init prunedTwice := by
  have hclock : Each (step shipped week) (InTime shipped week) World.init prunedTwice :=
    Each.of_check inTime_of_test (by decide)
  exact (served_once hclock).1

def testBehind (slack : ℤ) (s : World) (a : Action) : Bool :=
  a.reading.toList.all fun now => s.readings.all fun c => c - now ≤ slack

theorem behind_of_test {slack : ℤ} (s : World) (a : Action) (h : testBehind slack s a = true) :
    Behind slack s a := by
  intro now hnow c hc
  have hall := List.all_eq_true.mp h now (Option.mem_toList.mpr hnow)
  simpa using List.all_eq_true.mp hall c hc

/-- `Duration::MAX`, for a kind that is not to be run. -/
def never : Entry :=
  ⟨⟨.updateSources, 18446744073709551615, 10, 3⟩, 999999999, by decide, by decide⟩

/-- A prune an hour after its own job, twice a day. -/
def prunedHourly : List Action := [
  .entry pruning (atSecond 0) ⟨1⟩ 0,
  .complete ⟨1⟩ (atSecond 1),
  .pruneJobs (atSecond 3602),
  .entry pruning (atSecond 3603) ⟨2⟩ 0]

/-- The check takes `Duration::MAX` for no time at all and accepts a retention of an hour for a
daily schedule. The clock never goes back, and a day is served twice. -/
theorem prunedHourly_twice : ¬ ∀ schedule retention, checkRetention retention schedule = .ok () →
    ∀ as, Each (step schedule retention) (Behind 0) World.init as →
      Always (step schedule retention) OncePerPeriod World.init as := by
  intro h
  have haccepted : checkRetention (atSecond 3600) [pruning, never] = .ok () :=
    checkRetention_ok_iff.mpr (by decide)
  have hclock : Each (step [pruning, never] (atSecond 3600)) (Behind 0) World.init prunedHourly :=
    Each.of_check behind_of_test (by decide)
  obtain ⟨s, hs, htest⟩ := @exists_exec _ _ (step [pruning, never] (atSecond 3600)) World.init
    prunedHourly (fun s => !decide (s.fired.map Firing.period).Nodup) (by decide)
  refine not_always_of_exec hs (fun honce => ?_) (h _ _ haccepted _ hclock)
  simp only [Bool.not_eq_true', decide_eq_false_iff_not] at htest
  exact htest honce

/-- The clock is put back when the job ends, and once more after a prune. -/
def rewoundTwice : List Action := [
  .entry pruning (atSecond (10 * day)) ⟨1⟩ 0,
  .complete ⟨1⟩ (atSecond (4 * day)),
  .pruneJobs (atSecond (11 * day + 1)),
  .entry pruning (atSecond (10 * day + 2)) ⟨2⟩ 0]

/-- With the schedule and the retention that ship, two losses of what the retention has over the
longest period are enough as well. -/
theorem rewoundTwice_twice : ¬ ∀ as, Each (step shipped week)
    (Behind (week - longest shipped)) World.init as →
      Always (step shipped week) OncePerPeriod World.init as := by
  intro h
  have hclock : Each (step shipped week) (Behind (week - longest shipped))
      World.init rewoundTwice :=
    Each.of_check behind_of_test (by decide)
  obtain ⟨s, hs, htest⟩ := @exists_exec _ _ (step shipped week) World.init rewoundTwice
    (fun s => !decide (s.fired.map Firing.period).Nodup) (by decide)
  refine not_always_of_exec hs (fun honce => ?_) (h _ hclock)
  simp only [Bool.not_eq_true', decide_eq_false_iff_not] at htest
  exact htest honce

end Periods
end Nyuka
