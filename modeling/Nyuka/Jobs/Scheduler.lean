import Mathlib.Data.Int.ConditionallyCompleteOrder
import Mathlib.Order.WithBot
import Nyuka.Jobs.Keys
import Nyuka.Persistence.Schema

/-! The scheduler's tick. It recovers stale rows, enqueues what the schedule asks for, and a
check for each follow of the due batch, each under the key of its current period. -/
namespace Nyuka
open Persistence

/-- `last_checked_at IS NULL OR last_checked_at + make_interval(..) <= now()` -/
def Follow.due (now : Time) (f : Follow) : Bool :=
  f.lastCheckedAt.all fun checked => checked + Time.seconds f.checkIntervalSecs ≤ now

/-- `ORDER BY last_checked_at NULLS FIRST` -/
def Follow.checkedOrder (f : Follow) : WithBot ℤ :=
  match f.lastCheckedAt with
  | some checked => (checked : ℤ)
  | none => ⊥

instance (f g : Follow) : Decidable (f.checkedOrder ≤ g.checkedOrder) :=
  WithBot.decidableLE f.checkedOrder g.checkedOrder

/-- The rows `due_follows` may return: the first ones of the due rows in order. Rows that were
last checked at the same time stand in either order. -/
def DueBatch (follows : FollowTable) (now : Time) (limit : ℕ) (batch : List Follow) : Prop :=
  ∃ sorted : List Follow, sorted.Perm (follows.rows.filter (Follow.due now)) ∧
    sorted.Pairwise (fun a b => a.checkedOrder ≤ b.checkedOrder) ∧ batch = sorted.take limit

theorem DueBatch.mem {follows : FollowTable} {now : Time} {limit : ℕ} {batch : List Follow}
    (h : DueBatch follows now limit batch) {f : Follow} (hf : f ∈ batch) : f ∈ follows.rows := by
  obtain ⟨sorted, hperm, -, rfl⟩ := h
  exact List.mem_of_mem_filter (hperm.mem_iff.mp (List.mem_of_mem_take hf))

theorem DueBatch.length_le {follows : FollowTable} {now : Time} {limit : ℕ} {batch : List Follow}
    (h : DueBatch follows now limit batch) : batch.length ≤ limit := by
  obtain ⟨sorted, -, -, rfl⟩ := h
  exact List.length_take_le _ _

/-- `SELECT 1 AS present FROM job WHERE idempotency_key = $1` -/
def Queue.keyHeld (jobs : Queue.JobTable) (key : String) : Bool :=
  jobs.rows.any fun r => r.idempotencyKey == some key

namespace Engine
open Queue Runs Tables

structure SchedulerConfig where
  staleAfter : ℕ
  followBatch : ℕ
  schedule : List {p : Periodic // p ∈ defaultSchedule}

def SchedulerConfig.default : SchedulerConfig where
  staleAfter := 900
  followBatch := 200
  schedule := defaultSchedule.attach

/-- The check a due follow is enqueued for. -/
def checkOf (f : Follow) : Producer := .dueFollow f.id f.checkIntervalSecs

def tickProducers (config : SchedulerConfig) (batch : List Follow) : List Producer :=
  config.schedule.map (fun p => .periodic p.1 p.2) ++ batch.map checkOf

variable {pool : ℕ}

/-- One enqueue after the other; `draw` is the uuid that each of them draws. -/
def enqueueAll (now : Time) : List Producer → (ℕ → JobId) → List (Action pool)
  | [], _ => []
  | p :: ps, draw => .enqueue p (draw 0) now :: enqueueAll now ps fun n => draw (n + 1)

/-- The statements of one tick that returns `Ok`. -/
def tickActions (config : SchedulerConfig) (now dbNow : Time) (draw : ℕ → JobId)
    (batch : List Follow) : List (Action pool) :=
  .recoverStale config.staleAfter dbNow :: enqueueAll now (tickProducers config batch) draw

variable {s t : World pool} {a : Action pool}

theorem mem_enqueueAll {now : Time} {ps : List Producer} {p : Producer} (hp : p ∈ ps)
    (draw : ℕ → JobId) : ∃ id, (.enqueue p id now : Action pool) ∈ enqueueAll now ps draw := by
  induction ps generalizing draw with
  | nil => cases hp
  | cons q ps ih =>
    rcases List.mem_cons.mp hp with rfl | hp
    · exact ⟨draw 0, List.mem_cons_self⟩
    · obtain ⟨id, hid⟩ := ih hp fun n => draw (n + 1)
      exact ⟨id, List.mem_cons_of_mem _ hid⟩

section Keys

@[simp] theorem keyHeld_iff {jobs : JobTable} {key : String} :
    keyHeld jobs key = true ↔ ∃ r ∈ jobs.rows, r.idempotencyKey = some key := by
  simp [keyHeld]

theorem keyHeld_recoverStale {olderThan : ℕ} {now : Time}
    (h : step s (.recoverStale olderThan now) = some t) (key : String) :
    keyHeld t.jobs key = keyHeld s.jobs key := by
  cases h
  simp only [keyHeld, recoverStale, Table.updateWhere, List.any_map]
  refine congrArg s.jobs.rows.any (funext fun r => ?_)
  simp only [Function.comp_apply]
  split <;> rfl

theorem keyHeld_enqueue {p : Producer} {id : JobId} {now : Time}
    (h : step s (.enqueue p id now) = some t) (key : String) :
    keyHeld t.jobs key = (keyHeld s.jobs key || p.key now == key) := by
  obtain ⟨⟨u, named⟩, hu, rfl⟩ := Option.map_eq_some_iff.mp h
  obtain ⟨-, -, -, -, -, -, ⟨row, hrow, hjobs, -⟩ | ⟨-, -, hrows⟩⟩ := enqueue_rows hu
  · obtain ⟨hmem, -, hkey⟩ := byKey_eq_some.mp hrow
    rw [Producer.enqueue_idempotencyKey] at hkey
    rw [hjobs]
    by_cases hsame : p.key now = key
    · have hheld : keyHeld s.jobs key = true := keyHeld_iff.mpr ⟨row, hmem, hsame ▸ hkey⟩
      rw [hheld, Bool.true_or]
    · rw [beq_eq_false_iff_ne.mpr hsame, Bool.or_false]
  · have hnew : ((p.enqueue now).row id now).idempotencyKey = some (p.key now) :=
      Producer.enqueue_idempotencyKey _ _
    simp only [keyHeld, hrows, List.any_cons, hnew]
    rw [Bool.or_comm]
    rfl

/-- After the enqueues of a list of producers their keys are held, and no others than before. -/
theorem keyHeld_enqueueAll {now : Time} {ps : List Producer} {draw : ℕ → JobId}
    (h : exec step s (enqueueAll now ps draw) = some t) (key : String) :
    keyHeld t.jobs key = (keyHeld s.jobs key || ps.any fun p => p.key now == key) := by
  induction ps generalizing s draw with
  | nil =>
    obtain rfl : s = t := by simpa [enqueueAll] using h
    simp
  | cons p ps ih =>
    obtain ⟨u, hu, hrest⟩ := Option.bind_eq_some_iff.mp h
    rw [ih hrest, keyHeld_enqueue hu, List.any_cons, Bool.or_assoc]

end Keys

/-- A check of the follow that is queued or running. -/
def Checking (jobs : JobTable) (f : Follow) : Prop :=
  ∃ r ∈ jobs.rows, (Subject.follow f.id).CoveredBy r ∧ Active r

/-- A check of the follow under the key. -/
def ChecksUnder (key : String) (f : Follow) (r : JobRow) : Prop :=
  (Subject.follow f.id).CoveredBy r ∧ r.idempotencyKey = some key

theorem ChecksUnder.same {key : String} {f : Follow} {r r' : JobRow} (h : ChecksUnder key f r)
    (hsame : SameJob r r') : ChecksUnder key f r' :=
  ⟨h.1.congr hsame.kind hsame.payload, hsame.idempotencyKey.trans h.2⟩

/-- A check stays until it has ended. -/
theorem check_kept {key : String} {f : Follow} (h : step s a = some t) {r : JobRow}
    (hr : r ∈ s.jobs.rows) (hcheck : ChecksUnder key f r) (hactive : Active r) :
    ∃ r' ∈ t.jobs.rows, ChecksUnder key f r' := by
  by_cases hchanged : ∃ r', Changes s a r r'
  · obtain ⟨r', hchange⟩ := hchanged
    exact ⟨r', (step_rows h r').mpr (.inr (.inl ⟨r, hr, hchange⟩)), hcheck.same hchange.sameJob⟩
  · push Not at hchanged
    refine ⟨r, row_kept h hr (fun hdeletes => ?_) hchanged, hcheck⟩
    cases hdeletes with
    | pruned hprunable =>
      rcases hactive with hstate | hstate <;> simp [prunable, hstate] at hprunable

/-- No check of the follow under the key has ended. -/
def NoneEnded (key : String) (f : Follow) (s : World pool) : Prop :=
  ∀ r ∈ s.jobs.rows, ChecksUnder key f r → Active r

/-- While no check under the key ends, one that is there stays. -/
theorem check_kept_run {key : String} {f : Follow} {as : List (Action pool)}
    (h : exec step s as = some t) (hnone : Always step (NoneEnded key f) s as)
    (hcheck : ∃ r ∈ s.jobs.rows, ChecksUnder key f r) :
    ∃ r ∈ t.jobs.rows, ChecksUnder key f r ∧ Active r := by
  induction as generalizing s with
  | nil =>
    obtain rfl : s = t := by simpa using h
    obtain ⟨r, hr, hcheck⟩ := hcheck
    exact ⟨r, hr, hcheck, hnone.head r hr hcheck⟩
  | cons a as ih =>
    obtain ⟨u, hu, hrest⟩ := Option.bind_eq_some_iff.mp h
    obtain ⟨r, hr, hcheck⟩ := hcheck
    exact ih hrest (hnone.2 u hu) (check_kept hu hr hcheck (hnone.head r hr hcheck))

/-- In a run with the statements of a tick among its steps, whoever takes the other ones, every
follow of the batch is being checked in the end or a check under its period's key has ended. -/
theorem batch_checked {repos : List SourceRepoId} (hs : Reachable step (World.init repos) s)
    {config : SchedulerConfig} {now dbNow : Time} {draw : ℕ → JobId}
    {batch : List Follow} {as : List (Action pool)}
    (htick : (tickActions config now dbNow draw batch).Sublist as)
    (h : exec step s as = some t) :
    ∀ f ∈ batch, Checking t.jobs f ∨
      ¬ Always step (NoneEnded ((checkOf f).key now) f) s as := by
  intro f hf
  by_cases hnone : Always step (NoneEnded ((checkOf f).key now) f) s as
  · left
    obtain ⟨id, hid⟩ := mem_enqueueAll
      (List.mem_append_right (config.schedule.map _) (List.mem_map_of_mem hf)) draw
    obtain ⟨pre, suf, rfl⟩ := List.append_of_mem (htick.subset (List.mem_cons_of_mem _ hid))
    rw [exec_append] at h
    obtain ⟨u, hu, hrest⟩ := Option.bind_eq_some_iff.mp h
    obtain ⟨v, hv, hlast⟩ := Option.bind_eq_some_iff.mp hrest
    have hkeys : KeysTell u := by
      obtain ⟨bs, hbs⟩ := hs
      exact keysTell_reachable ⟨bs ++ pre, by rw [exec_append, hbs]; exact hu⟩
    have hsuf : Always step (NoneEnded ((checkOf f).key now) f) v suf :=
      (hnone.drop hu).2 v hv
    obtain ⟨r, hr, hcheck, hactive⟩ := check_kept_run hlast hsuf (covered_of_enqueue hkeys hv)
    exact ⟨r, hr, hcheck.1, hactive⟩
  · exact .inr hnone

section Suppressed
variable {f : Follow} {config : SchedulerConfig} {now dbNow : Time} {draw : ℕ → JobId}

theorem checking_recoverStale {olderThan : ℕ} (h : step s (.recoverStale olderThan now) = some t) :
    Checking t.jobs f ↔ Checking s.jobs f := by
  constructor
  · rintro ⟨r', hr', hcovered, hactive⟩
    rcases (step_rows h r').mp hr' with hadds | ⟨r, hr, hchange⟩ | ⟨hkept, -, -⟩
    · cases hadds
    · have hsame := hchange.sameJob
      refine ⟨r, hr, hcovered.congr hsame.kind.symm hsame.payload.symm, ?_⟩
      cases hchange with
      | recovered hstale => exact .inr (stale_iff.mp hstale).1
    · exact ⟨r', hkept, hcovered, hactive⟩
  · rintro ⟨r, hr, hcovered, hactive⟩
    by_cases hchanged : ∃ r', Changes s (.recoverStale olderThan now) r r'
    · obtain ⟨r', hchange⟩ := hchanged
      have hsame := hchange.sameJob
      refine ⟨r', (step_rows h r').mpr (.inr (.inl ⟨r, hr, hchange⟩)),
        hcovered.congr hsame.kind hsame.payload, ?_⟩
      cases hchange with
      | recovered hstale => exact .inl rfl
    · push Not at hchanged
      exact ⟨r, row_kept h hr nofun hchanged, hcovered, hactive⟩

/-- An enqueue makes a follow checked only if its key is not held, and it asks for that. -/
theorem checking_enqueue {p : Producer} {id : JobId} (h : step s (.enqueue p id now) = some t) :
    Checking t.jobs f ↔
      Checking s.jobs f ∨ p.subject = .follow f.id ∧ keyHeld s.jobs (p.key now) = false := by
  obtain ⟨⟨u, named⟩, hu, rfl⟩ := Option.map_eq_some_iff.mp h
  obtain ⟨-, -, -, -, -, -, ⟨row, hrow, hjobs, -⟩ | ⟨hfree, -, hrows⟩⟩ := enqueue_rows hu
  · obtain ⟨hmem, -, hkey⟩ := byKey_eq_some.mp hrow
    rw [Producer.enqueue_idempotencyKey] at hkey
    have hheld : keyHeld s.jobs (p.key now) = true := keyHeld_iff.mpr ⟨row, hmem, hkey⟩
    simp [Checking, hjobs, hheld]
  · have hheld : keyHeld s.jobs (p.key now) = false := by
      rw [Bool.eq_false_iff]
      intro hheld
      obtain ⟨row, hmem, hkey⟩ := keyHeld_iff.mp hheld
      rw [Producer.enqueue_idempotencyKey] at hfree
      exact byKey_eq_none.mp hfree row hmem rfl hkey
    simp only [Checking, hrows, List.mem_cons, exists_eq_or_imp, p.follow_covered_iff, hheld,
      and_true]
    rw [or_comm]
    exact or_congr_right ⟨And.left, fun hsubject => ⟨hsubject, .inl rfl⟩⟩

theorem checking_enqueueAll {ps : List Producer}
    (h : exec step s (enqueueAll now ps draw) = some t) :
    Checking t.jobs f ↔ Checking s.jobs f ∨
      ∃ p ∈ ps, p.subject = .follow f.id ∧ keyHeld s.jobs (p.key now) = false := by
  induction ps generalizing s draw with
  | nil =>
    obtain rfl : s = t := by simpa [enqueueAll] using h
    simp
  | cons p ps ih =>
    obtain ⟨u, hu, hrest⟩ := Option.bind_eq_some_iff.mp h
    rw [ih hrest, checking_enqueue hu]
    constructor
    · rintro ((hchecking | hadded) | ⟨q, hq, hsubject, hheld⟩)
      · exact .inl hchecking
      · exact .inr ⟨p, List.mem_cons_self, hadded⟩
      · rw [keyHeld_enqueue hu, Bool.or_eq_false_iff] at hheld
        exact .inr ⟨q, List.mem_cons_of_mem p hq, hsubject, hheld.1⟩
    · rintro (hchecking | ⟨q, hq, hsubject, hheld⟩)
      · exact .inl (.inl hchecking)
      · rcases List.mem_cons.mp hq with rfl | hq
        · exact .inl (.inr ⟨hsubject, hheld⟩)
        · -- an enqueue under the same key asks for the same check
          by_cases hsame : p.key now = q.key now
          · exact .inl (.inr ⟨(subject_eq_of_key hsame).trans hsubject, hsame ▸ hheld⟩)
          · refine .inr ⟨q, hq, hsubject, ?_⟩
            rw [keyHeld_enqueue hu, hheld, beq_eq_false_iff_ne.mpr hsame, Bool.or_false]

/-- After a tick a follow of its batch is being checked if it was before, or if no job has had the
key of its current period. -/
theorem checking_tick {follows : FollowTable} {batch : List Follow}
    (hbatch : ∀ g ∈ batch, g ∈ follows.rows) (hf : f ∈ batch)
    (h : exec step s (tickActions config now dbNow draw batch) = some t) :
    Checking t.jobs f ↔ Checking s.jobs f ∨ keyHeld s.jobs ((checkOf f).key now) = false := by
  obtain ⟨u, hu, hrest⟩ := Option.bind_eq_some_iff.mp h
  rw [checking_enqueueAll hrest, checking_recoverStale hu]
  refine or_congr_right ⟨?_, fun hheld => ?_⟩
  · rintro ⟨p, hp, hsubject, hheld⟩
    rw [keyHeld_recoverStale hu] at hheld
    rcases List.mem_append.mp hp with hp | hp
    · obtain ⟨periodic, -, rfl⟩ := List.mem_map.mp hp
      cases hsubject
    · obtain ⟨g, hg, rfl⟩ := List.mem_map.mp hp
      have hsame : g = f :=
          Table.primary_inj (hbatch g hg) (hbatch f hf) (Subject.follow.inj hsubject)
      exact hsame ▸ hheld
  · refine ⟨checkOf f, List.mem_append_right _ (List.mem_map_of_mem hf), rfl, ?_⟩
    rw [keyHeld_recoverStale hu, hheld]

end Suppressed

/-- Whatever the history, a tick leaves every follow of its due batch being checked exactly when
each of them was being checked before, or no job has had the key of its current period. Among other
steps it does so as long as no check under that key ends. -/
theorem due_checked_iff {repos : List SourceRepoId} (hs : Reachable step (World.init repos) s)
    {follows : FollowTable} {config : SchedulerConfig} {now dbNow : Time} {draw : ℕ → JobId}
    {batch : List Follow} (hbatch : DueBatch follows dbNow config.followBatch batch) :
    (∀ t, exec step s (tickActions config now dbNow draw batch) = some t →
      ((∀ f ∈ batch, Checking t.jobs f) ↔
        ∀ f ∈ batch, Checking s.jobs f ∨ keyHeld s.jobs ((checkOf f).key now) = false)) ∧
    ∀ as t, (tickActions config now dbNow draw batch).Sublist as → exec step s as = some t →
      ∀ f ∈ batch, Always step (NoneEnded ((checkOf f).key now) f) s as → Checking t.jobs f := by
  constructor
  · intro t h
    exact forall_congr' fun f => forall_congr' fun hf => checking_tick (fun g => hbatch.mem) hf h
  · intro as t htick h f hf hnone
    exact (batch_checked hs htick h f hf).resolve_right fun hended => hended hnone

def bookFollow : Follow := ⟨⟨1⟩, ⟨2⟩, 21600, none, true, 0⟩

def drawFrom (n i : ℕ) : JobId := ⟨BitVec.ofNat 128 (n + i)⟩

/-- A tick that finds a follow that was never checked. -/
def firstTick : List (Action 1) := tickActions .default 0 0 (drawFrom 0) [bookFollow]

/-- The follow is checked, and due again when the next period has begun. -/
def checkedRun : List (Action 1) :=
  firstTick ++ [.claim 0 0 [] true, .complete 0 (Time.seconds 5)]

def checkedFollow : Follow := { bookFollow with lastCheckedAt := some (Time.seconds 5) }

/-- The tick of the next period has it checked again, whether a worker is at it or not. -/
theorem nextPeriod_checked : ∃ s t : World 1, exec step (World.init []) checkedRun = some s ∧
    exec step s (tickActions .default (Time.seconds 21605) (Time.seconds 21605) (drawFrom 5)
      [checkedFollow]) = some t ∧ Checking t.jobs checkedFollow := by
  obtain ⟨t, ht, htest⟩ := @exists_exec _ _ step (World.init []) (checkedRun ++ tickActions .default
      (Time.seconds 21605) (Time.seconds 21605) (drawFrom 5) [checkedFollow])
    (fun t => t.jobs.rows.any fun r => r.state = .succeeded &&
      r.idempotencyKey = some ((checkOf checkedFollow).key 0)) (by decide)
  rw [exec_append] at ht
  obtain ⟨s, hs, ht⟩ := Option.bind_eq_some_iff.mp ht
  obtain ⟨_, hs', hfree⟩ := @exists_exec _ _ step (World.init []) checkedRun
    (fun s => !keyHeld s.jobs ((checkOf checkedFollow).key (Time.seconds 21605))) (by decide)
  obtain rfl := Option.some.inj (hs'.symm.trans hs)
  have hdue : DueBatch (Table.empty.insert checkedFollow (by simp [Table.Free]))
      (Time.seconds 21605) SchedulerConfig.default.followBatch [checkedFollow] :=
    ⟨[checkedFollow], by decide, List.pairwise_singleton _ _, rfl⟩
  refine ⟨_, t, hs, ht, ((due_checked_iff ⟨_, hs⟩ hdue).1 t ht).mpr ?_ checkedFollow
    List.mem_cons_self⟩
  intro f hf
  obtain rfl := List.mem_singleton.mp hf
  exact .inr (by simpa using hfree)

/-- After the tick the follow's check fails for good. -/
def failedCheckRun : List (Action 1) :=
  firstTick ++ [.claim 0 0 [] true, .failRead 0 (.source "gone" false), .failWrite 0 0]

/-- A minute later the follow is due, and the tick does nothing about it. -/
theorem failedCheckRun_not_checking : ¬ ∀ {pool : ℕ} {repos : List SourceRepoId}
    {s t : World pool}, Reachable step (World.init repos) s →
    ∀ (follows : FollowTable) (config : SchedulerConfig) (now dbNow : Time)
      (draw : ℕ → JobId) (batch : List Follow),
      DueBatch follows dbNow config.followBatch batch →
      exec step s (tickActions config now dbNow draw batch) = some t →
      ∀ f ∈ batch, Checking t.jobs f := by
  intro h
  obtain ⟨t, ht, htest⟩ := @exists_exec _ _ step (World.init [])
    (failedCheckRun ++ tickActions .default 60000000 60000000 (drawFrom 5) [bookFollow])
    (fun t => t.jobs.rows.all fun r =>
      !decide ((Subject.follow bookFollow.id).CoveredBy r ∧ Active r))
    (by decide)
  rw [exec_append] at ht
  obtain ⟨s, hs, ht⟩ := Option.bind_eq_some_iff.mp ht
  have hdue : DueBatch (Table.empty.insert bookFollow (by simp [Table.Free])) 60000000
      SchedulerConfig.default.followBatch [bookFollow] :=
    ⟨[bookFollow], by decide, List.pairwise_singleton _ _, rfl⟩
  obtain ⟨r, hr, hcheck⟩ := h ⟨_, hs⟩ _ _ _ _ _ _ hdue ht bookFollow List.mem_cons_self
  simpa [hcheck] using List.all_eq_true.mp htest r hr

end Engine
end Nyuka
