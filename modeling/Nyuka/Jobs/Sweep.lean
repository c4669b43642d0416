import Nyuka.Foundation.Paging
import Nyuka.Jobs.Scheduler

/-! Whether the follow sweep makes progress. A tick looks at a bounded batch of the due follows,
those first that were checked the longest ago, and passes over every one whose period has a job
already. -/
namespace Nyuka
open Persistence

namespace Engine
open Queue Runs Tables Paging

variable {pool : ℕ} {s t : World pool}

/-- The next so many uuids are new ones. -/
def FreshDraws (s : World pool) (draw : ℕ → JobId) (count : ℕ) : Prop :=
  (∀ i < count, draw i ∉ s.issued) ∧ ∀ i < count, ∀ j < count, draw i = draw j → i = j

private theorem enqueue_succeeds (hdrawn : Drawn s) (p : Producer) {id : JobId}
    (hid : id ∉ s.issued)
    (now : Time) : ∃ t, step s (.enqueue p id now) = some t ∧ t.issued = id :: s.issued := by
  have hqueue : ∃ jobs named, Queue.enqueue s.jobs (p.enqueue now) id now = .ok (jobs, named) := by
    unfold Queue.enqueue
    cases hkey : byKey s.jobs (p.enqueue now).idempotencyKey with
    | some row => exact ⟨_, _, rfl⟩
    | none =>
      have hfree : s.jobs.Free ((p.enqueue now).row id now) := by
        intro i r hr
        cases i with
        | id =>
          refine .inr fun heq => hid ?_
          rw [← show r.id = id from Option.some.inj heq]
          exact hdrawn r hr
        | idempotencyKey =>
          refine .inr (byKey_eq_none.mp hkey r hr ?_)
          rw [Producer.enqueue_idempotencyKey]
          rfl
      exact ⟨_, _, dif_pos hfree⟩
  obtain ⟨jobs, named, hok⟩ := hqueue
  refine ⟨{ s with jobs, issued := id :: s.issued }, ?_, rfl⟩
  simp only [step, World.enqueue, if_neg hid, hok, Option.map_some]

theorem enqueueAll_succeeds (hdrawn : Drawn s) {now : Time} {ps : List Producer}
    {draw : ℕ → JobId} (hfresh : FreshDraws s draw ps.length) :
    ∃ t, exec step s (enqueueAll now ps draw) = some t := by
  induction ps generalizing s draw with
  | nil => exact ⟨s, rfl⟩
  | cons p ps ih =>
    obtain ⟨hnew, hdistinct⟩ := hfresh
    rw [List.length_cons] at hnew hdistinct
    obtain ⟨u, hu, hissued⟩ := enqueue_succeeds hdrawn p (hnew 0 (by omega)) now
    have hfresh' : FreshDraws u (fun n => draw (n + 1)) ps.length := by
      refine ⟨fun i hi hmem => ?_, fun i hi j hj heq => ?_⟩
      · rw [hissued, List.mem_cons] at hmem
        rcases hmem with heq | hmem
        · exact absurd (hdistinct (i + 1) (by omega) 0 (by omega) heq) (by omega)
        · exact hnew (i + 1) (by omega) hmem
      · have := hdistinct (i + 1) (by omega) (j + 1) (by omega) heq
        omega
    obtain ⟨t, ht⟩ := ih (drawn_step hdrawn hu) hfresh'
    exact ⟨t, by rw [enqueueAll, exec_cons, hu]; exact ht⟩

section Batches
variable {follows : FollowTable} {jobs : JobTable} {now dbNow : Time} {limit : ℕ}

/-- A due follow without a job for its current period. -/
def unchecked (jobs : JobTable) (now dbNow : Time) (f : Follow) : Bool :=
  f.due dbNow && !keyHeld jobs ((checkOf f).key now)

/-- The due follows that have a job for their current period and may stand before the follow. -/
def crowd (follows : FollowTable) (jobs : JobTable) (now dbNow : Time) (f : Follow) :
    List Follow :=
  follows.rows.filter fun g =>
    g.due dbNow && keyHeld jobs ((checkOf g).key now) && g.checkedOrder ≤ f.checkedOrder

theorem mem_crowd {f g : Follow} : g ∈ crowd follows jobs now dbNow f ↔ g ∈ follows.rows ∧
    g.due dbNow = true ∧ keyHeld jobs ((checkOf g).key now) = true ∧
      g.checkedOrder ≤ f.checkedOrder := by
  simp [crowd, and_assoc]

theorem follows_nodup (follows : FollowTable) : follows.rows.Nodup :=
  (follows.unique true).imp fun {a _} h heq =>
    h a.id rfl (congrArg some (congrArg Follow.id heq).symm)

/-- A crowd that does not fill the batch leaves room for a follow without a job. -/
theorem unchecked_mem_batch {batch : List Follow} (hbatch : DueBatch follows dbNow limit batch)
    {f : Follow} (hf : f ∈ follows.rows) (hwaits : unchecked jobs now dbNow f = true)
    (hshort : (crowd follows jobs now dbNow f).length < limit) :
    ∃ g ∈ batch, unchecked jobs now dbNow g = true := by
  obtain ⟨sorted, hperm, hsorted, rfl⟩ := hbatch
  by_contra hnone
  push Not at hnone
  have hdue := (Bool.and_eq_true_iff.mp hwaits).1
  have hmem : f ∈ sorted := hperm.mem_iff.mpr (List.mem_filter.mpr ⟨hf, hdue⟩)
  rw [← List.take_append_drop limit sorted] at hmem hsorted
  have hbehind : f ∈ sorted.drop limit :=
    (List.mem_append.mp hmem).resolve_left fun h => hnone f h hwaits
  have hlen : (sorted.take limit).length = limit := by
    have := List.length_pos_of_mem hbehind
    rw [List.length_drop] at this
    rw [List.length_take]
    omega
  -- the whole batch is a crowd before the follow
  have hsub : sorted.take limit ⊆ crowd follows jobs now dbNow f := by
    intro g hg
    obtain ⟨hrow, hgdue⟩ := List.mem_filter.mp (hperm.mem_iff.mp (List.mem_of_mem_take hg))
    have hheld := hnone g hg
    rw [unchecked, hgdue, Bool.true_and, ne_eq, Bool.not_eq_true', Bool.not_eq_false] at hheld
    exact mem_crowd.mpr ⟨hrow, hgdue, hheld, (List.pairwise_append.mp hsorted).2.2 g hg f hbehind⟩
  have hnodup : (sorted.take limit).Nodup :=
    (hperm.nodup_iff.mpr ((follows_nodup follows).filter _)).sublist (List.take_sublist _ _)
  have := (hnodup.subperm hsub).length_le
  omega

/-- Where every crowd fills the batch, a batch may hold no follow without a job. -/
theorem exists_batch_of_crowds (hfull : ∀ f ∈ follows.rows, unchecked jobs now dbNow f = true →
      limit ≤ (crowd follows jobs now dbNow f).length) :
    ∃ batch, DueBatch follows dbNow limit batch ∧
      ∀ g ∈ batch, unchecked jobs now dbNow g = false := by
  -- of the follows last checked at the same time those with a job stand first
  let rank : Follow → WithBot ℤ ×ₗ ℕ := fun f =>
    toLex (f.checkedOrder, if unchecked jobs now dbNow f then 1 else 0)
  set sorted := orderBy rank (follows.rows.filter (Follow.due dbNow)) with hsorted
  have hperm : sorted.Perm (follows.rows.filter (Follow.due dbNow)) := orderBy_perm _ _
  have hranks := pairwise_orderBy rank (follows.rows.filter (Follow.due dbNow))
  refine ⟨sorted.take limit, ⟨sorted, hperm, hranks.imp fun h => ?_, rfl⟩, fun g hg => ?_⟩
  · rcases Prod.Lex.toLex_le_toLex.mp h with hlt | heq
    · exact hlt.le
    · exact heq.1.le
  · by_contra hwaits
    rw [Bool.not_eq_false] at hwaits
    obtain ⟨pre, suf, hsplit⟩ := List.append_of_mem hg
    have hall : sorted = pre ++ g :: (suf ++ sorted.drop limit) := by
      conv_lhs => rw [← List.take_append_drop limit sorted, hsplit]
      simp
    have hpre : pre.length < limit := by
      have := congrArg List.length hsplit
      simp only [List.length_take, List.length_append, List.length_cons] at this
      omega
    have hrow : g ∈ follows.rows :=
      (List.mem_filter.mp (hperm.mem_iff.mp (List.mem_of_mem_take hg))).1
    have hsub : crowd follows jobs now dbNow g ⊆ pre := by
      intro h hh
      obtain ⟨hhrow, hhdue, hhheld, hle⟩ := mem_crowd.mp hh
      have hmem : h ∈ sorted := hperm.mem_iff.mpr (List.mem_filter.mpr ⟨hhrow, hhdue⟩)
      have hflag : unchecked jobs now dbNow h = false := by simp [unchecked, hhheld]
      have hlt : rank h < rank g := by
        simp only [rank, hflag, hwaits, Prod.Lex.toLex_lt_toLex]
        rcases hle.lt_or_eq with hlt | heq
        · exact .inl hlt
        · exact .inr ⟨heq, by decide⟩
      have hbefore := hranks
      rw [← hsorted, hall, List.pairwise_append, List.pairwise_cons] at hbefore
      rw [hall, List.mem_append, List.mem_cons] at hmem
      rcases hmem with hmem | rfl | hmem
      · exact hmem
      · exact absurd hlt (lt_irrefl _)
      · exact absurd hlt (not_lt.mpr (hbefore.2.1.1 h hmem))
    have hnodup : (crowd follows jobs now dbNow g).Nodup := (follows_nodup follows).filter _
    have := (hnodup.subperm hsub).length_le
    have := hfull g hrow hwaits
    omega

end Batches

variable {follows : FollowTable} {config : SchedulerConfig} {now dbNow : Time}
  {draw : ℕ → JobId}

/-- When a due follow has no job for its current period, a tick that returns `Ok` enqueues a
check of such a follow. -/
def SweepProgress (s : World pool) (follows : FollowTable) (config : SchedulerConfig)
    (now dbNow : Time) (draw : ℕ → JobId) : Prop :=
  ∀ batch t, DueBatch follows dbNow config.followBatch batch →
    exec step s (tickActions config now dbNow draw batch) = some t →
    (∃ f ∈ follows.rows, unchecked s.jobs now dbNow f = true) →
    ∃ f ∈ follows.rows, unchecked s.jobs now dbNow f = true ∧
      ∃ r ∈ t.jobs.rows, ChecksUnder ((checkOf f).key now) f r

/-- The keys that are held after a tick. -/
theorem keyHeld_tick {batch : List Follow}
    (h : exec step s (tickActions config now dbNow draw batch) = some t) (key : String) :
    keyHeld t.jobs key = (keyHeld s.jobs key ||
      (tickProducers config batch).any fun p => p.key now == key) := by
  obtain ⟨u, hu, hrest⟩ := Option.bind_eq_some_iff.mp h
  rw [keyHeld_enqueueAll hrest, keyHeld_recoverStale hu]

/-- A tick adds no check for a follow that is not in its batch. -/
theorem not_checked_of_notMem {batch : List Follow} {f : Follow} (hf : f ∈ follows.rows)
    (hbatch : ∀ g ∈ batch, g ∈ follows.rows) (hnot : f ∉ batch) {later : Time}
    (hheld : keyHeld s.jobs ((checkOf f).key later) = false)
    (h : exec step s (tickActions config now dbNow draw batch) = some t) :
    keyHeld t.jobs ((checkOf f).key later) = false := by
  rw [keyHeld_tick h, hheld, Bool.false_or, Bool.eq_false_iff]
  intro hany
  obtain ⟨p, hp, hkey⟩ := List.any_eq_true.mp hany
  have hsubject := subject_eq_of_key (beq_iff_eq.mp hkey)
  rcases List.mem_append.mp hp with hp | hp
  · obtain ⟨periodic, -, rfl⟩ := List.mem_map.mp hp
    simp [checkOf, Producer.subject] at hsubject
  · obtain ⟨g, hg, rfl⟩ := List.mem_map.mp hp
    simp only [checkOf, Producer.subject, Subject.follow.injEq] at hsubject
    exact hnot (Table.primary_inj (hbatch g hg) hf hsubject ▸ hg)

/-- With new uuids to draw, a tick gets through. -/
theorem tick_succeeds (hdrawn : Drawn s) {batch : List Follow} {count : ℕ}
    (hfresh : FreshDraws s draw count) (hcount : config.schedule.length + batch.length ≤ count) :
    ∃ t, exec step s (tickActions config now dbNow draw batch) = some t := by
  obtain ⟨u, hu⟩ : ∃ u, step s (.recoverStale config.staleAfter dbNow) = some u := ⟨_, rfl⟩
  have hissued : u.issued = s.issued := by cases hu; rfl
  have hlen : (tickProducers config batch).length ≤ count := by
    rwa [tickProducers, List.length_append, List.length_map, List.length_map]
  have hfresh' : FreshDraws u draw (tickProducers config batch).length :=
    ⟨fun i hi => hissued ▸ hfresh.1 i (hi.trans_le hlen),
      fun i hi j hj => hfresh.2 i (hi.trans_le hlen) j (hj.trans_le hlen)⟩
  obtain ⟨t, ht⟩ := enqueueAll_succeeds (drawn_step hdrawn hu) hfresh'
  exact ⟨t, by rw [tickActions, exec_cons, hu]; exact ht⟩

theorem drawn_reachable {repos : List SourceRepoId} (h : Reachable step (World.init repos) s) :
    Drawn s := h.invariant (fun r hr => by cases hr) fun _ _ _ => drawn_step

/-- Whatever the history, the sweep makes progress exactly when the crowd before some follow
without a job does not fill the batch. -/
theorem sweep_progress_iff {repos : List SourceRepoId}
    (hs : Reachable step (World.init repos) s)
    (hfresh : FreshDraws s draw (config.schedule.length + config.followBatch)) :
    SweepProgress s follows config now dbNow draw ↔
      ((∃ f ∈ follows.rows, unchecked s.jobs now dbNow f = true) →
        ∃ f ∈ follows.rows, unchecked s.jobs now dbNow f = true ∧
          (crowd follows s.jobs now dbNow f).length < config.followBatch) := by
  constructor
  · intro hprogress hwaiting
    by_contra hnone
    push Not at hnone
    obtain ⟨batch, hbatch, hchecked⟩ := exists_batch_of_crowds hnone
    obtain ⟨t, htick⟩ := tick_succeeds (drawn_reachable hs) hfresh
      (Nat.add_le_add_left hbatch.length_le _)
    obtain ⟨f, hf, hwaits, r, hr, -, hkey⟩ := hprogress batch t hbatch htick hwaiting
    have hheld : keyHeld s.jobs ((checkOf f).key now) = false := by
      simpa using (Bool.and_eq_true_iff.mp hwaits).2
    have hnot : f ∉ batch := fun hmem => by
      rw [hchecked f hmem] at hwaits
      cases hwaits
    have hstill := not_checked_of_notMem hf (fun g => hbatch.mem) hnot hheld htick
    rw [keyHeld_iff.mpr ⟨r, hr, hkey⟩] at hstill
    cases hstill
  · intro hcond batch t hbatch htick hwaiting
    obtain ⟨f, hf, hwaits, hshort⟩ := hcond hwaiting
    obtain ⟨g, hg, hgwaits⟩ := unchecked_mem_batch hbatch hf hwaits hshort
    have hheld : keyHeld t.jobs ((checkOf g).key now) = true := by
      rw [keyHeld_tick htick, Bool.or_eq_true]
      refine .inr (List.any_eq_true.mpr ⟨checkOf g, ?_, beq_self_eq_true _⟩)
      exact List.mem_append_right _ (List.mem_map_of_mem hg)
    obtain ⟨r, hr, hkey⟩ := keyHeld_iff.mp hheld
    have hkeys : KeysTell t := by
      obtain ⟨as, has⟩ := hs
      exact keysTell_reachable ⟨as ++ tickActions config now dbNow draw batch, by
        rw [exec_append, has]; exact htick⟩
    exact ⟨g, hbatch.mem hg, hgwaits, r, hr, hkeys r hr (checkOf g) now hkey, hkey⟩

theorem issued_enqueueAll {ps : List Producer}
    (h : exec step s (enqueueAll now ps draw) = some t) :
    ∀ id ∈ t.issued, id ∈ s.issued ∨ ∃ i < ps.length, id = draw i := by
  induction ps generalizing s draw with
  | nil =>
    obtain rfl : s = t := by simpa [enqueueAll] using h
    exact fun id hid => .inl hid
  | cons p ps ih =>
    obtain ⟨u, hu, hrest⟩ := Option.bind_eq_some_iff.mp h
    obtain ⟨⟨v, named⟩, hv, rfl⟩ := Option.map_eq_some_iff.mp hu
    intro id hid
    rcases ih hrest id hid with hid | ⟨i, hi, rfl⟩
    · rw [(enqueue_rows hv).2.1, List.mem_cons] at hid
      rcases hid with rfl | hid
      · exact .inr ⟨0, by rw [List.length_cons]; omega, rfl⟩
      · exact .inl hid
    · exact .inr ⟨i + 1, by rw [List.length_cons]; omega, rfl⟩

def neverChecked (i : ℕ) : Follow :=
  ⟨⟨BitVec.ofNat 128 i⟩, ⟨BitVec.ofNat 128 i⟩, 21600, none, true, 0⟩

private theorem neverChecked_inj {i j : ℕ} (hi : i ∈ List.range 201) (hj : j ∈ List.range 201)
    (h : (BitVec.ofNat 128 i) = BitVec.ofNat 128 j) : i = j := by
  have hbits := congrArg BitVec.toNat h
  rw [List.mem_range] at hi hj
  rwa [BitVec.toNat_ofNat, BitVec.toNat_ofNat, Nat.mod_eq_of_lt (by omega),
    Nat.mod_eq_of_lt (by omega)] at hbits

/-- One follow more than a batch, none of them checked yet. -/
def longShelf : FollowTable where
  rows := (List.range 201).map neverChecked
  unique
    | true => .of_nodup <| by
      rw [List.map_map]
      exact List.nodup_range.map_on fun i hi j hj h =>
        neverChecked_inj hi hj (congrArg FollowId.uuid h)
    | false => .of_nodup <| by
      rw [List.map_map]
      exact List.nodup_range.map_on fun i hi j hj h =>
        neverChecked_inj hi hj (congrArg MangaId.uuid h)

def firstBatch : List Follow := (List.range 200).map neverChecked

theorem firstBatch_due (dbNow : Time) :
    DueBatch longShelf dbNow SchedulerConfig.default.followBatch firstBatch := by
  refine ⟨longShelf.rows, ?_, ?_, ?_⟩
  · rw [List.filter_eq_self.mpr fun f hf => ?_]
    obtain ⟨i, -, rfl⟩ := List.mem_map.mp hf
    rfl
  · refine List.pairwise_map.mpr (List.pairwise_of_forall fun i j => ?_)
    exact le_refl (⊥ : WithBot ℤ)
  · rw [longShelf, firstBatch, ← List.map_take]
    rw [List.take_range]
    rfl

theorem freshDraws_drawFrom {n count : ℕ} (hbound : n + count < 2 ^ 128)
    (hissued : ∀ id ∈ s.issued, ∃ i < n, id = drawFrom 0 i) : FreshDraws s (drawFrom n) count := by
  have hinj : ∀ i < 2 ^ 128, ∀ j < 2 ^ 128, drawFrom 0 i = drawFrom 0 j → i = j := by
    intro i hi j hj h
    have hbits := congrArg (fun id : JobId => id.uuid.toNat) h
    simp only [drawFrom, Nat.zero_add, BitVec.toNat_ofNat] at hbits
    rwa [Nat.mod_eq_of_lt hi, Nat.mod_eq_of_lt hj] at hbits
  have hshift : ∀ i, drawFrom n i = drawFrom 0 (n + i) := fun i => by simp [drawFrom]
  refine ⟨fun i hi hmem => ?_, fun i hi j hj h => ?_⟩
  · obtain ⟨k, hk, heq⟩ := hissued _ hmem
    rw [hshift] at heq
    have := hinj _ (by omega) _ (by omega) heq
    omega
  · rw [hshift, hshift] at h
    have := hinj _ (by omega) _ (by omega) h
    omega

/-- The first tick makes progress: there is no crowd yet. -/
theorem longShelf_first_tick :
    SweepProgress (World.init [] : World 1) longShelf .default 0 0 (drawFrom 0) := by
  have hfresh : FreshDraws (World.init [] : World 1) (drawFrom 0)
      (SchedulerConfig.default.schedule.length + SchedulerConfig.default.followBatch) :=
    freshDraws_drawFrom (by decide) fun id hid => by cases hid
  refine (sweep_progress_iff (Reachable.refl (World.init [])) hfresh).mpr ?_
  rintro ⟨f, hf, hwaits⟩
  refine ⟨f, hf, hwaits, ?_⟩
  have hnone : crowd longShelf (World.init [] : World 1).jobs 0 0 f = [] :=
    List.filter_eq_nil_iff.mpr fun g _ => by simp [World.init, keyHeld]
  rw [hnone]
  decide

private theorem periodKey_congr {stem : String} {everySecs : ℕ} {now later : Time}
    (h : periodBucket everySecs now = periodBucket everySecs later) :
    periodKey stem everySecs now = periodKey stem everySecs later := by
  rw [periodKey, h, periodKey]

/-- A minute later it is the same period. -/
theorem samePeriod (i : ℕ) :
    (checkOf (neverChecked i)).key 0 = (checkOf (neverChecked i)).key 60000000 := by
  have hbucket : periodBucket (max 21600 1 : ℤ).toNat 0 =
      periodBucket (max 21600 1 : ℤ).toNat 60000000 := by decide
  exact periodKey_congr hbucket

/-- The first tick takes two hundred of the follows. A minute later it takes the same ones, whose
checks are still waiting, and so it does for the rest of their period. -/
theorem longShelf_starves : ¬ ∀ {pool : ℕ} {repos : List SourceRepoId} {s : World pool},
    Reachable step (World.init repos) s →
    ∀ (follows : FollowTable) (config : SchedulerConfig) (now dbNow : Time) (draw : ℕ → JobId),
      FreshDraws s draw (config.schedule.length + config.followBatch) →
      SweepProgress s follows config now dbNow draw := by
  intro h
  have hcount : SchedulerConfig.default.schedule.length + firstBatch.length ≤ 204 := by
    rw [firstBatch, List.length_map, List.length_range]
    decide
  have hrows : ∀ g ∈ firstBatch, g ∈ longShelf.rows := fun g => (firstBatch_due 0).mem
  have hlast : neverChecked 200 ∈ longShelf.rows :=
    List.mem_map_of_mem (List.mem_range.mpr (by decide))
  have hleft : neverChecked 200 ∉ firstBatch := by
    intro hmem
    obtain ⟨i, hi, heq⟩ := List.mem_map.mp hmem
    have hid := congrArg (fun f : Follow => f.id.uuid.toNat) heq
    have hi := List.mem_range.mp hi
    simp only [neverChecked, BitVec.toNat_ofNat] at hid
    omega
  have hdrawn : Drawn (World.init [] : World 1) := fun r hr => by cases hr
  have hfirst : FreshDraws (World.init [] : World 1) (drawFrom 0) 204 :=
    freshDraws_drawFrom (by norm_num) fun id hid => by cases hid
  obtain ⟨s, hs⟩ : ∃ s : World 1, exec step (World.init [])
      (tickActions .default 0 0 (drawFrom 0) firstBatch) = some s :=
    tick_succeeds hdrawn hfirst hcount
  have hopen : keyHeld s.jobs ((checkOf (neverChecked 200)).key 60000000) = false :=
    not_checked_of_notMem hlast hrows hleft rfl hs
  have hsecond : FreshDraws s (drawFrom 204) 204 := by
    refine freshDraws_drawFrom (by norm_num) fun id hid => ?_
    obtain ⟨u, hu, hrest⟩ := Option.bind_eq_some_iff.mp hs
    cases hu
    rcases issued_enqueueAll hrest id hid with hid | ⟨i, hi, rfl⟩
    · cases hid
    · refine ⟨i, hi.trans_le ?_, rfl⟩
      rw [tickProducers, List.length_append, List.length_map, List.length_map]
      exact hcount
  obtain ⟨t, ht⟩ : ∃ t, exec step s
      (tickActions .default 60000000 60000000 (drawFrom 204) firstBatch) = some t :=
    tick_succeeds (drawn_reachable ⟨_, hs⟩) hsecond hcount
  have hprogress := h ⟨_, hs⟩ longShelf .default 60000000 60000000 (drawFrom 204) hsecond
  obtain ⟨f, hf, hwaits, r, hr, -, hkey⟩ := hprogress firstBatch t (firstBatch_due _) ht
    ⟨neverChecked 200, hlast, by rw [unchecked, hopen]; rfl⟩
  have hheld : keyHeld s.jobs ((checkOf f).key 60000000) = false := by
    simpa using (Bool.and_eq_true_iff.mp hwaits).2
  -- the follows of the batch have their jobs from the tick before
  have hnot : f ∉ firstBatch := by
    intro hmem
    obtain ⟨i, -, rfl⟩ := List.mem_map.mp hmem
    rw [keyHeld_tick hs, Bool.or_eq_false_iff, List.any_eq_false] at hheld
    refine hheld.2 (checkOf (neverChecked i)) ?_ (beq_iff_eq.mpr (samePeriod i))
    exact List.mem_append_right _ (List.mem_map_of_mem hmem)
  have hstill := not_checked_of_notMem hf hrows hnot hheld ht
  rw [keyHeld_iff.mpr ⟨r, hr, hkey⟩] at hstill
  cases hstill

end Engine
end Nyuka
