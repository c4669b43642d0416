import Nyuka.Jobs.Keys

/-! Active downloads of one chapter. Equal keys keep two of them from being queued; a key of the
client's own, a retry and a report on a finished row each get around that. -/
namespace Nyuka
namespace Engine
open Queue Runs

variable {pool : ℕ} {s t : World pool} {a : Action pool}

/-- A queued or running `download_chapter` job of the chapter. -/
def ActiveDownload (chapter : ChapterId) (r : JobRow) : Prop :=
  Active r ∧ (Subject.chapter chapter).CoveredBy r

instance (chapter : ChapterId) (r : JobRow) : Decidable (ActiveDownload chapter r) := by
  unfold ActiveDownload; infer_instance

/-- At most one download of each chapter is queued or running. -/
def OneActiveDownload (s : World pool) : Prop :=
  ∀ chapter, ∀ r ∈ s.jobs.rows, ∀ r' ∈ s.jobs.rows,
    ActiveDownload chapter r → ActiveDownload chapter r' → r = r'

/-- A row that becomes an active download of a chapter finds no other one. -/
def Alone (s : World pool) (row : JobRow) : Prop :=
  ∀ chapter, (Subject.chapter chapter).CoveredBy row →
    ∀ r ∈ s.jobs.rows, ¬ ActiveDownload chapter r

/-- A download that is enqueued or retried under a key that no row holds finds no active
download of its chapter, and neither does a failed attempt that puts a row back into the queue
which has been cancelled or finished in the meantime. -/
def Unrivalled (s : World pool) : Action pool → Prop
  | .enqueue p id now => byKey s.jobs (some (p.key now)) = none →
      Alone s ((p.enqueue now).row id now)
  | .retryEnqueue q id now => ∀ job, s.requests q = .retryRead job →
      byKey s.jobs (retryOf job).idempotencyKey = none → Alone s ((retryOf job).row id now)
  | .failWrite w _ => ∀ job error delay, s.workers w = .failing job error (.retryAfter delay) →
      ∀ r ∈ s.jobs.rows, r.id = job.id → ¬ Active r → Alone s r
  | _ => True

/-- Where an active row of the state after a step comes from. -/
inductive Origin (s : World pool) (a : Action pool) (r' : JobRow) : Prop where
  | added (h : Adds s a r')
  | kept (r : JobRow) (hr : r ∈ s.jobs.rows) (hsame : SameJob r r') (hactive : Active r)
  | revived (r : JobRow) (hr : r ∈ s.jobs.rows) (h : Changes s a r r') (hactive : ¬ Active r)

theorem origin (h : step s a = some t) {r' : JobRow} (hr' : r' ∈ t.jobs.rows)
    (hactive : Active r') : Origin s a r' := by
  rcases (step_rows h r').mp hr' with hadds | ⟨r, hr, hchange⟩ | ⟨hkept, -, -⟩
  · exact .added hadds
  · by_cases hwas : Active r
    · exact .kept r hr hchange.sameJob hwas
    · exact .revived r hr hchange hwas
  · exact .kept r' hkept ⟨rfl, rfl, rfl, rfl, rfl, rfl⟩ hactive

/-- Only a requeue makes a finished row active, and it hits one row. -/
theorem Changes.revives {r r' : JobRow} (h : Changes s a r r') (hwas : ¬ Active r)
    (hactive : Active r') : ∃ w now job error delay, a = .failWrite w now ∧
      s.workers w = .failing job error (.retryAfter delay) ∧ r.id = job.id := by
  cases h with
  | requeued hw hid => exact ⟨_, _, _, _, _, rfl, hw, hid⟩
  | claimed _ hnext _ =>
    have hqueued := (nextClaimable_spec hnext).2
    simp only [claimable, Bool.and_eq_true, decide_eq_true_eq] at hqueued
    exact absurd (.inl hqueued.1.1) hwas
  | released _ hstale =>
    simp only [stale, Bool.and_eq_true, decide_eq_true_eq] at hstale
    exact absurd (.inr hstale.1) hwas
  | recovered hstale =>
    simp only [stale, Bool.and_eq_true, decide_eq_true_eq] at hstale
    exact absurd (.inr hstale.1) hwas
  | completed _ _ => rcases hactive with h | h <;> cases h
  | gaveUp _ _ => rcases hactive with h | h <;> cases h
  | cancelled _ _ => rcases hactive with h | h <;> cases h

theorem Unrivalled.alone_of_added (hcond : Unrivalled s a) {r : JobRow} (h : Adds s a r) :
    Alone s r := by
  have hforeign : ∀ f : ForeignRow, ∀ id now, Alone s (f.row id now) := by
    intro f id now chapter hcovered
    have hunknown := f.unknown
    rw [show f.kind = kindToStr .downloadChapter from hcovered.1, kindFromStr_kindToStr]
      at hunknown
    cases hunknown
  cases h with
  | enqueued _ hkey => exact hcond hkey
  | foreign _ => exact hforeign _ _ _
  | retried _ hq hkey => exact hcond _ hq hkey

theorem oneActiveDownload_step (hone : OneActiveDownload s) (hcond : Unrivalled s a)
    (h : step s a = some t) : OneActiveDownload t := by
  intro chapter r₁ hr₁ r₂ hr₂ hd₁ hd₂
  have hback : ∀ {r r' : JobRow}, SameJob r r' → (Subject.chapter chapter).CoveredBy r' →
      (Subject.chapter chapter).CoveredBy r := fun hsame hc =>
    hc.congr hsame.kind.symm hsame.payload.symm
  -- nothing was active for the chapter when a row was added or revived
  have halone : ∀ r', Origin s a r' → ActiveDownload chapter r' →
      (∃ r ∈ s.jobs.rows, SameJob r r' ∧ ActiveDownload chapter r) ∨
      ((Adds s a r' ∨ ∃ r ∈ s.jobs.rows, Changes s a r r' ∧ ¬ Active r) ∧
        ∀ r ∈ s.jobs.rows, ¬ ActiveDownload chapter r) := by
    intro r' horigin hd
    cases horigin with
    | added hadds => exact .inr ⟨.inl hadds, hcond.alone_of_added hadds chapter hd.2⟩
    | kept r hr hsame hactive => exact .inl ⟨r, hr, hsame, hactive, hback hsame hd.2⟩
    | revived r hr hchange hwas =>
      obtain ⟨w, now, job, error, delay, rfl, hw, hid⟩ := hchange.revives hwas hd.1
      exact .inr ⟨.inr ⟨r, hr, hchange, hwas⟩,
        hcond job error delay hw r hr hid hwas chapter (hback hchange.sameJob hd.2)⟩
  rcases halone r₁ (origin h hr₁ hd₁.1) hd₁ with ⟨p₁, hp₁, hs₁, ha₁⟩ | ⟨hnew₁, hnone⟩
  · rcases halone r₂ (origin h hr₂ hd₂.1) hd₂ with ⟨p₂, hp₂, hs₂, ha₂⟩ | ⟨-, hnone⟩
    · have hsame : p₁ = p₂ := hone chapter p₁ hp₁ p₂ hp₂ ha₁ ha₂
      exact row_unique hr₁ hr₂ (by rw [hs₁.id, hs₂.id, hsame])
    · exact absurd ha₁ (hnone p₁ hp₁)
  · rcases halone r₂ (origin h hr₂ hd₂.1) hd₂ with ⟨p₂, hp₂, hs₂, ha₂⟩ | ⟨hnew₂, -⟩
    · exact absurd ha₂ (hnone p₂ hp₂)
    · rcases hnew₁ with hadds₁ | ⟨p₁, hp₁, hc₁, hw₁⟩ <;>
        rcases hnew₂ with hadds₂ | ⟨p₂, hp₂, hc₂, hw₂⟩
      · exact hadds₁.unique hadds₂
      · obtain ⟨w, now, job, error, delay, rfl, -, -⟩ := hc₂.revives hw₂ hd₂.1
        cases hadds₁
      · obtain ⟨w, now, job, error, delay, rfl, -, -⟩ := hc₁.revives hw₁ hd₁.1
        cases hadds₂
      · obtain ⟨w, now, job, error, delay, rfl, hw, hid₁⟩ := hc₁.revives hw₁ hd₁.1
        obtain ⟨w', now', job', error', delay', heq, hw', hid₂⟩ := hc₂.revives hw₂ hd₂.1
        cases heq
        rw [hw] at hw'
        cases hw'
        exact row_unique hr₁ hr₂
          (by rw [hc₁.sameJob.id, hc₂.sameJob.id, hid₁, hid₂])

theorem unrivalled_of_oneActiveDownload (hdrawn : Drawn s) (h : step s a = some t)
    (ht : OneActiveDownload t) : Unrivalled s a := by
  -- an active row of the state before survives a step that only adds
  have hadded : ∀ row, Adds s a row → (∀ r r', ¬ Changes s a r r') → (∀ r, ¬ Deletes a r) →
      Active row → Alone s row := by
    intro row hadds hchanges hdeletes hactive chapter hcovered r hr hd
    have hrow : row ∈ t.jobs.rows := (step_rows h row).mpr (.inl hadds)
    have hkept : r ∈ t.jobs.rows := row_kept h hr (hdeletes r) (hchanges r)
    have hsame : row = r := ht chapter row hrow r hkept ⟨hactive, hcovered⟩ hd
    exact ((step_issued h).2 row hadds).1 (hsame ▸ hdrawn r hr)
  cases a with
  | enqueue p id now =>
    intro hkey
    have hid : id ∉ s.issued := by
      obtain ⟨⟨u, named⟩, hu, -⟩ := Option.map_eq_some_iff.mp h
      exact (enqueue_rows hu).1
    exact hadded _ (.enqueued hid hkey) (by rintro r r' ⟨⟩) (by rintro r ⟨⟩) (.inl rfl)
  | retryEnqueue q id now =>
    intro job hq hkey
    have hid : id ∉ s.issued := by
      simp only [step, hq] at h
      obtain ⟨⟨u, named⟩, hu, -⟩ := Option.map_eq_some_iff.mp h
      exact (enqueue_rows hu).1
    exact hadded _ (.retried hid hq hkey) (by rintro r r' ⟨⟩) (by rintro r ⟨⟩) (.inl rfl)
  | failWrite w now =>
    intro job error delay hw r hr hid hwas chapter hcovered r' hr' hd
    have hrow : r.requeued (now + Time.seconds delay) error.toText now ∈ t.jobs.rows :=
      (step_rows h _).mpr (.inr (.inl ⟨r, hr, .requeued hw hid⟩))
    have hne : r'.id ≠ job.id := fun hid' => hwas (row_unique hr' hr (hid'.trans hid.symm) ▸ hd.1)
    have hkept : r' ∈ t.jobs.rows := by
      refine row_kept h hr' (by rintro ⟨⟩) fun r'' hchange => ?_
      cases hchange with
      | gaveUp hw' _ => rw [hw] at hw'; cases hw'
      | requeued hw' hid' => rw [hw] at hw'; cases hw'; exact hne hid'
    have hsame := ht chapter _ hrow r' hkept ⟨.inl rfl, hcovered⟩ hd
    exact hne (hsame ▸ hid)
  | _ => trivial

/-- At most one download of each chapter is active throughout a run exactly when every step of
it is unrivalled. -/
theorem one_active_download (repos : List SourceRepoId) (as : List (Action pool)) :
    Always step OneActiveDownload (World.init repos) as ↔
      Each step Unrivalled (World.init repos) as := by
  refine always_iff_each (I := Drawn) (fun s a t hdrawn h => drawn_step hdrawn h)
    (fun s a t hdrawn hone h => ?_) as (fun r hr => by cases hr)
    (fun chapter r hr => by cases hr)
  exact ⟨unrivalled_of_oneActiveDownload hdrawn h, fun hcond => oneActiveDownload_step hone hcond h⟩

/-- The `Idempotency-Key` the web client sends with a download request. -/
def webClientKey (chapter : ChapterId) : List UInt8 :=
  s!"download:{chapter.uuid.hyphenated}".toUTF8.data.toList

/-- A follow queues a chapter and a reader asks for the same one in the web client. -/
def followedAndRequestedRun : List (Action 1) := [
  .enqueue (.followDownload ⟨7⟩) ⟨1⟩ 0,
  .enqueue (.request ⟨7⟩ (some (webClientKey ⟨7⟩))) ⟨2⟩ 0]

/-- Two downloads of the chapter are queued then. -/
theorem followedAndRequestedRun_not_one :
    ¬ Always step OneActiveDownload (World.init []) followedAndRequestedRun := by
  obtain ⟨t, ht, htest⟩ := @exists_exec _ _ step (World.init []) followedAndRequestedRun
    (fun t => t.jobs.rows.any fun r => t.jobs.rows.any fun r' => r.id ≠ r'.id &&
      decide (ActiveDownload ⟨7⟩ r) && decide (ActiveDownload ⟨7⟩ r')) (by decide)
  simp only [List.any_eq_true, Bool.and_eq_true, decide_eq_true_eq] at htest
  obtain ⟨r, hr, r', hr', ⟨hne, hd⟩, hd'⟩ := htest
  exact not_always_of_exec ht fun h => hne (congrArg JobRow.id (h ⟨7⟩ r hr r' hr' hd hd'))

end Engine
end Nyuka
