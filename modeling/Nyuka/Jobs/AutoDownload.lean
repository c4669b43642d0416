import Nyuka.Jobs.Keys
import Nyuka.Persistence.Chapters

/-! Downloads a follow asks for by itself. Whoever writes a source's chapter list gets the
chapters that are new to the table, and a check that asks for downloads enqueues one for each of
those it got. Checks, refreshes and additions of one series run side by side and may die between
any two of their statements. -/
namespace Nyuka
namespace Engine
open Queue Runs Tables Persistence

/-- A run that writes the series' chapters. `refreshing` is a `refresh_metadata` job or a
`POST /manga` request, the others are a `check_follow` job. -/
inductive Writer where
  | idle
  | refreshing
  | checking (follow : Follow)
  | queueing (follow : Follow) (left : List ChapterId)

/-- The new chapters that the run will still enqueue. -/
def Writer.left : Writer → List ChapterId
  | queueing _ left => left
  | _ => []

structure Series (pool : ℕ) where
  world : World pool
  chapters : ChapterTable
  follow : Option Follow
  /-- The chapters whose file is in the library. -/
  files : List ChapterId
  writers : ℕ → Writer
  /-- The series' chapters that were first inserted since it is followed. -/
  fresh : List ChapterId

inductive Event (pool : ℕ) where
  | engine (a : Action pool)
  | upsertFollow (id : FollowId) (interval : ℤ) (autoDownload : Bool) (now : Time)
  | unfollow
  | refresh (j : ℕ)
  | check (j : ℕ) (id : FollowId)
  | insert (j : ℕ) (listed : List SourceChapter) (draw : ℕ → ChapterId) (now : Time)
  | enqueueDownload (j : ℕ) (id : JobId) (now : Time)
  | stamp (j : ℕ) (now : Time)
  /-- A statement or the source fails, or the process dies. A retry is a new run. -/
  | die (j : ℕ)
  /-- A download of the chapter places its file. -/
  | arrive (chapter : ChapterId)

variable {pool : ℕ}

namespace Series

/-- The series is not followed, and nothing runs. -/
def start (repos : List SourceRepoId) (chapters : ChapterTable) (files : List ChapterId) :
    Series pool where
  world := .init repos
  chapters := chapters
  follow := none
  files := files
  writers _ := .idle
  fresh := []

def setWriter (s : Series pool) (j : ℕ) (writer : Writer) : Series pool :=
  { s with writers := Function.update s.writers j writer }

/-- `upsert_chapters` on the series. -/
def insert (s : Series pool) (manga : MangaId) (listed : List SourceChapter)
    (draw : ℕ → ChapterId) (now : Time) : Option (Series pool × List ChapterId) :=
  match upsertChapters manga now listed draw s.chapters with
  | .ok (chapters, new) =>
    some ({ s with chapters, fresh := if s.follow.isSome then s.fresh ++ new else [] }, new)
  | .error _ => none

/-- `UPDATE follow SET last_checked_at = now() WHERE id = $1` -/
def markChecked (s : Series pool) (id : FollowId) (now : Time) : Series pool :=
  { s with
    follow := s.follow.map fun row : Follow =>
      if row.id = id then { row with lastCheckedAt := some now } else row }

end Series

def advance (manga : MangaId) (s : Series pool) : Event pool → Option (Series pool)
  | .engine a => (step s.world a).map fun world => { s with world }
  | .upsertFollow id interval autoDownload now =>
    match s.follow with
    | some follow =>
      some { s with follow := some { follow with checkIntervalSecs := interval, autoDownload } }
    | none => some { s with
        follow := some ⟨id, manga, interval, none, autoDownload, now⟩, fresh := [] }
  | .unfollow => some { s with follow := none, fresh := [] }
  | .refresh j =>
    match s.writers j with
    | .idle => some (s.setWriter j .refreshing)
    | _ => none
  | .check j id =>
    match s.writers j, s.follow with
    | .idle, some follow =>
      if follow.id = id then some (s.setWriter j (.checking follow)) else some s
    | .idle, none => some s
    | _, _ => none
  | .insert j listed draw now =>
    match s.writers j with
    | .refreshing =>
      (s.insert manga listed draw now).map fun answer => answer.1.setWriter j .idle
    | .checking follow =>
      (s.insert manga listed draw now).map fun answer => answer.1.setWriter j
        (.queueing follow (if follow.autoDownload then answer.2 else []))
    | _ => none
  | .enqueueDownload j id now =>
    match s.writers j with
    | .queueing follow (chapter :: left) =>
      (step s.world (.enqueue (.followDownload chapter) id now)).map fun world =>
        { s with world }.setWriter j (.queueing follow left)
    | _ => none
  | .stamp j now =>
    match s.writers j with
    | .queueing follow [] => some ((s.markChecked follow.id now).setWriter j .idle)
    | _ => none
  | .die j => some (s.setWriter j .idle)
  | .arrive chapter => some { s with files := chapter :: s.files }

variable {manga : MangaId} {s t : Series pool} {e : Event pool}

/-- There is a download job of the chapter, or its file is in the library. -/
def Provided (s : Series pool) (chapter : ChapterId) : Prop :=
  (∃ r ∈ s.world.jobs.rows, (Subject.chapter chapter).CoveredBy r) ∨ chapter ∈ s.files

/-- When the step stamps a follow with automatic downloads as checked, every chapter of the
series first inserted since it is followed is provided for. -/
def LosesNone (manga : MangaId) (s : Series pool) : Event pool → Prop
  | .stamp j now => ∀ t, advance manga s (.stamp j now) = some t →
      ∀ follow row, s.writers j = .queueing follow [] → s.follow = some row →
        row.id = follow.id → row.autoDownload = true →
        ∀ chapter ∈ t.fresh, Provided t chapter
  | _ => True

/-- While the series is followed only a check that asks for downloads inserts new chapters; no
check dies or is stamped while new chapters are left to be enqueued, by itself or by another one;
and no download job is pruned whose chapter has no file. -/
def HandsOn (manga : MangaId) (s : Series pool) : Event pool → Prop
  | .engine a => ∀ r ∈ s.world.jobs.rows, Deletes a r → ∀ chapter,
      (Subject.chapter chapter).CoveredBy r → chapter ∈ s.files
  | .insert j listed _ _ => s.follow = none ∨
      (∃ follow, s.writers j = .checking follow ∧ follow.autoDownload = true) ∨
      ∀ c ∈ listed, hasChapter s.chapters manga c.key = true
  | .stamp j _ => ∀ k, k ≠ j → (s.writers k).left = []
  | .die j => (s.writers j).left = []
  | _ => True

/-- Every chapter inserted since the series is followed is provided for, or a check will still
enqueue it. -/
structure Accounted (s : Series pool) : Prop where
  keys : KeysTell s.world
  fresh : ∀ chapter ∈ s.fresh, Provided s chapter ∨ ∃ j, chapter ∈ (s.writers j).left

theorem Provided.mono {chapter : ChapterId} (h : Provided s chapter)
    (hjobs : t.world.jobs = s.world.jobs) (hfiles : s.files ⊆ t.files) : Provided t chapter := by
  rcases h with ⟨r, hr, hcovered⟩ | hfile
  · exact .inl ⟨r, by rw [hjobs]; exact hr, hcovered⟩
  · exact .inr (hfiles hfile)

/-- A step of the engine keeps what is provided for, unless it prunes the job. -/
theorem Provided.engine {a : Action pool} {world : World pool} {chapter : ChapterId}
    (h : Provided s chapter) (hcond : HandsOn manga s (.engine a))
    (hstep : step s.world a = some world) : Provided { s with world } chapter := by
  rcases h with ⟨r, hr, hcovered⟩ | hfile
  · by_cases hdeletes : Deletes a r
    · exact .inr (hcond r hr hdeletes chapter hcovered)
    · left
      by_cases hchanged : ∃ r', Changes s.world a r r'
      · obtain ⟨r', hchange⟩ := hchanged
        have hsame := hchange.sameJob
        exact ⟨r', (step_rows hstep r').mpr (.inr (.inl ⟨r, hr, hchange⟩)),
          hcovered.congr hsame.kind hsame.payload⟩
      · push Not at hchanged
        exact ⟨r, row_kept hstep hr hdeletes hchanged, hcovered⟩
  · exact .inr hfile

/-- A step that keeps what is provided for and touches at most one run, which has nothing left
to enqueue that it does not have after the step. -/
theorem Accounted.of_setWriter {u : Series pool} {j : ℕ} {writer : Writer} (hc : Accounted s)
    (hkeys : KeysTell u.world) (hwriters : u.writers = s.writers)
    (hprovided : ∀ chapter, Provided s chapter → Provided u chapter)
    (hfresh : ∀ chapter ∈ u.fresh, chapter ∈ s.fresh ∨ chapter ∈ writer.left)
    (hleft : ∀ chapter ∈ (s.writers j).left, Provided u chapter ∨ chapter ∈ writer.left) :
    Accounted (u.setWriter j writer) where
  keys := hkeys
  fresh chapter hmem := by
    have hown : ∀ chapter ∈ writer.left, ∃ k, chapter ∈ ((u.setWriter j writer).writers k).left :=
      fun chapter h => ⟨j, by simpa [Series.setWriter] using h⟩
    rcases hfresh chapter hmem with hold | hnew
    · rcases hc.fresh chapter hold with hp | ⟨k, hk⟩
      · exact .inl (hprovided chapter hp)
      · by_cases hkj : k = j
        · subst hkj
          rcases hleft chapter hk with hp | hw
          · exact .inl hp
          · exact .inr (hown chapter hw)
        · refine .inr ⟨k, ?_⟩
          simpa [Series.setWriter, Function.update_of_ne hkj, hwriters] using hk
    · exact .inr (hown chapter hnew)

theorem insert_some {listed : List SourceChapter} {draw : ℕ → ChapterId} {now : Time}
    {u : Series pool} {new : List ChapterId} (h : s.insert manga listed draw now = some (u, new)) :
    u.world = s.world ∧ u.files = s.files ∧ u.writers = s.writers ∧
      u.fresh = (if s.follow.isSome then s.fresh ++ new else []) ∧
      upsertChapters manga now listed draw s.chapters = .ok (u.chapters, new) := by
  unfold Series.insert at h
  split at h
  · next chapters ids hok =>
    cases h
    exact ⟨rfl, rfl, rfl, rfl, hok⟩
  · cases h

/-- A run that hands its new chapters on accounts for them. -/
theorem accounted_insert {listed : List SourceChapter} {draw : ℕ → ChapterId} {now : Time}
    {u : Series pool} {new : List ChapterId} {j : ℕ} {writer : Writer} (hc : Accounted s)
    (h : s.insert manga listed draw now = some (u, new)) (hidle : (s.writers j).left = [])
    (hcond : s.follow = none ∨ new ⊆ writer.left ∨
      ∀ c ∈ listed, hasChapter s.chapters manga c.key = true) :
    Accounted (u.setWriter j writer) := by
  obtain ⟨hworld, hfiles, hwriters, hfresh, hupsert⟩ := insert_some h
  refine hc.of_setWriter (by rw [hworld]; exact hc.keys) hwriters
    (fun chapter hp => hp.mono (by rw [hworld]) (by rw [hfiles]; exact fun _ h => h))
    (fun chapter hmem => ?_) (by simp [hidle])
  rw [hfresh] at hmem
  rcases hcond with hnone | hhanded | hpresent
  · simp [hnone] at hmem
  · split at hmem
    · rcases List.mem_append.mp hmem with hold | hnew
      · exact .inl hold
      · exact .inr (hhanded hnew)
    · cases hmem
  · rw [upsertChapters_present hpresent] at hupsert
    obtain rfl : [] = new := (Prod.mk.inj (Except.ok.inj hupsert)).2
    split at hmem
    · exact .inl (by simpa using hmem)
    · cases hmem

theorem accounted_enqueueDownload {j : ℕ} {id : JobId} {now : Time} (hc : Accounted s)
    (h : advance manga s (.enqueueDownload j id now) = some t) : Accounted t := by
  simp only [advance] at h
  split at h
  · next follow chapter left hwriter =>
    obtain ⟨world, hstep, rfl⟩ := Option.map_eq_some_iff.mp h
    obtain ⟨r, hr, hcovered, -⟩ := covered_of_enqueue hc.keys hstep
    have hengine : HandsOn manga s (.engine (.enqueue (.followDownload chapter) id now)) := by
      rintro r hr ⟨⟩
    refine hc.of_setWriter (keysTell_step hc.keys hstep) rfl
      (fun c hp => hp.engine hengine hstep) (fun c hmem => .inl hmem) fun c hmem => ?_
    rw [hwriter] at hmem
    rcases List.mem_cons.mp hmem with rfl | hmem
    · exact .inl (.inl ⟨r, hr, hcovered⟩)
    · exact .inr hmem
  · cases h

theorem accounted_advance (hc : Accounted s) (hcond : HandsOn manga s e)
    (h : advance manga s e = some t) : Accounted t := by
  -- a run that has nothing to enqueue goes on to a state with nothing to enqueue
  have hmoves : ∀ j writer, (s.writers j).left = [] → Accounted (s.setWriter j writer) :=
    fun j writer hidle => hc.of_setWriter hc.keys rfl (fun _ hp => hp) (fun _ hmem => .inl hmem)
      (by simp [hidle])
  cases e with
  | engine a =>
    obtain ⟨world, hstep, rfl⟩ := Option.map_eq_some_iff.mp h
    refine ⟨keysTell_step hc.keys hstep, fun chapter hmem => ?_⟩
    exact (hc.fresh chapter hmem).imp_left fun hp => hp.engine hcond hstep
  | upsertFollow id interval autoDownload now =>
    simp only [advance] at h
    split at h
    · cases h
      exact ⟨hc.keys, fun chapter hmem => (hc.fresh chapter hmem).imp_left fun hp =>
        hp.mono rfl fun _ h => h⟩
    · cases h
      exact ⟨hc.keys, by rintro chapter ⟨⟩⟩
  | unfollow =>
    cases h
    exact ⟨hc.keys, by rintro chapter ⟨⟩⟩
  | refresh j =>
    simp only [advance] at h
    split at h
    · next hidle =>
      cases h
      exact hmoves j _ (by rw [hidle]; rfl)
    · cases h
  | check j id =>
    simp only [advance] at h
    split at h
    · next hidle _ =>
      split at h
      · cases h
        exact hmoves j _ (by rw [hidle]; rfl)
      · cases h
        exact hc
    · cases h
      exact hc
    · cases h
  | insert j listed draw now =>
    simp only [advance] at h
    split at h
    · next hwriter =>
      obtain ⟨⟨u, new⟩, hinsert, rfl⟩ := Option.map_eq_some_iff.mp h
      refine accounted_insert hc hinsert (by rw [hwriter]; rfl) (hcond.imp_right fun hcond => ?_)
      refine .inr (hcond.resolve_left ?_)
      rintro ⟨follow, hchecking, -⟩
      rw [hwriter] at hchecking
      cases hchecking
    · next follow hwriter =>
      obtain ⟨⟨u, new⟩, hinsert, rfl⟩ := Option.map_eq_some_iff.mp h
      refine accounted_insert hc hinsert (by rw [hwriter]; rfl) (hcond.imp_right fun hcond => ?_)
      refine hcond.imp_left ?_
      rintro ⟨follow', hchecking, hauto⟩
      rw [hwriter] at hchecking
      cases hchecking
      simp [Writer.left, hauto]
    · cases h
  | enqueueDownload j id now => exact accounted_enqueueDownload hc h
  | stamp j now =>
    simp only [advance] at h
    split at h
    · next follow hwriter =>
      cases h
      exact hc.of_setWriter hc.keys rfl (fun _ hp => hp.mono rfl fun _ h => h)
        (fun _ hmem => .inl hmem) (by simp [hwriter, Writer.left])
    · cases h
  | die j =>
    cases h
    exact hmoves j _ hcond
  | arrive chapter =>
    cases h
    exact ⟨hc.keys, fun c hmem => (hc.fresh c hmem).imp_left fun hp =>
      hp.mono rfl (List.subset_cons_self _ _)⟩

/-- A stamp at which nothing is left to be enqueued finds every chapter provided for. -/
theorem losesNone_of_accounted (hc : Accounted s) (hcond : HandsOn manga s e) :
    LosesNone manga s e := by
  cases e with
  | stamp j now =>
    intro t h follow row hwriter _ _ _ chapter hmem
    have hnone : ∀ k, ((t.writers k).left = []) := by
      intro k
      simp only [advance, hwriter, Option.some.injEq] at h
      subst h
      by_cases hkj : k = j
      · subst hkj
        simp [Series.setWriter, Writer.left]
      · simpa [Series.setWriter, Series.markChecked, Function.update_of_ne hkj] using hcond k hkj
    rcases (accounted_advance hc hcond h).fresh chapter hmem with hp | ⟨k, hk⟩
    · exact hp
    · rw [hnone k] at hk
      cases hk
  | _ => trivial

/-- In a run in which every new chapter is handed on, no stamp finds one that was lost. -/
theorem autoDownload_loses_none {repos : List SourceRepoId} {chapters : ChapterTable}
    {files : List ChapterId} {es : List (Event pool)}
    (hrun : Each (advance manga) (HandsOn manga) (.start repos chapters files) es) :
    Each (advance manga) (LosesNone manga) (.start repos chapters files) es := by
  have hstart : Accounted (.start repos chapters files : Series pool) := {
    keys := by rintro r ⟨⟩
    fresh := by rintro chapter ⟨⟩ }
  have haccounted : Always (advance manga) Accounted (.start repos chapters files) es :=
    .of_each (fun s e t hc hcond h => accounted_advance hc hcond h) hstart hrun
  exact Each.of_always (I := Accounted) (fun s e t hc hcond _ => losesNone_of_accounted hc hcond)
    haccounted hrun

/-- The run that an event is one of. -/
def Event.run? : Event pool → Option ℕ
  | .refresh j | .check j _ | .insert j _ _ _ | .enqueueDownload j _ _ | .stamp j _
  | .die j => some j
  | .engine _ | .upsertFollow _ _ _ _ | .unfollow | .arrive _ => none

/-- The runs from the `n`-th on have nothing to enqueue. -/
def Within (n : ℕ) (s : Series pool) : Prop := ∀ k, n ≤ k → (s.writers k).left = []

/-- An event touches no other run. -/
theorem writers_advance (h : advance manga s e = some t) {k : ℕ} (hk : e.run? ≠ some k) :
    t.writers k = s.writers k := by
  have hset : ∀ (u : Series pool) (j : ℕ) (writer : Writer), some j ≠ some k →
      (u.setWriter j writer).writers k = u.writers k := fun u j writer hj =>
    Function.update_of_ne (fun heq => hj (congrArg some heq.symm)) ..
  cases e with
  | engine a =>
    obtain ⟨world, -, rfl⟩ := Option.map_eq_some_iff.mp h
    rfl
  | upsertFollow id interval autoDownload now =>
    simp only [advance] at h
    split at h <;> cases h <;> rfl
  | unfollow | arrive _ =>
    cases h
    rfl
  | refresh j =>
    simp only [advance] at h
    split at h <;> cases h
    exact hset _ _ _ hk
  | check j id =>
    simp only [advance] at h
    split at h
    · split at h <;> cases h
      · exact hset _ _ _ hk
      · rfl
    · cases h
      rfl
    · cases h
  | insert j listed draw now =>
    simp only [advance] at h
    split at h
    · obtain ⟨⟨u, new⟩, hinsert, rfl⟩ := Option.map_eq_some_iff.mp h
      rw [hset _ _ _ hk, (insert_some hinsert).2.2.1]
    · obtain ⟨⟨u, new⟩, hinsert, rfl⟩ := Option.map_eq_some_iff.mp h
      rw [hset _ _ _ hk, (insert_some hinsert).2.2.1]
    · cases h
  | enqueueDownload j id now =>
    simp only [advance] at h
    split at h
    · obtain ⟨world, -, rfl⟩ := Option.map_eq_some_iff.mp h
      exact hset _ _ _ hk
    · cases h
  | stamp j now =>
    simp only [advance] at h
    split at h <;> cases h
    exact hset _ _ _ hk
  | die j =>
    cases h
    exact hset _ _ _ hk

/-- A test of the condition for events of the first `n` runs, of which none prunes. -/
def handsOn (manga : MangaId) (n : ℕ) (s : Series pool) (e : Event pool) : Bool :=
  e.run?.all (· < n) && match e with
  | .engine (.prune _ _) => false
  | .insert j listed _ _ =>
    (match s.writers j with
      | .checking follow => follow.autoDownload
      | _ => false) || listed.all fun c => hasChapter s.chapters manga c.key
  | .stamp j _ => (List.range n).all fun k => k == j || (s.writers k).left.isEmpty
  | .die j => (s.writers j).left.isEmpty
  | _ => true

theorem handsOn_of_test {n : ℕ} (hs : Within n s) (h : handsOn manga n s e = true) :
    HandsOn manga s e := by
  obtain ⟨-, h⟩ := Bool.and_eq_true_iff.mp h
  cases e with
  | engine a =>
    rintro r - hdeletes
    cases hdeletes with
    | pruned => cases h
  | insert j listed draw now =>
    rcases Bool.or_eq_true_iff.mp h with hauto | hpresent
    · split at hauto
      · next follow hchecking => exact .inr (.inl ⟨follow, hchecking, hauto⟩)
      · cases hauto
    · exact .inr (.inr (List.all_eq_true.mp hpresent))
  | stamp j now =>
    intro k hk
    by_cases hkn : k < n
    · have htest := List.all_eq_true.mp h k (List.mem_range.mpr hkn)
      rwa [beq_eq_false_iff_ne.mpr hk, Bool.false_or, List.isEmpty_iff] at htest
    · exact hs k (not_lt.mp hkn)
  | die j => exact List.isEmpty_iff.mp h
  | _ => trivial

theorem within_advance {n : ℕ} (hs : Within n s) (htest : handsOn manga n s e = true)
    (h : advance manga s e = some t) : Within n t := by
  intro k hk
  rw [writers_advance h, hs k hk]
  intro hrun
  have hlt := (Bool.and_eq_true_iff.mp htest).1
  rw [hrun, Option.all_some, decide_eq_true_iff] at hlt
  exact absurd hlt (not_lt.mpr hk)

/-- A run whose steps pass the test hands every new chapter on. -/
theorem each_handsOn_of_check {n : ℕ} {es : List (Event pool)} (hs : Within n s)
    (h : check (advance manga) (handsOn manga n) s es = true) :
    Each (advance manga) (HandsOn manga) s es := by
  have htest : Each (advance manga) (fun s e => handsOn manga n s e = true) s es :=
    Each.of_check (fun _ _ h => h) h
  have hwithin : Always (advance manga) (Within n) s es :=
    .of_each (fun _ _ _ hs htest h => within_advance hs htest h) hs htest
  refine Each.of_always (fun s e t hs htest _ => ?_) hwithin htest
  exact handsOn_of_test hs htest

def firstListed : SourceChapter := ⟨"1", none, none⟩
def secondListed : SourceChapter := ⟨"2", none, none⟩
def thirdListed : SourceChapter := ⟨"3", none, none⟩

/-- A series of no chapters that nobody follows. -/
def unfollowed : Series 1 := .start [] Table.empty []

def drawChapter (n i : ℕ) : ChapterId := ⟨BitVec.ofNat 128 (n + i)⟩

/-- The series is followed. A check finds two chapters, beside a refresh that finds no other ones,
and is stamped; one of the chapters is downloaded; the next check dies before it has the list, and
the one after that finds a third chapter and is stamped. -/
def autoRun : List (Event 1) :=
  [.upsertFollow ⟨1⟩ 3600 true 0, .check 0 ⟨1⟩, .refresh 1,
    .insert 0 [firstListed, secondListed] (drawChapter 1) 1,
    .enqueueDownload 0 ⟨1⟩ 2, .insert 1 [secondListed, firstListed] (drawChapter 5) 2,
    .enqueueDownload 0 ⟨2⟩ 3, .stamp 0 4,
    .engine (.claim 0 5 [] true), .arrive ⟨1⟩, .engine (.complete 0 6),
    .check 0 ⟨1⟩, .die 0, .check 1 ⟨1⟩,
    .insert 1 [thirdListed, secondListed, firstListed] (drawChapter 3) 7,
    .enqueueDownload 1 ⟨3⟩ 8, .stamp 1 9]

theorem autoRun_loses_none :
    ((exec (advance ⟨1⟩) unfollowed autoRun).any fun s =>
        s.fresh = [⟨1⟩, ⟨2⟩, ⟨3⟩] && s.follow.any fun row => row.lastCheckedAt = some 9) = true ∧
      Each (advance ⟨1⟩) (LosesNone ⟨1⟩) unfollowed autoRun :=
  ⟨by decide, autoDownload_loses_none (@each_handsOn_of_check _ ⟨1⟩ _ 2 _ (fun _ _ => rfl)
    (by decide))⟩

/-- A refresh comes before the check and takes the new chapter. -/
def refreshedRun : List (Event 1) :=
  [.upsertFollow ⟨1⟩ 3600 true 0, .refresh 0, .insert 0 [firstListed] (fun _ => ⟨1⟩) 1,
    .check 1 ⟨1⟩, .insert 1 [firstListed] (fun _ => ⟨2⟩) 2]

/-- A test that a check has enqueued all it got, while no job or file answers for the chapters
inserted since the series is followed. -/
def stranded (s : Series pool) (j : ℕ) : Bool :=
  match s.writers j, s.follow with
  | .queueing follow [], some row => row.id == follow.id && row.autoDownload &&
      s.world.jobs.rows.isEmpty && s.files.isEmpty && !s.fresh.isEmpty
  | _, _ => false

private theorem stamp_of_stranded {j : ℕ} (h : stranded s j = true) (now : Time) :
    (∃ t, advance manga s (.stamp j now) = some t) ∧ ¬ LosesNone manga s (.stamp j now) := by
  unfold stranded at h
  split at h
  · next follow row hwriter hfollow =>
    simp only [Bool.and_eq_true, beq_iff_eq, List.isEmpty_iff, Bool.not_eq_true',
      List.isEmpty_eq_false_iff_exists_mem] at h
    obtain ⟨⟨⟨⟨hid, hauto⟩, hjobs⟩, hfiles⟩, chapter, hfresh⟩ := h
    have hstamp : advance manga s (.stamp j now) =
        some ((s.markChecked follow.id now).setWriter j .idle) := by
      simp only [advance, hwriter]
    refine ⟨⟨_, hstamp⟩, fun hloses => ?_⟩
    rcases hloses _ hstamp follow row hwriter hfollow hid hauto chapter hfresh with
      ⟨r, hr, -⟩ | hfile
    · simp [Series.setWriter, Series.markChecked, hjobs] at hr
    · simp [Series.setWriter, Series.markChecked, hfiles] at hfile
  · cases h

/-- The check then finds nothing new, and is stamped. -/
theorem refreshedRun_loses_one : ¬ ∀ (manga : MangaId) (repos : List SourceRepoId)
    (chapters : ChapterTable) (files : List ChapterId) (es : List (Event 1)),
    Each (advance manga) (LosesNone manga) (.start repos chapters files) es := by
  intro h
  obtain ⟨t, ht, hstranded⟩ := @exists_exec _ _ (advance ⟨1⟩) unfollowed refreshedRun
    (fun t => stranded t 1) (by decide)
  obtain ⟨⟨u, hu⟩, hlost⟩ := stamp_of_stranded hstranded 3
  exact not_each_of_exec ht hu hlost (h _ _ _ _ (refreshedRun ++ [.stamp 1 3]))

end Engine
end Nyuka
