import Nyuka.Runtime.Refresh

/-! The `update_sources` handler, which refreshes the repositories one after another. -/
namespace Nyuka.UpdateSources
open Tables Table Persistence Nyuka.Runtime

/-- What one pass did. -/
structure UpdateReport where
  refreshed : ℕ
  failed : ℕ
deriving DecidableEq

/-- What happened to a repository, in the order it happened. -/
inductive Event where
  | attempted (repo : SourceRepoId)
  | replaced (repo : SourceRepoId)
  | stamped (repo : SourceRepoId)
deriving DecidableEq

structure World extends Catalogues where
  log : List Event

variable (up : Upstream) (faults : DbFaults) (clock : Statement → Time)

/-- One failing repository does not stop the others, but a stamp that fails does. -/
def refreshAll : List SourceRepo → UpdateReport → World → World × Except DomainError UpdateReport
  | [], report, w => (w, .ok report)
  | repo :: repos, report, w =>
    let log := w.log ++ [.attempted repo.id]
    match refreshRepo up faults clock repo.id w.toCatalogues with
    | (c, .error _) => refreshAll repos { report with failed := report.failed + 1 } ⟨c, log⟩
    | (c, .ok ()) =>
      let log := log ++ [.replaced repo.id]
      match markRepoRefreshed faults (clock (.stamp repo.id)) repo.id c.repos with
      | (rows, .error e) => (⟨{ c with repos := rows }, log⟩, .error e)
      | (rows, .ok ()) =>
        refreshAll repos { report with refreshed := report.refreshed + 1 }
          ⟨{ c with repos := rows }, log ++ [.stamped repo.id]⟩

/-- One pass over the repositories that the database lists. -/
def run (repos : List SourceRepo) (w : World) : World × Except DomainError UpdateReport :=
  match faults .listRepos with
  | some e => (w, .error e)
  | none => if repos.isEmpty then (w, .ok ⟨0, 0⟩) else refreshAll up faults clock repos ⟨0, 0⟩ w

/-- The job fails if no repository of some was refreshed. -/
def handle (repos : List SourceRepo) (w : World) : World × Except DomainError Unit :=
  match run up faults clock repos w with
  | (w, .error e) => (w, .error e)
  | (w, .ok report) =>
    if report.refreshed = 0 ∧ 0 < report.failed then
      (w, .error (.source s!"all {report.failed} source repositories failed to refresh" true))
    else (w, .ok ())

/-- What is true of a pass at any time, when it has attempted the repositories in `done`. -/
structure Progress (c : Catalogues) (done : List SourceRepoId) (w : World) : Prop where
  urls : ∀ id, (w.repos.rows.find? fun r => r.id == id).map SourceRepo.url =
    (c.repos.rows.find? fun r => r.id == id).map SourceRepo.url
  attempted : ∀ id, .attempted id ∈ w.log ↔ id ∈ done
  replaced : ∀ id, .replaced id ∈ w.log ↔ id ∈ done ∧ Refreshes up faults c.repos id
  stamped : ∀ id, .stamped id ∈ w.log → .replaced id ∈ w.log
  unstamped : ∀ id, .stamped id ∉ w.log →
    (w.repos.rows.find? fun r => r.id == id) = c.repos.rows.find? fun r => r.id == id
  old : ∀ id, .replaced id ∉ w.log → catalogue w.entries id = catalogue c.entries id
  new : ∀ id, .replaced id ∈ w.log → ∃ entries, published up faults c.repos id = .ok entries ∧
    (catalogue w.entries id).Perm (entries.map (ListedEntry.toRow id (clock (.beginTxn id))))

section Pass
variable {up faults clock} {c c' : Catalogues} {done : List SourceRepoId} {w : World}
  {id : SourceRepoId}

theorem Progress.init (c : Catalogues) : Progress up faults clock c [] ⟨c, []⟩ where
  urls _ := rfl
  attempted _ := by simp
  replaced _ := by simp
  stamped _ h := by simp at h
  unstamped _ _ := rfl
  old _ _ := rfl
  new _ h := by simp at h

theorem Progress.refreshes_iff (h : Progress up faults clock c done w) :
    Refreshes up faults w.repos id ↔ Refreshes up faults c.repos id := by
  rw [Refreshes, Refreshes, published_congr (h.urls id)]

/-- A repository whose refresh failed is attempted and nothing else. -/
theorem Progress.failed (h : Progress up faults clock c done w)
    (hfails : ¬ Refreshes up faults c.repos id) :
    Progress up faults clock c (done ++ [id]) ⟨w.toCatalogues, w.log ++ [.attempted id]⟩ where
  urls := h.urls
  attempted other := by
    simp only [List.mem_append, List.mem_singleton, h.attempted, Event.attempted.injEq]
  replaced other := by
    have hother : Refreshes up faults c.repos other → other ≠ id := by
      rintro hrefreshes rfl
      exact hfails hrefreshes
    simp only [List.mem_append, List.mem_singleton, h.replaced, reduceCtorEq, or_false]
    exact ⟨fun ⟨hdone, hr⟩ => ⟨.inl hdone, hr⟩,
      fun ⟨hdone, hr⟩ => ⟨hdone.resolve_right (hother hr), hr⟩⟩
  stamped other := by
    simpa only [List.mem_append, List.mem_singleton, reduceCtorEq, or_false] using h.stamped other
  unstamped other := by
    simpa only [List.mem_append, List.mem_singleton, reduceCtorEq, or_false] using h.unstamped other
  old other := by
    simpa only [List.mem_append, List.mem_singleton, reduceCtorEq, or_false] using h.old other
  new other := by
    simpa only [List.mem_append, List.mem_singleton, reduceCtorEq, or_false] using h.new other

/-- A repository whose refresh succeeded has its new catalogue, and the others have theirs. -/
theorem Progress.refreshed {entries : List ListedEntry} {t : CatalogueTable}
    (h : Progress up faults clock c done w)
    (hpublished : published up faults c.repos id = .ok entries)
    (hreplaces : Replaces faults id entries)
    (ht : ∀ other, catalogue t other = if other = id
      then (entries.map (ListedEntry.toRow id (clock (.beginTxn id)))).reverse
      else catalogue w.entries other) :
    Progress up faults clock c (done ++ [id])
      ⟨⟨w.repos, t⟩, w.log ++ [.attempted id] ++ [.replaced id]⟩ where
  urls := h.urls
  attempted other := by
    simp only [List.mem_append, List.mem_singleton, h.attempted, Event.attempted.injEq,
      reduceCtorEq, or_false]
  replaced other := by
    have hself : other = id → Refreshes up faults c.repos other := by
      rintro rfl
      exact ⟨entries, hpublished, hreplaces⟩
    simp only [List.mem_append, List.mem_singleton, h.replaced, Event.replaced.injEq, reduceCtorEq,
      or_false]
    constructor
    · rintro (⟨hdone, hr⟩ | hsame)
      · exact ⟨.inl hdone, hr⟩
      · exact ⟨.inr hsame, hself hsame⟩
    · rintro ⟨hdone | hsame, hr⟩
      · exact .inl ⟨hdone, hr⟩
      · exact .inr hsame
  stamped other hstamped := by
    simp only [List.mem_append, List.mem_singleton, reduceCtorEq, or_false] at hstamped
    exact List.mem_append_left _ (List.mem_append_left _ (h.stamped other hstamped))
  unstamped other := by
    simpa only [List.mem_append, List.mem_singleton, reduceCtorEq, or_false] using h.unstamped other
  old other hold := by
    simp only [List.mem_append, List.mem_singleton, Event.replaced.injEq, reduceCtorEq, or_false,
      not_or] at hold
    rw [ht, if_neg hold.2]
    exact h.old other hold.1
  new other hnew := by
    by_cases hsame : other = id
    · subst hsame
      exact ⟨entries, hpublished, by rw [ht, if_pos rfl]; exact List.reverse_perm _⟩
    · simp only [List.mem_append, List.mem_singleton, Event.replaced.injEq, hsame, reduceCtorEq,
        or_false] at hnew
      rw [ht, if_neg hsame]
      exact h.new other hnew

/-- A stamp changes the row of its repository only, and not its URL, or fails. -/
theorem markRepoRefreshed_cases (faults : DbFaults) (now : Time) (id : SourceRepoId)
    (repos : RepoTable) :
    (faults (.stamp id) = none ∧ ∃ rows, markRepoRefreshed faults now id repos = (rows, .ok ()) ∧
      ∀ other, (rows.rows.find? fun r => r.id == other) =
        (repos.rows.find? fun r => r.id == other).map fun r =>
          if other = id then { r with lastRefreshedAt := some now } else r) ∨
    (faults (.stamp id) ≠ none ∧
      ∃ e, markRepoRefreshed faults now id repos = (repos, .error e)) := by
  unfold markRepoRefreshed DbFaults.meet
  cases hstamp : faults (.stamp id) with
  | some e => exact .inr ⟨by simp, e, rfl⟩
  | none =>
    refine .inl ⟨rfl, _, rfl, fun other => ?_⟩
    have hkey : ((fun r : SourceRepo => r.id == other) ∘ fun r =>
        if r.id == id then { r with lastRefreshedAt := some now } else r) =
        fun r => r.id == other := by
      funext r
      simp only [Function.comp_apply]
      split <;> rfl
    rw [updateWhere, List.find?_map, hkey]
    refine Option.map_congr fun r hr => ?_
    obtain rfl : r.id = other := beq_iff_eq.mp
      (@List.find?_some _ (fun r : SourceRepo => r.id == other) _ _ hr)
    simp only [beq_iff_eq]

theorem Progress.stampedAt {now : Time} {rows : RepoTable} (h : Progress up faults clock c done w)
    (hreplaced : .replaced id ∈ w.log)
    (hrows : ∀ other, (rows.rows.find? fun r => r.id == other) =
      (w.repos.rows.find? fun r => r.id == other).map fun r =>
        if other = id then { r with lastRefreshedAt := some now } else r) :
    Progress up faults clock c done ⟨⟨rows, w.entries⟩, w.log ++ [.stamped id]⟩ where
  urls other := by
    rw [hrows, ← h.urls, Option.map_map]
    refine Option.map_congr fun r _ => ?_
    simp only [Function.comp_apply]
    split <;> rfl
  attempted other := by
    simp only [List.mem_append, List.mem_singleton, h.attempted, reduceCtorEq, or_false]
  replaced other := by
    simp only [List.mem_append, List.mem_singleton, h.replaced, reduceCtorEq, or_false]
  stamped other hstamped := by
    simp only [List.mem_append, List.mem_singleton, Event.stamped.injEq] at hstamped
    refine List.mem_append_left _ ?_
    rcases hstamped with hbefore | rfl
    · exact h.stamped other hbefore
    · exact hreplaced
  unstamped other hunstamped := by
    simp only [List.mem_append, List.mem_singleton, Event.stamped.injEq, not_or] at hunstamped
    simp only [hrows, hunstamped.2, ↓reduceIte, Option.map_id', h.unstamped other hunstamped.1]
  old other := by
    simpa only [List.mem_append, List.mem_singleton, reduceCtorEq, or_false] using h.old other
  new other := by
    simpa only [List.mem_append, List.mem_singleton, reduceCtorEq, or_false] using h.new other

/-- A pass goes on to its end, or to the first stamp that fails. -/
theorem refreshAll_cases (repos : List SourceRepo) (report : UpdateReport)
    (h : Progress up faults clock c done w) :
    (∃ w' report', refreshAll up faults clock repos report w = (w', .ok report') ∧
      Progress up faults clock c (done ++ repos.map SourceRepo.id) w' ∧
      (∀ repo ∈ repos, Refreshes up faults c.repos repo.id → faults (.stamp repo.id) = none) ∧
      (report'.refreshed = 0 ↔
        report.refreshed = 0 ∧ ∀ repo ∈ repos, ¬ Refreshes up faults c.repos repo.id) ∧
      report'.refreshed + report'.failed = report.refreshed + report.failed + repos.length) ∨
    ∃ w' e done', refreshAll up faults clock repos report w = (w', .error e) ∧
      Progress up faults clock c done' w' ∧
      ∃ repo ∈ repos, .replaced repo.id ∈ w'.log ∧ faults (.stamp repo.id) ≠ none := by
  induction repos generalizing report done w with
  | nil => exact .inl ⟨w, report, rfl, by simpa using h, by simp, by simp, rfl⟩
  | cons repo repos ih =>
    rcases refreshRepo_cases clock repo.id w.toCatalogues with
      ⟨entries, t, hpublished, hreplaces, hrefresh, ht⟩ | ⟨hfails, e, hrefresh⟩
    · rw [published_congr (h.urls repo.id)] at hpublished
      have hrefreshes : Refreshes up faults c.repos repo.id := ⟨entries, hpublished, hreplaces⟩
      have hprogress := h.refreshed hpublished hreplaces ht
      have hreplaced : .replaced repo.id ∈ w.log ++ [.attempted repo.id] ++ [.replaced repo.id] :=
        List.mem_append_right _ List.mem_cons_self
      rcases markRepoRefreshed_cases faults (clock (.stamp repo.id)) repo.id w.repos with
        ⟨hstamp, rows, hmark, hrows⟩ | ⟨hstamp, e, hmark⟩
      · rcases ih { report with refreshed := report.refreshed + 1 }
          (hprogress.stampedAt hreplaced hrows) with
          ⟨w', report', hloop, hend, hstamps, hcount, htotal⟩ |
          ⟨w', e, done', hloop, hend, repo', hmem, hbad⟩
        · refine .inl ⟨w', report', by simp only [refreshAll, hrefresh, hmark, hloop], ?_,
            List.forall_mem_cons.mpr ⟨fun _ => hstamp, hstamps⟩, ?_, ?_⟩
          · rwa [List.map_cons, List.append_cons]
          · rw [hcount]
            simp [hrefreshes]
          · simp only [htotal, List.length_cons]
            omega
        · exact .inr ⟨w', e, done', by simp only [refreshAll, hrefresh, hmark, hloop], hend, repo',
            List.mem_cons_of_mem _ hmem, hbad⟩
      · exact .inr ⟨_, e, _, by simp only [refreshAll, hrefresh, hmark], hprogress, repo,
          List.mem_cons_self, hreplaced, hstamp⟩
    · have hfails : ¬ Refreshes up faults c.repos repo.id :=
        fun hr => hfails (h.refreshes_iff.mpr hr)
      rcases ih { report with failed := report.failed + 1 } (h.failed hfails) with
        ⟨w', report', hloop, hend, hstamps, hcount, htotal⟩ |
        ⟨w', e, done', hloop, hend, repo', hmem, hbad⟩
      · refine .inl ⟨w', report', by simp only [refreshAll, hrefresh, hloop], ?_,
          List.forall_mem_cons.mpr ⟨fun hr => absurd hr hfails, hstamps⟩, ?_, ?_⟩
        · rwa [List.map_cons, List.append_cons]
        · rw [hcount]
          simp [hfails]
        · simp only [htotal, List.length_cons]
          omega
      · exact .inr ⟨w', e, done', by simp only [refreshAll, hrefresh, hloop], hend, repo',
          List.mem_cons_of_mem _ hmem, hbad⟩

end Pass

section Job
variable {up : Upstream} {faults : DbFaults} {clock : Statement → Time} {c : Catalogues}
  {repos : List SourceRepo}

/-- What a pass from `c` to `w` keeps of the catalogues, however it ended: each of them is the old
one or the complete new one, and only a repository whose catalogue was replaced is stamped. -/
structure Whole (up : Upstream) (faults : DbFaults) (clock : Statement → Time) (c : Catalogues)
    (w : World) : Prop where
  catalogue : ∀ id, catalogue w.entries id = catalogue c.entries id ∨
    ∃ entries, published up faults c.repos id = .ok entries ∧
      (catalogue w.entries id).Perm (entries.map (ListedEntry.toRow id (clock (.beginTxn id))))
  stamped : ∀ id, .stamped id ∈ w.log → .replaced id ∈ w.log
  unstamped : ∀ id, .stamped id ∉ w.log →
    (w.repos.rows.find? fun r => r.id == id) = c.repos.rows.find? fun r => r.id == id
  replaced : ∀ id, .replaced id ∈ w.log → ∃ entries, published up faults c.repos id = .ok entries ∧
    (Persistence.catalogue w.entries id).Perm
      (entries.map (ListedEntry.toRow id (clock (.beginTxn id))))

/-- A pass attempted every repository, and its job failed just when there were some and none was
refreshed. -/
structure Isolated (repos : List SourceRepo) (w : World) (r : Except DomainError Unit) : Prop where
  attempted : ∀ repo ∈ repos, .attempted repo.id ∈ w.log
  failure : (∃ e, r = .error e) ↔ repos ≠ [] ∧ ∀ id, .replaced id ∉ w.log

theorem Progress.whole {done : List SourceRepoId} {w : World}
    (h : Progress up faults clock c done w) : Whole up faults clock c w where
  catalogue id := by
    by_cases hreplaced : .replaced id ∈ w.log
    · exact .inr (h.new id hreplaced)
    · exact .inl (h.old id hreplaced)
  stamped := h.stamped
  unstamped := h.unstamped
  replaced := h.new

/-- However a pass ends, no catalogue is mixed and no stamp is wrong. All repositories are
attempted, and the job's result is right, if the repositories can be listed and every repository
that can be refreshed can be stamped, and in no other case. -/
theorem update_isolated_iff (up : Upstream) (faults : DbFaults) (clock : Statement → Time)
    (c : Catalogues) (repos : List SourceRepo) :
    Whole up faults clock c (handle up faults clock repos ⟨c, []⟩).1 ∧
    (Isolated repos (handle up faults clock repos ⟨c, []⟩).1
        (handle up faults clock repos ⟨c, []⟩).2 ↔
      faults .listRepos = none ∧ ∀ repo ∈ repos, Refreshes up faults c.repos repo.id →
        faults (.stamp repo.id) = none) := by
  have hinit : Progress up faults clock c [] ⟨c, []⟩ := .init c
  cases hlist : faults .listRepos with
  | some e =>
    have hhandle : handle up faults clock repos ⟨c, []⟩ = (⟨c, []⟩, .error e) := by
      simp only [handle, run, hlist]
    rw [hhandle]
    refine ⟨hinit.whole, fun h => ?_, fun h => by cases h.1⟩
    obtain ⟨hsome, -⟩ := h.failure.mp ⟨e, rfl⟩
    obtain ⟨repo, hrepo⟩ := List.exists_mem_of_ne_nil repos hsome
    cases h.attempted repo hrepo
  | none =>
    rw [and_iff_right rfl]
    rcases eq_or_ne repos [] with rfl | hsome
    · have hhandle : handle up faults clock [] ⟨c, []⟩ = (⟨c, []⟩, .ok ()) := by
        simp [handle, run, hlist]
      rw [hhandle]
      exact ⟨hinit.whole, fun _ => by simp, fun _ => ⟨by simp, by simp⟩⟩
    · have hrun : run up faults clock repos ⟨c, []⟩ =
          refreshAll up faults clock repos ⟨0, 0⟩ ⟨c, []⟩ := by
        simp [run, hlist, hsome]
      rcases refreshAll_cases repos ⟨0, 0⟩ hinit with
        ⟨w, report, hloop, hend, hstamps, hcount, htotal⟩ |
        ⟨w, e, done, hloop, hend, repo, hmem, hreplaced, hstamp⟩
      · rw [List.nil_append] at hend
        have hnone : report.refreshed = 0 ↔ ∀ id, .replaced id ∉ w.log := by
          rw [hcount, and_iff_right rfl]
          simp only [hend.replaced, List.mem_map, not_and]
          exact ⟨fun h id ⟨repo, hrepo, hid⟩ => hid ▸ h repo hrepo,
            fun h repo hrepo => h repo.id ⟨repo, hrepo, rfl⟩⟩
        have hworld : (handle up faults clock repos ⟨c, []⟩).1 = w := by
          simp only [handle, hrun, hloop]
          split <;> rfl
        have hresult : (∃ e, (handle up faults clock repos ⟨c, []⟩).2 = .error e) ↔
            report.refreshed = 0 := by
          have hlength := List.length_pos_iff.mpr hsome
          simp only [handle, hrun, hloop]
          split
          · next hfailed => exact iff_of_true ⟨_, rfl⟩ hfailed.1
          · next hsucceeded =>
            refine iff_of_false (fun ⟨e, he⟩ => by cases he) fun hzero => hsucceeded ⟨hzero, ?_⟩
            simp only at htotal
            omega
        rw [hworld]
        refine ⟨hend.whole, fun _ => hstamps, fun _ => ⟨fun repo hrepo => ?_, ?_⟩⟩
        · exact (hend.attempted repo.id).mpr (List.mem_map_of_mem hrepo)
        · rw [hresult, hnone, and_iff_right hsome]
      · have hhandle : handle up faults clock repos ⟨c, []⟩ = (w, .error e) := by
          simp only [handle, hrun, hloop]
        rw [hhandle]
        refine ⟨hend.whole, fun h => ?_, fun h => ?_⟩
        · exact absurd hreplaced ((h.failure.mp ⟨e, rfl⟩).2 repo.id)
        · exact absurd (h repo hmem ((hend.replaced repo.id).mp hreplaced).2) hstamp

end Job

/-- Every repository publishes an empty index. -/
def emptyIndexes : Upstream where
  send _ := .ok ⟨200, "200 OK", none, .ok []⟩
  readIndex _ := .ok []
  parseUrl _ := .ok ()
  join _ entry := .ok entry

def firstRepo : SourceRepo := ⟨⟨1⟩, "first", "https://example.test/1.json", none, 0⟩
def secondRepo : SourceRepo := ⟨⟨2⟩, "second", "https://example.test/2.json", none, 0⟩

def twoRepos : Catalogues where
  repos := (Table.empty.insert firstRepo (by simp [Table.Free])).insert secondRepo (by decide)
  entries := .empty

/-- The connection is lost when the first repository is stamped. -/
def lostStamp : DbFaults := fun statement =>
  if statement = .stamp firstRepo.id then some (.storage "connection lost") else none

/-- After a stamp that fails the other repositories are not attempted, and the job fails. -/
theorem lostStamp_stops : ¬ ∀ up faults clock c repos,
    Whole up faults clock c (handle up faults clock repos ⟨c, []⟩).1 ∧
      Isolated repos (handle up faults clock repos ⟨c, []⟩).1
        (handle up faults clock repos ⟨c, []⟩).2 := by
  intro h
  have hattempted := (h emptyIndexes lostStamp (fun _ => 0) twoRepos
    [firstRepo, secondRepo]).2.attempted secondRepo (by simp)
  exact absurd hattempted (by decide)

end Nyuka.UpdateSources
