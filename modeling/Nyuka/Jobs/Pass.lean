import Mathlib.Logic.Function.Basic
import Nyuka.Foundation.Runs
import Nyuka.Jobs.Reconcile
import Nyuka.Packaging.Store

/-! The `reconcile_library` pass among download jobs. The pass reads a chapter's record, looks
for the file and deletes the records of a whole page later, each in a step of its own; between
two of its steps downloads place files and record them, and the volume may change or fail. -/
namespace Nyuka
namespace Jobs
open Tables Table Persistence Packaging Runs

/-- How far the pass is. `left` are the chapters of the page still to be looked at. -/
inductive Pass where
  | idle
  | paging
  | scanning (left missing : List ChapterId)
  | probing (chapter : ChapterId) (download : DownloadedChapter) (left missing : List ChapterId)

namespace Pass

/-- The chapters whose records the pass will delete. -/
def missing : Pass → List ChapterId
  | scanning _ missing => missing
  | probing _ _ _ missing => missing
  | _ => []

/-- The chapters of whose records the pass relies on what it has read. -/
def suspects : Pass → List ChapterId
  | scanning _ missing => missing
  | probing chapter _ _ missing => chapter :: missing
  | _ => []

end Pass

/-- How far a download job is. -/
inductive Download where
  | idle
  | reading (chapter : ChapterId)
  | looking (chapter : ChapterId) (existing : DownloadedChapter)
  | fetching (chapter : ChapterId)
  | placed (download : DownloadedChapter)

structure Shelf where
  downloads : DownloadTable
  /-- Whether there is a file at a path below the library root. -/
  present : String → Bool
  pass : Pass
  jobs : ℕ → Download

inductive Move where
  /-- The pass begins; `readable` is the answer of the library root. -/
  | begin (readable : Bool)
  | list (page : List ChapterId)
  | read
  | probe (resolved : Except PathError Unit) (stat : Stat)
  | forget
  /-- A statement of the pass fails, and with it the job. -/
  | abort
  | finish
  | start (j : ℕ) (chapter : ChapterId)
  | readRecord (j : ℕ)
  | lookUp (j : ℕ) (resolved : Except PathError Unit) (stat : Stat)
  | place (j : ℕ) (relativePath : String) (sizeBytes : ℕ) (checksum : String) (packagedAt : Time)
  | record (j : ℕ)
  | fail (j : ℕ)
  /-- A file comes or goes without the server. -/
  | appear (path : String)
  | vanish (path : String)

namespace Shelf

/-- No pass and no download runs yet. -/
def start (downloads : DownloadTable) (present : String → Bool) : Shelf where
  downloads := downloads
  present := present
  pass := .idle
  jobs _ := .idle

/-- An answer that a lookup may give: it may fail, but it does not lie. -/
def answers (s : Shelf) (path : String) : Stat → Bool
  | .found => s.present path
  | .notFound => !s.present path
  | .failed => true

def setPresent (s : Shelf) (path : String) (there : Bool) : Shelf :=
  { s with present := Function.update s.present path there }

def setJob (s : Shelf) (j : ℕ) (job : Download) : Shelf :=
  { s with jobs := Function.update s.jobs j job }

end Shelf

def move (s : Shelf) : Move → Option Shelf
  | .begin readable =>
    match s.pass with
    | .idle => some { s with pass := if readable then .paging else .idle }
    | _ => none
  | .list page =>
    match s.pass with
    | .paging => some { s with pass := .scanning page [] }
    | _ => none
  | .read =>
    match s.pass with
    | .scanning (chapter :: left) missing =>
      match s.downloads.get chapter with
      | none => some { s with pass := .scanning left missing }
      | some download => some { s with pass := .probing chapter download left missing }
    | _ => none
  | .probe resolved stat =>
    match s.pass with
    | .probing chapter download left missing =>
      if s.answers download.relativePath stat then
        match storeExists resolved stat with
        | .ok true => some { s with pass := .scanning left missing }
        | .ok false => some { s with pass := .scanning left (missing ++ [chapter]) }
        | .error _ => some { s with pass := .idle }
      else none
    | _ => none
  | .forget =>
    match s.pass with
    | .scanning [] missing =>
      some { s with downloads := (forgetDownloads s.downloads missing).1, pass := .paging }
    | _ => none
  | .abort => some { s with pass := .idle }
  | .finish =>
    match s.pass with
    | .paging => some { s with pass := .idle }
    | _ => none
  | .start j chapter =>
    match s.jobs j with
    | .idle => some (s.setJob j (.reading chapter))
    | _ => none
  | .readRecord j =>
    match s.jobs j with
    | .reading chapter =>
      match s.downloads.get chapter with
      | none => some (s.setJob j (.fetching chapter))
      | some existing => some (s.setJob j (.looking chapter existing))
    | _ => none
  | .lookUp j resolved stat =>
    match s.jobs j with
    | .looking chapter existing =>
      if s.answers existing.relativePath stat then
        match storeExists resolved stat with
        | .ok true => some (s.setJob j .idle)
        | .ok false => some (s.setJob j (.fetching chapter))
        | .error _ => some (s.setJob j .idle)
      else none
    | _ => none
  | .place j relativePath sizeBytes checksum packagedAt =>
    match s.jobs j with
    | .fetching chapter =>
      some ((s.setPresent relativePath true).setJob j
        (.placed ⟨chapter, relativePath, sizeBytes, checksum, packagedAt⟩))
    | _ => none
  | .record j =>
    match s.jobs j with
    | .placed download =>
      some ({ s with downloads := s.downloads.upsert download }.setJob j .idle)
    | _ => none
  | .fail j => some (s.setJob j .idle)
  | .appear path => some (s.setPresent path true)
  | .vanish path => some (s.setPresent path false)

/-- The step deletes a record only if there is no file at the path the record holds. -/
def OnlyAbsent (s : Shelf) (a : Move) : Prop :=
  ∀ t, move s a = some t → ∀ d ∈ s.downloads.rows, t.downloads.get d.chapterId = none →
    s.present d.relativePath = false

/-- The step does not get in the pass's way: a lookup of the pass does not fail where there is a
file, no download of a chapter the pass has its eye on is recorded, and no file appears at the
path in a record that the pass will delete. -/
def Undisturbed (s : Shelf) : Move → Prop
  | .probe _ stat => ∀ chapter download left missing,
      s.pass = .probing chapter download left missing → stat = .failed →
      s.present download.relativePath = false
  | .record j => ∀ download, s.jobs j = .placed download → download.chapterId ∉ s.pass.suspects
  | .place _ path _ _ _ => ∀ d ∈ s.downloads.rows, d.chapterId ∈ s.pass.missing →
      d.relativePath ≠ path
  | .appear path => ∀ d ∈ s.downloads.rows, d.chapterId ∈ s.pass.missing → d.relativePath ≠ path
  | _ => True

/-- What the pass has read and found missing is still so. -/
structure Current (s : Shelf) : Prop where
  absent : ∀ d ∈ s.downloads.rows, d.chapterId ∈ s.pass.missing →
    s.present d.relativePath = false
  read : ∀ chapter download left missing, s.pass = .probing chapter download left missing →
    ∀ d ∈ s.downloads.rows, d.chapterId = chapter → d = download

variable {s t : Shelf} {a : Move}

theorem Current.of_idle (hpass : t.pass.missing = []) (hidle : ∀ chapter download left missing,
    t.pass ≠ .probing chapter download left missing) : Current t where
  absent := by simp [hpass]
  read chapter download left missing h := absurd h (hidle chapter download left missing)

/-- A step that leaves the pass, the records and the files of its missing chapters alone. -/
theorem Current.of_kept (hc : Current s) (hpass : t.pass = s.pass)
    (hdownloads : t.downloads = s.downloads)
    (hpresent : ∀ d ∈ s.downloads.rows, d.chapterId ∈ s.pass.missing →
      t.present d.relativePath = s.present d.relativePath ∨ t.present d.relativePath = false) :
    Current t where
  absent d hd hmissing := by
    rw [hdownloads] at hd
    rw [hpass] at hmissing
    rcases hpresent d hd hmissing with h | h
    · rw [h, hc.absent d hd hmissing]
    · exact h
  read chapter download left missing h d hd := by
    rw [hdownloads] at hd
    exact hc.read chapter download left missing (hpass ▸ h) d hd

theorem current_read (hc : Current s) (h : move s .read = some t) : Current t := by
  simp only [move] at h
  split at h
  · next chapter left missing hpass =>
    have habsent := hc.absent
    simp only [hpass, Pass.missing] at habsent
    split at h
    · cases h
      exact ⟨habsent, by rintro _ _ _ _ ⟨⟩⟩
    · next download hrow =>
      cases h
      obtain ⟨hmem, hid⟩ := get_eq_some_iff.mp hrow
      refine ⟨habsent, ?_⟩
      rintro chapter' download' left' missing' hprobing d hd hd'
      cases hprobing
      exact key_inj hd hmem (hd'.trans hid.symm)
  · cases h

theorem current_probe {resolved : Except PathError Unit} {stat : Stat} (hc : Current s)
    (hcond : Undisturbed s (.probe resolved stat)) (h : move s (.probe resolved stat) = some t) :
    Current t := by
  simp only [move] at h
  split at h
  · next chapter download left missing hpass =>
    have habsent := hc.absent
    simp only [hpass, Pass.missing] at habsent
    split at h
    · next hanswer =>
      split at h
      · cases h
        exact ⟨habsent, by rintro _ _ _ _ ⟨⟩⟩
      · next hexists =>
        cases h
        have hgone : s.present download.relativePath = false := by
          cases stat with
          | found =>
            cases resolved <;>
              simp [storeExists, pathExists, Except.mapError, bind, Except.bind, pure, Except.pure]
                at hexists
          | notFound => simpa [Shelf.answers] using hanswer
          | failed => exact hcond chapter download left missing hpass rfl
        refine ⟨fun d hd hmissing => ?_, by rintro _ _ _ _ ⟨⟩⟩
        rcases List.mem_append.mp hmissing with hmissing | hmissing
        · exact habsent d hd hmissing
        · rw [hc.read chapter download left missing hpass d hd (List.mem_singleton.mp hmissing)]
          exact hgone
      · cases h
        exact .of_idle rfl (by rintro _ _ _ _ ⟨⟩)
    · cases h
  · cases h

theorem current_record {j : ℕ} (hc : Current s) (hcond : Undisturbed s (.record j))
    (h : move s (.record j) = some t) : Current t := by
  simp only [move] at h
  split at h
  · next download hjob =>
    cases h
    have hsafe := hcond download hjob
    have hother : ∀ d ∈ (s.downloads.upsert download).rows, d.chapterId ∈ s.pass.suspects →
        d ∈ s.downloads.rows := by
      intro d hd hsuspect
      rcases mem_upsert.mp hd with rfl | ⟨hd, -⟩
      · exact absurd hsuspect hsafe
      · exact hd
    refine ⟨fun d hd hmissing => ?_, fun chapter download' left missing hpass d hd hid => ?_⟩
    · have hsuspect : d.chapterId ∈ s.pass.suspects := by
        simp only [Shelf.setJob] at hmissing
        cases hpass : s.pass <;> simp_all [Pass.missing, Pass.suspects]
      exact hc.absent d (hother d hd hsuspect) hmissing
    · have hpass' : s.pass = .probing chapter download' left missing := hpass
      have hsuspect : d.chapterId ∈ s.pass.suspects := by
        rw [hpass', hid]
        exact List.mem_cons_self
      exact hc.read chapter download' left missing hpass' d (hother d hd hsuspect) hid
  · cases h

theorem current_move (hc : Current s) (hcond : Undisturbed s a) (h : move s a = some t) :
    Current t := by
  cases a with
  | begin readable =>
    simp only [move] at h
    split at h
    · cases h
      cases readable <;> exact .of_idle rfl (by rintro _ _ _ _ ⟨⟩)
    · cases h
  | list page =>
    simp only [move] at h
    split at h
    · cases h
      exact .of_idle rfl (by rintro _ _ _ _ ⟨⟩)
    · cases h
  | read => exact current_read hc h
  | probe resolved stat => exact current_probe hc hcond h
  | forget =>
    simp only [move] at h
    split at h
    · cases h
      exact .of_idle rfl (by rintro _ _ _ _ ⟨⟩)
    · cases h
  | abort =>
    cases h
    exact .of_idle rfl (by rintro _ _ _ _ ⟨⟩)
  | finish =>
    simp only [move] at h
    split at h
    · cases h
      exact .of_idle rfl (by rintro _ _ _ _ ⟨⟩)
    · cases h
  | start j chapter =>
    simp only [move] at h
    split at h
    · cases h
      exact hc.of_kept rfl rfl fun _ _ _ => .inl rfl
    · cases h
  | readRecord j =>
    simp only [move] at h
    split at h
    · split at h <;> cases h <;> exact hc.of_kept rfl rfl fun _ _ _ => .inl rfl
    · cases h
  | lookUp j resolved stat =>
    simp only [move] at h
    split at h
    · split at h
      · split at h <;> cases h <;> exact hc.of_kept rfl rfl fun _ _ _ => .inl rfl
      · cases h
    · cases h
  | place j path sizeBytes checksum packagedAt =>
    simp only [move] at h
    split at h
    · cases h
      refine hc.of_kept rfl rfl fun d hd hmissing => .inl ?_
      exact Function.update_of_ne (hcond d hd hmissing) _ _
    · cases h
  | record j => exact current_record hc hcond h
  | fail j =>
    cases h
    exact hc.of_kept rfl rfl fun _ _ _ => .inl rfl
  | appear path =>
    cases h
    refine hc.of_kept rfl rfl fun d hd hmissing => .inl ?_
    exact Function.update_of_ne (hcond d hd hmissing) _ _
  | vanish path =>
    cases h
    refine hc.of_kept rfl rfl fun d hd hmissing => ?_
    by_cases hsame : d.relativePath = path
    · exact .inr (by rw [hsame]; exact Function.update_self _ _ _)
    · exact .inl (Function.update_of_ne hsame _ _)

/-- What becomes of the records in a step. -/
theorem move_downloads (h : move s a = some t) : t.downloads = s.downloads ∨
    (∃ missing, s.pass = .scanning [] missing ∧
      t.downloads = (forgetDownloads s.downloads missing).1) ∨
    ∃ download, t.downloads = s.downloads.upsert download := by
  cases a with
  | forget =>
    simp only [move] at h
    split at h
    · next missing hpass =>
      cases h
      exact .inr (.inl ⟨missing, hpass, rfl⟩)
    · cases h
  | record j =>
    simp only [move] at h
    split at h
    · next download _ =>
      cases h
      exact .inr (.inr ⟨download, rfl⟩)
    · cases h
  | _ =>
    left
    simp only [move] at h
    repeat' split at h
    all_goals first | contradiction | (cases h; rfl)

theorem onlyAbsent_of_current (hc : Current s) : OnlyAbsent s a := by
  intro t h d hd hgone
  have hstays : d ∉ t.downloads.rows := fun hmem => get_eq_none_iff.mp hgone d hmem rfl
  rcases move_downloads h with hsame | ⟨missing, hpass, hforgot⟩ | ⟨download, hrecorded⟩
  · exact absurd (hsame ▸ hd) hstays
  · refine hc.absent d hd ?_
    rw [hpass]
    by_contra hkept
    refine hstays ?_
    rw [hforgot]
    exact mem_deleteWhere.mpr ⟨hd, by simpa [Pass.missing] using hkept⟩
  · rw [hrecorded, get_upsert] at hgone
    split at hgone
    · cases hgone
    · exact absurd rfl (get_eq_none_iff.mp hgone d hd)

/-- In a run that nothing gets in the way of, a record is deleted only if its file is absent. -/
theorem reconcile_forgets_absent {downloads : DownloadTable} {present : String → Bool}
    {as : List Move} (hrun : Each move Undisturbed (.start downloads present) as) :
    Each move OnlyAbsent (.start downloads present) as := by
  have hcurrent : Always move Current (.start downloads present) as :=
    .of_each (fun s a t hc hcond h => current_move hc hcond h)
      (.of_idle rfl (by rintro _ _ _ _ ⟨⟩)) hrun
  exact Each.of_always (I := Current) (fun s a t hc _ _ => onlyAbsent_of_current hc) hcurrent hrun

def firstChapter : DownloadedChapter := ⟨⟨1⟩, "Series/Series c001.cbz", 3, "c", 0⟩

/-- A chapter that is recorded, and whose file is gone. -/
def lostFile : Shelf := .start (Table.empty.upsert firstChapter) fun _ => false

/-- The pass drops the record, while another chapter is downloaded and a file that nobody asked for
appears. -/
def quietRun : List Move :=
  [.begin true, .list [⟨1⟩, ⟨2⟩], .start 0 ⟨2⟩, .read, .readRecord 0, .probe (.ok ()) .notFound,
    .place 0 "Series/Series c002.cbz" 5 "d" 1, .read, .appear "Series/cover.jpg", .record 0,
    .forget,
    .list [], .forget, .finish]

/-- A test that a move does not get in the pass's way. -/
def handsOff (s : Shelf) : Move → Bool
  | .probe _ stat => stat ≠ .failed
  | .record j => match s.jobs j with
    | .placed download => !s.pass.suspects.contains download.chapterId
    | _ => true
  | .place _ path _ _ _ | .appear path => s.downloads.rows.all fun d => d.relativePath ≠ path
  | _ => true

private theorem undisturbed_of_handsOff (h : handsOff s a = true) : Undisturbed s a := by
  cases a with
  | probe resolved stat =>
    rintro chapter download left missing - rfl
    cases h
  | record j =>
    intro download hplaced
    simpa [handsOff, hplaced] using h
  | place j path sizeBytes checksum packagedAt =>
    intro d hd _
    simpa using List.all_eq_true.mp h d hd
  | appear path =>
    intro d hd _
    simpa using List.all_eq_true.mp h d hd
  | _ => trivial

theorem quietRun_forgets_absent : Each move OnlyAbsent lostFile quietRun ∧
    ∃ t, exec move lostFile quietRun = some t ∧
      t.downloads.rows.map DownloadedChapter.chapterId = [⟨2⟩] := by
  obtain ⟨t, ht, htest⟩ := @exists_exec _ _ move lostFile quietRun
    (fun t => t.downloads.rows.map DownloadedChapter.chapterId == [⟨2⟩]) (by decide)
  exact ⟨reconcile_forgets_absent (Each.of_check (fun _ _ => undisturbed_of_handsOff)
    (by decide : check move handsOff lostFile quietRun = true)), t, ht, beq_iff_eq.mp htest⟩

/-- The pass has found the file missing when a download puts it back and records it. -/
def redownloadRun : List Move :=
  [.begin true, .list [⟨1⟩], .read, .probe (.ok ()) .notFound,
    .start 0 ⟨1⟩, .readRecord 0, .lookUp 0 (.ok ()) .notFound,
    .place 0 "Series/Series c001.cbz" 3 "c" 1, .record 0]

/-- The pass then deletes the new record. -/
theorem redownloadRun_forgets_present : ¬ ∀ (downloads : DownloadTable) (present : String → Bool)
    (as : List Move), Each move OnlyAbsent (.start downloads present) as := by
  intro h
  obtain ⟨t, ht, htest⟩ := @exists_exec _ _ move lostFile redownloadRun
    (fun t => t.downloads.rows.any fun d => t.present d.relativePath &&
      (move t .forget).any fun u => (u.downloads.get d.chapterId).isNone) (by decide)
  obtain ⟨d, hd, htest⟩ := List.any_eq_true.mp htest
  obtain ⟨hpresent, hgone⟩ := Bool.and_eq_true_iff.mp htest
  obtain ⟨u, hu, hnone⟩ := (Option.any_eq_true _ _).mp hgone
  refine not_each_of_exec ht hu (fun honly => ?_) (h _ _ (redownloadRun ++ [.forget]))
  have habsent := honly u hu d hd (Option.isNone_iff_eq_none.mp hnone)
  rw [hpresent] at habsent
  cases habsent

end Jobs
end Nyuka
