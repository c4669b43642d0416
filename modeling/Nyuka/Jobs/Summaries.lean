import Nyuka.Foundation.Paging
import Nyuka.Foundation.Results
import Nyuka.Jobs.Queue
import Nyuka.Persistence.Schema

/-! The job list and the view of one job, each with what the job is about. -/
namespace Nyuka
namespace Queue
open Tables Table Paging Persistence

/-- A chapter with its title. -/
structure TitledChapter extends ChapterRow where
  title : Option String
deriving DecidableEq, Repr

/-- The tables that the summaries are read from. -/
structure SummaryTables where
  jobs : JobTable
  chapters : Table (keyedByTwo (fun c : TitledChapter => c.id)
    fun c : TitledChapter => (c.mangaId, c.externalKey))
  mangas : MangaTable

structure JobSubject where
  mangaId : MangaId
  mangaTitle : String
  chapterId : ChapterId
  chapterNumber : Option Binary32
  chapterTitle : Option String
deriving DecidableEq, Repr

structure JobSummary where
  job : Job
  subject : Option JobSubject

/-- `SELECT * FROM job WHERE state = $1 ORDER BY created_at DESC LIMIT $2` -/
def selectJobs (jobs : JobTable) (state : Option JobState) (limit : ℕ) : List JobRow :=
  let rows := match state with
    | some state => jobs.rows.filter fun row => decide (row.state = state)
    | none => jobs.rows
  (orderBy (fun row => -row.createdAt) rows).take limit

def list (jobs : JobTable) (state : Option JobState) (limit : ℕ) : Except DomainError (List Job) :=
  (selectJobs jobs state limit).mapM rowToJob

/-- The chapter id of a payload, parsed, not trusted. -/
def chapterId (payload : JsonValue) : Option Uuid :=
  ((payload.get "chapter_id").bind JsonValue.asStr).bind Uuid.parse

/-- The rows of `chapter c JOIN manga m ON m.id = c.manga_id`. -/
def joined (db : SummaryTables) : List JobSubject :=
  db.chapters.rows.flatMap fun c => (db.mangas.rows.filter fun m => m.id == c.mangaId).map fun m =>
    { mangaId := m.id, mangaTitle := m.title, chapterId := c.id, chapterNumber := c.number
      chapterTitle := c.title }

/-- The subjects of the chapters, by their ids. What is put into the map later is found first. -/
def subjectsFor (db : SummaryTables) (chapterIds : List Uuid) : List (Uuid × JobSubject) :=
  if chapterIds = [] then []
  else ((joined db).filter fun s => decide (s.chapterId.uuid ∈ chapterIds)).foldl
    (fun map s => (s.chapterId.uuid, s) :: map) []

def listSummaries (db : SummaryTables) (state : Option JobState) (limit : ℕ) :
    Except DomainError (List JobSummary) := do
  let jobs ← list db.jobs state limit
  let wanted := (jobs.filter fun j => decide (j.kind = .downloadChapter)).filterMap fun j =>
    chapterId j.payload
  let subjects := subjectsFor db wanted
  return jobs.map fun job =>
    { job := job, subject := (chapterId job.payload).bind fun id => subjects.lookup id }

def summary (db : SummaryTables) (id : JobId) : Except DomainError JobSummary := do
  let job ← get db.jobs id
  let wanted := if job.kind = .downloadChapter then (chapterId job.payload).toList else []
  let subjects := subjectsFor db wanted
  return { job := job, subject := wanted.head?.bind fun id => subjects.lookup id }

/-- The subject of a chapter id. -/
def subjectOf (db : SummaryTables) (id : Uuid) : Option JobSubject :=
  (joined db).reverse.find? fun s => decide (s.chapterId.uuid = id)

section Subjects
variable {db : SummaryTables}

private theorem lookup_foldl (subjects : List JobSubject) (map : List (Uuid × JobSubject))
    (id : Uuid) :
    (subjects.foldl (fun map s => (s.chapterId.uuid, s) :: map) map).lookup id =
      (subjects.reverse.find? fun s => decide (s.chapterId.uuid = id)).or (map.lookup id) := by
  induction subjects generalizing map with
  | nil => simp
  | cons s subjects ih =>
    rw [List.foldl_cons, ih, List.reverse_cons, List.find?_append, Option.or_assoc]
    congr 1
    by_cases h : s.chapterId.uuid = id
    · simp [h]
    · have hne : (id == s.chapterId.uuid) = false := beq_eq_false_iff_ne.mpr fun heq => h heq.symm
      simp only [List.lookup_cons, hne, List.find?_cons, h, decide_false, List.find?_nil,
        Option.none_or]

/-- The map has the subjects of the ids it was made for. -/
theorem lookup_subjectsFor (db : SummaryTables) (ids : List Uuid) (id : Uuid) :
    (subjectsFor db ids).lookup id = if id ∈ ids then subjectOf db id else none := by
  unfold subjectsFor
  split
  · next hnil => simp [hnil]
  · rw [lookup_foldl, List.lookup_nil, Option.or_none, ← List.filter_reverse, List.find?_filter,
      subjectOf]
    split
    · next hmem =>
      congr 1
      funext s
      by_cases h : s.chapterId.uuid = id
      · simp [h, hmem]
      · simp [h]
    · next hmem =>
      rw [List.find?_eq_none]
      intro s _
      simp only [decide_eq_true_eq, not_and]
      rintro hs rfl
      exact hmem hs

/-- An id has no subject if no chapter has it, or the chapter's series is gone. -/
theorem subjectOf_eq_none_iff {id : Uuid} : subjectOf db id = none ↔
    ∀ c ∈ db.chapters.rows, c.id.uuid = id → ∀ m ∈ db.mangas.rows, m.id ≠ c.mangaId := by
  simp only [subjectOf, List.find?_eq_none, List.mem_reverse, joined, List.mem_flatMap,
    List.mem_map, List.mem_filter, beq_iff_eq, decide_eq_true_eq]
  constructor
  · rintro h c hc hid m hm hmanga
    exact h _ ⟨c, hc, m, ⟨hm, hmanga⟩, rfl⟩ hid
  · rintro h s ⟨c, hc, m, ⟨hm, hmanga⟩, rfl⟩ hid
    exact h c hc hid m hm hmanga

end Subjects

section Entries
variable {db : SummaryTables} {state : Option JobState} {limit : ℕ} {jobs : List Job}

/-- The ids that the list looks up. -/
def wanted (jobs : List Job) : List Uuid :=
  (jobs.filter fun j => decide (j.kind = .downloadChapter)).filterMap fun j => chapterId j.payload

theorem mem_wanted_iff {id : Uuid} : id ∈ wanted jobs ↔
    ∃ job ∈ jobs, job.kind = .downloadChapter ∧ chapterId job.payload = some id := by
  simp [wanted, and_assoc]

/-- The entry of a job in a list that looks up these ids. -/
def entry (db : SummaryTables) (wanted : List Uuid) (job : Job) : JobSummary where
  job := job
  subject := (chapterId job.payload).bind fun id => if id ∈ wanted then subjectOf db id else none

theorem listSummaries_eq_ok {items : List JobSummary} :
    listSummaries db state limit = .ok items ↔
      ∃ jobs, list db.jobs state limit = .ok jobs ∧ items = jobs.map (entry db (wanted jobs)) := by
  have hentry : ∀ (ids : List Uuid) (job : Job), (⟨job, (chapterId job.payload).bind fun id =>
      (subjectsFor db ids).lookup id⟩ : JobSummary) = entry db ids job := fun ids job => by
    simp only [lookup_subjectsFor, entry]
  simp only [listSummaries, hentry, Results.bind_eq_ok, Results.pure_eq_ok, eq_comm (a := items)]
  rfl

/-- A job's view looks up the job's own id, for a download. -/
theorem summary_eq_of_get {id : JobId} {job : Job} (h : get db.jobs id = .ok job) :
    summary db id = .ok ⟨job, if job.kind = .downloadChapter then
      (chapterId job.payload).bind (subjectOf db) else none⟩ := by
  simp only [summary, h, bind, Except.bind, pure, Except.pure, Except.ok.injEq, JobSummary.mk.injEq,
    true_and]
  split
  · cases hid : chapterId job.payload with
    | none => rfl
    | some id => simp [lookup_subjectsFor]
  · rfl

theorem rowToJob_eq_ok {row : JobRow} {job : Job} (h : rowToJob row = .ok job) :
    job.id = row.id ∧ ∀ payload, rowToJob { row with payload := payload } =
      .ok { job with payload := payload } := by
  unfold rowToJob at h
  cases hkind : kindFromStr row.kind with
  | none => simp [hkind] at h
  | some kind =>
    simp only [hkind, Except.ok.injEq] at h
    subst h
    exact ⟨rfl, fun payload => by simp [rowToJob, hkind]⟩

private theorem mem_of_mem_selectJobs {rows : JobTable} {row : JobRow}
    (h : row ∈ selectJobs rows state limit) : row ∈ rows.rows := by
  have hmem := mem_orderBy.mp (List.mem_of_mem_take h)
  cases state with
  | none => exact hmem
  | some state => exact (List.mem_filter.mp hmem).1

/-- Each listed job is found by its id. -/
theorem get_of_list (h : list db.jobs state limit = .ok jobs) {job : Job} (hjob : job ∈ jobs) :
    get db.jobs job.id = .ok job := by
  have hrows := Results.mapM_eq_ok.mp h
  obtain ⟨i, hi⟩ := List.getElem?_of_mem hjob
  obtain ⟨hlt, rfl⟩ := List.getElem?_eq_some_iff.mp hi
  have hlt' : i < (selectJobs db.jobs state limit).length := hrows.length_eq ▸ hlt
  have hrow := hrows.get hlt' hlt
  simp only [List.get_eq_getElem] at hrow
  have hmem := mem_of_mem_selectJobs (List.getElem_mem hlt')
  have hlookup : db.jobs.lookup .id jobs[i].id =
      some (selectJobs db.jobs state limit)[i] :=
    Table.lookup_eq_some_iff.mpr ⟨hmem, congrArg some (rowToJob_eq_ok hrow).1.symm⟩
  rw [get, hlookup]
  exact hrow

/-- One job's payload is replaced. -/
def JobRow.withPayload (id : JobId) (payload : JsonValue) (row : JobRow) : JobRow :=
  if row.id = id then { row with payload := payload } else row

def SummaryTables.withPayload (db : SummaryTables) (id : JobId) (payload : JsonValue) :
    SummaryTables :=
  { db with
    jobs := db.jobs.updateWhere (fun row => decide (row.id = id))
      (fun row => { row with payload := payload }) fun i row => by cases i <;> rfl }

def replaced (id : JobId) (payload : JsonValue) (job : Job) : Job :=
  if job.id = id then { job with payload := payload } else job

private theorem selectJobs_withPayload (db : SummaryTables) (id : JobId) (payload : JsonValue) :
    selectJobs (db.withPayload id payload).jobs state limit =
      (selectJobs db.jobs state limit).map (JobRow.withPayload id payload) := by
  have hcreated : ∀ row : JobRow, (row.withPayload id payload).createdAt = row.createdAt :=
    fun row => by unfold JobRow.withPayload; split <;> rfl
  have hstate : ∀ row : JobRow, (row.withPayload id payload).state = row.state :=
    fun row => by unfold JobRow.withPayload; split <;> rfl
  have hrows : (db.withPayload id payload).jobs.rows =
      db.jobs.rows.map (JobRow.withPayload id payload) := by
    simp [SummaryTables.withPayload, Table.updateWhere, JobRow.withPayload]
  have horder : ∀ rows : List JobRow,
      orderBy (fun row : JobRow => -row.createdAt) (rows.map (JobRow.withPayload id payload)) =
        (orderBy (fun row : JobRow => -row.createdAt) rows).map (JobRow.withPayload id payload) :=
    fun rows => by
      refine (List.map_insertionSort _ _ _ rows fun a _ b _ => ?_).symm
      simp only [hcreated]
  cases state with
  | none => simp only [selectJobs, hrows, horder, List.map_take]
  | some state =>
    simp only [selectJobs, hrows, List.filter_map, Function.comp_def, hstate, horder, List.map_take]

/-- The same jobs are listed, one of them with another payload. -/
theorem list_withPayload (h : list db.jobs state limit = .ok jobs) (id : JobId)
    (payload : JsonValue) :
    list (db.withPayload id payload).jobs state limit = .ok (jobs.map (replaced id payload)) := by
  have hrows := Results.mapM_eq_ok.mp h
  refine Results.mapM_eq_ok.mpr ?_
  rw [selectJobs_withPayload, List.forall₂_map_left_iff, List.forall₂_map_right_iff]
  refine hrows.imp fun row job hrow => ?_
  obtain ⟨hid, hpayload⟩ := rowToJob_eq_ok hrow
  by_cases hrowid : row.id = id
  · rw [JobRow.withPayload, replaced, if_pos hrowid, if_pos (hid.trans hrowid)]
    exact hpayload payload
  · rw [JobRow.withPayload, replaced, if_neg hrowid, if_neg (hid ▸ hrowid)]
    exact hrow

/-- The entries of the other jobs. -/
def others (id : JobId) (items : List JobSummary) : List (Option JobSummary) :=
  items.map fun item => if item.job.id = id then none else some item

/-- Each entry is the job's own view, and whichever job's payload becomes one without a chapter id,
the other entries stay as they are. -/
def Agree (db : SummaryTables) (state : Option JobState) (limit : ℕ) : Prop :=
  ∀ items, listSummaries db state limit = .ok items →
    (∀ item ∈ items, summary db item.job.id = .ok item) ∧
    ∀ id payload, chapterId payload = none →
      ∃ items', listSummaries (db.withPayload id payload) state limit = .ok items' ∧
        others id items' = others id items

/-- No listed job that is no download names the chapter of a listed download, unless the chapter or
its series is gone. -/
def Apart (db : SummaryTables) (jobs : List Job) : Prop :=
  ∀ job ∈ jobs, ∀ download ∈ jobs, job.kind ≠ .downloadChapter →
    download.kind = .downloadChapter → ∀ id, chapterId job.payload = some id →
      chapterId download.payload = some id →
        ∀ c ∈ db.chapters.rows, c.id.uuid = id → ∀ m ∈ db.mangas.rows, m.id ≠ c.mangaId

/-- A job that is no download has no subject in a list of jobs that are apart. -/
theorem Apart.entry_subject (h : Apart db jobs) {job : Job} (hjob : job ∈ jobs)
    {ids : List Uuid} (hids : ∀ id ∈ ids, id ∈ wanted jobs) :
    job.kind ≠ .downloadChapter → (entry db ids job).subject = none := by
  intro hkind
  simp only [entry, Option.bind_eq_none_iff, ite_eq_right_iff]
  intro id hid hmem
  obtain ⟨download, hdownload, hkind', hid'⟩ := mem_wanted_iff.mp (hids id hmem)
  exact subjectOf_eq_none_iff.mpr (h job hjob download hdownload hkind hkind' id hid hid')

/-- A download has its own subject. -/
theorem entry_of_download {job : Job} (hjob : job ∈ jobs) (hkind : job.kind = .downloadChapter) :
    (entry db (wanted jobs) job).subject = (chapterId job.payload).bind (subjectOf db) := by
  cases hid : chapterId job.payload with
  | none => simp [entry, hid]
  | some id => simp [entry, hid, mem_wanted_iff.mpr ⟨job, hjob, hkind, hid⟩]

theorem Apart.summary (h : Apart db jobs) (hlist : list db.jobs state limit = .ok jobs) {job : Job}
    (hjob : job ∈ jobs) : summary db job.id = .ok (entry db (wanted jobs) job) := by
  rw [summary_eq_of_get (get_of_list hlist hjob)]
  split
  · next hkind => rw [← entry_of_download hjob hkind]; rfl
  · next hkind => rw [← h.entry_subject hjob (fun id hid => hid) hkind]; rfl

/-- A payload without a chapter id takes an id from the lookup, but no other job's subject. -/
theorem Apart.others (h : Apart db jobs) {id : JobId} {payload : JsonValue}
    (hpayload : chapterId payload = none) :
    others id ((jobs.map (replaced id payload)).map
        (entry (db.withPayload id payload) (wanted (jobs.map (replaced id payload))))) =
      others id (jobs.map (entry db (wanted jobs))) := by
  have hsubset : ∀ u ∈ wanted (jobs.map (replaced id payload)), u ∈ wanted jobs := by
    intro u hu
    obtain ⟨job', hjob', hkind, hid⟩ := mem_wanted_iff.mp hu
    obtain ⟨job, hjob, rfl⟩ := List.mem_map.mp hjob'
    unfold replaced at hkind hid
    split at hid
    · rw [hpayload] at hid
      cases hid
    · next hne =>
      rw [if_neg hne] at hkind
      exact mem_wanted_iff.mpr ⟨job, hjob, hkind, hid⟩
  simp only [Queue.others, List.map_map]
  refine List.map_congr_left fun job hjob => ?_
  simp only [Function.comp_def]
  by_cases hid : job.id = id
  · simp [entry, replaced, hid]
  · have hsame : replaced id payload job = job := if_neg hid
    have hmem : job ∈ jobs.map (replaced id payload) := hsame ▸ List.mem_map_of_mem hjob
    rw [hsame]
    have hsubject : (entry db (wanted (jobs.map (replaced id payload))) job).subject =
        (entry db (wanted jobs) job).subject := by
      by_cases hkind : job.kind = .downloadChapter
      · rw [entry_of_download hjob hkind, entry_of_download hmem hkind]
      · rw [h.entry_subject hjob (fun u hu => hu) hkind, h.entry_subject hjob hsubset hkind]
    have hentry : entry (db.withPayload id payload) (wanted (jobs.map (replaced id payload))) job =
        entry db (wanted jobs) job :=
      congrArg (JobSummary.mk job) hsubject
    rw [hentry]

/-- The list agrees with the views exactly when its jobs are apart. -/
theorem listSummaries_agree_iff (db : SummaryTables) (state : Option JobState) (limit : ℕ) :
    Agree db state limit ↔ ∀ jobs, list db.jobs state limit = .ok jobs → Apart db jobs := by
  constructor
  · intro hagree jobs hlist job hjob download hdownload hkind hkind' id hid hid'
    obtain ⟨hitems, -⟩ := hagree _ (listSummaries_eq_ok.mpr ⟨jobs, hlist, rfl⟩)
    have hitem := hitems _ (List.mem_map_of_mem hjob)
    rw [show (entry db (wanted jobs) job).job.id = job.id from rfl,
      summary_eq_of_get (get_of_list hlist hjob), if_neg hkind] at hitem
    have hsubject := congrArg JobSummary.subject (Except.ok.inj hitem)
    have hmem : id ∈ wanted jobs := mem_wanted_iff.mpr ⟨download, hdownload, hkind', hid'⟩
    simp only [entry, hid, Option.bind_some, hmem, ↓reduceIte] at hsubject
    exact subjectOf_eq_none_iff.mp hsubject.symm
  · intro happart items hitems
    obtain ⟨jobs, hlist, rfl⟩ := listSummaries_eq_ok.mp hitems
    have h := happart jobs hlist
    refine ⟨fun item hitem => ?_, fun id payload hpayload => ?_⟩
    · obtain ⟨job, hjob, rfl⟩ := List.mem_map.mp hitem
      exact h.summary hlist hjob
    · exact ⟨_, listSummaries_eq_ok.mpr ⟨_, list_withPayload hlist id payload, rfl⟩,
        h.others hpayload⟩

end Entries

/-- The view of a job that is no download has no subject. -/
theorem subject_of_summary {db : SummaryTables} {id : JobId} {item : JobSummary}
    (h : summary db id = .ok item) (hkind : item.job.kind ≠ .downloadChapter) :
    item.subject = none := by
  cases hget : get db.jobs id with
  | error e => simp [summary, hget, bind, Except.bind] at h
  | ok job =>
    rw [summary_eq_of_get hget] at h
    cases h
    exact if_neg hkind

def romanceDawn : TitledChapter :=
  ⟨⟨⟨⟨1⟩, ⟨2⟩, "romance-dawn", none, none⟩, 0⟩, some "Romance Dawn"⟩

def jobAbout (id : ℕ) (kind : JobKind) (payload : JsonValue) : JobRow :=
  Enqueue.row ⟨kind, payload, none, none, 0, 5⟩ ⟨BitVec.ofNat 128 id⟩ 0

/-- A chapter's download and its packaging. -/
def sameChapter : SummaryTables where
  jobs := (Table.empty.insert (jobAbout 1 .downloadChapter (.about "chapter_id" 1))
    (by simp [Table.Free])).insert (jobAbout 2 .packageChapter (.about "chapter_id" 1)) (by decide)
  chapters := Table.empty.insert romanceDawn (by simp [Table.Free])
  mangas := Table.empty.insert ⟨⟨⟨2⟩, ⟨3⟩, "one-piece", "One Piece", .rightToLeft⟩, .ongoing, 0, 0⟩
    (by simp [Table.Free])

/-- The packaging has a subject in the list, and none in its view. -/
theorem packaging_disagrees : ¬ Agree sameChapter none 100 := by
  intro h
  have hlisted : (listSummaries sameChapter none 100).toOption.any (fun items =>
      items.any fun item => item.subject.isSome && decide (item.job.kind ≠ .downloadChapter)) =
        true := by decide
  obtain ⟨items, hitems, hany⟩ := (Option.any_eq_true _ _).mp hlisted
  obtain ⟨item, hitem, hsubject⟩ := List.any_eq_true.mp hany
  rw [Bool.and_eq_true, decide_eq_true_eq] at hsubject
  have hok : listSummaries sameChapter none 100 = .ok items := by
    cases hlist : listSummaries sameChapter none 100 with
    | error e => rw [hlist] at hitems; cases hitems
    | ok items' => rw [hlist] at hitems; cases hitems; rfl
  rw [subject_of_summary ((h items hok).1 item hitem) hsubject.2] at hsubject
  exact absurd hsubject.1 (by decide)

end Queue
end Nyuka
