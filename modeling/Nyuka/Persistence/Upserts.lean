import Mathlib.Data.String.Basic
import Nyuka.Foundation.Results
import Nyuka.Foundation.Runs
import Nyuka.Persistence.Chapters

/-! Chapters inserted by several calls at once: the statement a call sends, and what its rows meet
in the table while other calls are in flight. -/
namespace Nyuka.Persistence
open Tables Table Runs

/-- A chapter with all that a source says of it. -/
structure ListedChapter extends SourceChapter where
  title : Option String
  publishedAt : Option Time
  scanlators : List String
  url : Option String
  language : Option String
  locked : Bool
deriving DecidableEq, Repr

/-- A value bound to a parameter. -/
inductive SqlValue where
  | uuid (id : Uuid)
  | string (text : Option String)
  | float (x : Option Binary32)
  | dateTime (t : Option Time)
  | json (items : List String)
  | bool (b : Bool)
deriving DecidableEq, Repr

/-- PostgreSQL counts time from the beginning of Julian day 0 to the end of the year 294276. -/
def timestamped (t : Time) : Bool := -210866803200000000 ≤ t && t < 9224318016000000000

/-- The database can hold the value. -/
def SqlValue.storable : SqlValue → Bool
  | .string text => text.all holdable
  | .dateTime t => t.all timestamped
  | .json items => items.all holdable
  | .uuid _ | .float _ | .bool _ => true

/-- The tuples of a statement, by the numbers of their placeholders, and the bound values. -/
structure InsertStatement where
  tuples : List (List ℕ)
  values : List SqlValue

def columns (manga : MangaId) (id : ChapterId) (c : ListedChapter) : List SqlValue :=
  [.uuid id.uuid, .uuid manga.uuid, .string (some c.key), .string c.title, .float c.number,
    .float c.volume, .dateTime c.publishedAt, .json c.scanlators, .string c.url,
    .string c.language, .bool c.locked]

/-- The database can hold what is said of the chapter. -/
def ListedChapter.storable (c : ListedChapter) : Bool :=
  holdable c.key && c.title.all holdable && c.publishedAt.all timestamped &&
    c.scanlators.all holdable && c.url.all holdable && c.language.all holdable

@[simp] theorem storable_columns (manga : MangaId) (id : ChapterId) (c : ListedChapter) :
    (columns manga id c).all SqlValue.storable = c.storable := by
  simp [columns, SqlValue.storable, ListedChapter.storable, Bool.and_assoc]

/-- The placeholders of the tuple behind `i` others. -/
def placeholders (i : ℕ) : List ℕ :=
  let b := i * 11
  [b + 1, b + 2, b + 3, b + 4, b + 5, b + 6, b + 7, b + 8, b + 9, b + 10, b + 11]

/-- `INSERT INTO chapter (..) VALUES (..), .. ON CONFLICT (manga_id, external_key) DO NOTHING
RETURNING id`, with an id drawn for each chapter. -/
def upsertStatement (manga : MangaId) (listed : List (ChapterId × ListedChapter)) :
    InsertStatement where
  tuples := listed.zipIdx.map fun entry => placeholders entry.2
  values := listed.flatMap fun entry => columns manga entry.1 entry.2

/-- The values of the tuples. -/
def InsertStatement.bound (statement : InsertStatement) : List (List (Option SqlValue)) :=
  statement.tuples.map fun tuple => tuple.map fun n => statement.values[n - 1]?

/-- The row a tuple proposes. -/
def proposed (now : Time) : List (Option SqlValue) → Option ChapterRow
  | [some (.uuid id), some (.uuid manga), some (.string (some key)), some (.string _),
      some (.float number), some (.float volume), some (.dateTime _), some (.json _),
      some (.string _), some (.string _), some (.bool _)] =>
    some
      { id := ⟨id⟩, mangaId := ⟨manga⟩, externalKey := key, number := number, volume := volume
        createdAt := now }
  | _ => none

@[simp] theorem length_values (manga : MangaId) (listed : List (ChapterId × ListedChapter)) :
    (upsertStatement manga listed).values.length = listed.length * 11 := by
  simp [upsertStatement, List.length_flatMap, columns]

/-- Behind the values of the tuples before, each placeholder is a value of its own tuple. -/
theorem bound_from (manga : MangaId) (listed : List (ChapterId × ListedChapter)) (i : ℕ)
    (before : List SqlValue) (hbefore : before.length = i * 11) :
    ((listed.zipIdx i).map fun entry => (placeholders entry.2).map fun n =>
        (before ++ listed.flatMap fun entry => columns manga entry.1 entry.2)[n - 1]?) =
      listed.map fun entry => (columns manga entry.1 entry.2).map some := by
  induction listed generalizing i before with
  | nil => rfl
  | cons entry listed ih =>
    have hhead : ((placeholders i).map fun n => (before ++ (columns manga entry.1 entry.2 ++
        listed.flatMap fun entry => columns manga entry.1 entry.2))[n - 1]?) =
        (columns manga entry.1 entry.2).map some := by
      simp [placeholders, columns, ← hbefore]
    have htail := ih (i + 1) (before ++ columns manga entry.1 entry.2) (by
      simp [hbefore, columns, Nat.succ_mul])
    rw [List.append_assoc] at htail
    rw [List.zipIdx_cons, List.map_cons, List.map_cons, List.flatMap_cons, hhead, htail]

/-- The statement proposes the listed chapters in their order. -/
theorem proposed_upsertStatement (manga : MangaId) (now : Time)
    (listed : List (ChapterId × ListedChapter)) :
    (upsertStatement manga listed).bound.filterMap (proposed now) =
      listed.map fun entry => entry.2.toSourceChapter.row manga entry.1 now := by
  have hbound : (upsertStatement manga listed).bound =
      listed.map fun entry => (columns manga entry.1 entry.2).map some := by
    have h := bound_from manga listed 0 [] rfl
    simpa [InsertStatement.bound, upsertStatement, Function.comp_def] using h
  have hrow : (proposed now ∘ fun entry : ChapterId × ListedChapter =>
      (columns manga entry.1 entry.2).map some) =
      some ∘ fun entry => entry.2.toSourceChapter.row manga entry.1 now := rfl
  rw [hbound, List.filterMap_map, hrow, List.filterMap_eq_map]

namespace Upserts

/-- A call of `upsert_chapters`: the rows its statement has dealt with and those it has not, what
it will return and the keys it found in the table. -/
structure Call where
  listed : List (ChapterId × ListedChapter)
  done : List ChapterRow
  rest : List ChapterRow
  inserted : List ChapterId
  found : List ExternalKey
  result : Option (Except DomainError (List ChapterId))
deriving DecidableEq

namespace Call

def ids (call : Call) : List ChapterId := call.listed.map Prod.fst

def returned (call : Call) : List ChapterId :=
  match call.result with
  | some (.ok ids) => ids
  | _ => []

def Failed (call : Call) : Prop := ∃ e, call.result = some (.error e)

end Call

/-- The rows of the table, those of statements in flight included, and the calls made so far. -/
structure State where
  chapters : ChapterTable
  calls : List Call

/-- How many parameters a statement may have. -/
def maxParameters : ℕ := 65535

/-- A call that ends before its statement has dealt with a row. -/
def endedCall (listed : List (ChapterId × ListedChapter))
    (result : Except DomainError (List ChapterId)) : Call where
  listed := listed
  done := []
  rest := []
  inserted := []
  found := []
  result := some result

/-- No statement is sent for no chapters, and none is run whose values are too many or one of which
the database cannot hold. -/
def beginCall (manga : MangaId) (now : Time) (listed : List (ChapterId × ListedChapter)) : Call :=
  let statement := upsertStatement manga listed
  if listed = [] then endedCall listed (.ok [])
  else if maxParameters < statement.values.length then
    endedCall listed (.error (.storage "too many arguments for query"))
  else if !statement.values.all SqlValue.storable then
    endedCall listed (.error (.storage "a parameter cannot be stored"))
  else
    { listed := listed, done := [], rest := statement.bound.filterMap (proposed now)
      inserted := [], found := [], result := none }

namespace State

/-- The row in flight or not that has the key of a proposed row. -/
def conflicting (s : State) (row : ChapterRow) : Option ChapterRow :=
  s.chapters.rows.find? fun r => r.mangaId == row.mangaId && r.externalKey == row.externalKey

/-- The row is a call's that has not ended. -/
def Holds (s : State) (j : ℕ) (r : ChapterRow) : Prop :=
  ∃ call ∈ s.calls[j]?, call.result = none ∧ r.id ∈ call.inserted

instance (s : State) (j : ℕ) (r : ChapterRow) : Decidable (s.Holds j r) := by
  unfold Holds
  infer_instance

/-- The call that the next row of a call has to wait for: whether its key is taken is known when
that call ends. -/
def waitsFor (s : State) (i : ℕ) : Option ℕ := do
  let call ← s.calls[i]?
  let row ← call.rest.head?
  let r ← s.conflicting row
  (List.range s.calls.length).find? fun j => j ≠ i ∧ s.Holds j r

def waitsAfter (s : State) : ℕ → ℕ → Option ℕ
  | 0, i => some i
  | n + 1, i => (s.waitsFor i).bind (s.waitsAfter n)

/-- The call waits in a circle for itself. -/
def InCircle (s : State) (i : ℕ) : Prop :=
  ∃ n < s.calls.length, s.waitsAfter (n + 1) i = some i

instance (s : State) (i : ℕ) : Decidable (s.InCircle i) := by unfold InCircle; infer_instance

/-- A statement that fails takes its rows with it. -/
def rollback (s : State) (i : ℕ) (call : Call) (message : String) : State where
  chapters := s.chapters.deleteWhere fun r => decide (r.id ∈ call.inserted)
  calls := s.calls.set i
    { call with rest := [], inserted := [], result := some (.error (.storage message)) }

/-- One row of a statement, which is skipped if its key is in the table. `indexable` tells the keys
that an entry of the unique index has room for. -/
def insertRow (indexable : ExternalKey → Bool) (s : State) (i : ℕ) (call : Call) (row : ChapterRow)
    (rest : List ChapterRow) : State :=
  let call' := { call with done := call.done ++ [row], rest := rest }
  match s.conflicting row with
  | some r =>
    let found := if r.id ∈ call.inserted then call.found else row.externalKey :: call.found
    { s with calls := s.calls.set i { call' with found := found } }
  | none =>
    if !indexable row.externalKey then s.rollback i call "index row size exceeds btree maximum"
    else if h : s.chapters.Free row then
      { chapters := s.chapters.insert row h
        calls := s.calls.set i { call' with inserted := call.inserted ++ [row.id] } }
    else s.rollback i call "duplicate key value violates unique constraint"

/-- The end of a statement, at which the foreign key of its rows is checked. -/
def commit (mangas : MangaTable) (manga : MangaId) (s : State) (i : ℕ) (call : Call) : State :=
  if call.inserted = [] ∨ ∃ m ∈ mangas.rows, m.id = manga then
    { s with calls := s.calls.set i { call with result := some (.ok call.inserted) } }
  else s.rollback i call "violates foreign key constraint"

/-- The ids are of no row and of no other call. -/
def Unused (s : State) (ids : List ChapterId) : Prop :=
  ids.Nodup ∧ (∀ r ∈ s.chapters.rows, r.id ∉ ids) ∧ ∀ call ∈ s.calls, call.ids.Disjoint ids

instance (s : State) (ids : List ChapterId) : Decidable (s.Unused ids) := by
  unfold Unused List.Disjoint
  infer_instance

end State

inductive Action where
  | begin (listed : List (ChapterId × ListedChapter)) (now : Time)
  | row (i : ℕ)
  | commit (i : ℕ)
  | deadlock (i : ℕ)

/-- One step of the calls for a series. The ids of a call are drawn by `Uuid::new_v4`, which repeats
none, and a call that waits in a circle may be the one that is given up. -/
def step (indexable : ExternalKey → Bool) (mangas : MangaTable) (manga : MangaId) (s : State) :
    Action → Option State
  | .begin listed now =>
    if s.Unused (listed.map Prod.fst) then
      some { s with calls := s.calls ++ [beginCall manga now listed] }
    else none
  | .row i => s.calls[i]?.bind fun call =>
    match call.rest with
    | [] => none
    | row :: rest =>
      if call.result = none ∧ s.waitsFor i = none then
        some (s.insertRow indexable i call row rest)
      else none
  | .commit i => s.calls[i]?.bind fun call =>
    if call.result = none ∧ call.rest = [] then some (s.commit mangas manga i call) else none
  | .deadlock i => s.calls[i]?.bind fun call =>
    if call.result = none ∧ s.InCircle i then some (s.rollback i call "deadlock detected")
    else none

/-- What a step can do. -/
theorem step_cases {indexable : ExternalKey → Bool} {mangas : MangaTable} {manga : MangaId}
    {s t : State} {a : Action} (h : step indexable mangas manga s a = some t) :
    (∃ listed now, a = .begin listed now ∧ s.Unused (listed.map Prod.fst) ∧
      t = { s with calls := s.calls ++ [beginCall manga now listed] }) ∨
    (∃ i call row rest, a = .row i ∧ s.calls[i]? = some call ∧ call.result = none ∧
      call.rest = row :: rest ∧ t = s.insertRow indexable i call row rest) ∨
    (∃ i call, a = .commit i ∧ s.calls[i]? = some call ∧ call.result = none ∧ call.rest = [] ∧
      t = s.commit mangas manga i call) ∨
    ∃ i call, a = .deadlock i ∧ s.calls[i]? = some call ∧ call.result = none ∧ s.InCircle i ∧
      t = s.rollback i call "deadlock detected" := by
  cases a with
  | begin listed now =>
    obtain ⟨hunused, h⟩ := Option.ite_none_right_eq_some.mp h
    exact .inl ⟨listed, now, rfl, hunused, (Option.some.inj h).symm⟩
  | row i =>
    obtain ⟨call, hget, h⟩ := Option.bind_eq_some_iff.mp h
    cases hrest : call.rest with
    | nil => simp [hrest] at h
    | cons row rest =>
      simp only [hrest] at h
      obtain ⟨⟨hresult, -⟩, h⟩ := Option.ite_none_right_eq_some.mp h
      exact .inr (.inl ⟨i, call, row, rest, rfl, hget, hresult, hrest, (Option.some.inj h).symm⟩)
  | commit i =>
    obtain ⟨call, hget, h⟩ := Option.bind_eq_some_iff.mp h
    obtain ⟨⟨hresult, hrest⟩, h⟩ := Option.ite_none_right_eq_some.mp h
    exact .inr (.inr (.inl ⟨i, call, rfl, hget, hresult, hrest, (Option.some.inj h).symm⟩))
  | deadlock i =>
    obtain ⟨call, hget, h⟩ := Option.bind_eq_some_iff.mp h
    obtain ⟨⟨hresult, hcircle⟩, h⟩ := Option.ite_none_right_eq_some.mp h
    exact .inr (.inr (.inr ⟨i, call, rfl, hget, hresult, hcircle, (Option.some.inj h).symm⟩))

/-- What holds of a call that has not failed. -/
structure Call.Sound (manga : MangaId) (before chapters : ChapterTable) (call : Call) : Prop where
  rows : call.listed.map (fun e => (e.1, e.2.key)) =
    (call.done ++ call.rest).map fun r => (r.id, r.externalKey)
  series : ∀ r ∈ call.rest, r.mangaId = manga
  fresh : ∀ r ∈ before.rows, r.id ∉ call.ids
  unused : ∀ r ∈ call.rest, ∀ r' ∈ chapters.rows, r'.id ≠ r.id
  inserted : ∀ id ∈ call.inserted, ∃ r ∈ call.done, r.id = id ∧ r ∈ chapters.rows
  nodup : call.inserted.Nodup
  present : ∀ r ∈ call.done, ∃ r' ∈ chapters.rows, r'.mangaId = manga ∧
    r'.externalKey = r.externalKey
  found : ∀ key ∈ call.found, ∃ r ∈ chapters.rows, r.mangaId = manga ∧ r.externalKey = key ∧
    r.id ∉ call.ids
  result : ∀ res, call.result = some res → call.rest = [] ∧ res = .ok call.inserted

/-- The table holds the rows from before and those that the calls inserted. -/
structure Sound (manga : MangaId) (before : ChapterTable) (s : State) : Prop where
  kept : ∀ r ∈ before.rows, r ∈ s.chapters.rows
  origin : ∀ r ∈ s.chapters.rows, r ∈ before.rows ∨ ∃ call ∈ s.calls, r.id ∈ call.inserted
  ids : (s.calls.flatMap Call.ids).Nodup
  call : ∀ call ∈ s.calls, call.Sound manga before s.chapters

section Step
variable {indexable : ExternalKey → Bool} {manga : MangaId}
  {before chapters chapters' : ChapterTable} {call call' : Call} {s t : State} {i : ℕ}

namespace Call

theorem Sound.mem_ids (h : call.Sound manga before chapters) {r : ChapterRow}
    (hr : r ∈ call.done ++ call.rest) : r.id ∈ call.ids := by
  have hids := congrArg (List.map Prod.fst) h.rows
  simp only [List.map_map, Function.comp_def] at hids
  rw [ids, hids]
  exact List.mem_map_of_mem hr

theorem Sound.mem_ids_of_inserted (h : call.Sound manga before chapters) {id : ChapterId}
    (hid : id ∈ call.inserted) : id ∈ call.ids := by
  obtain ⟨r, hr, rfl, -⟩ := h.inserted id hid
  exact h.mem_ids (List.mem_append_left _ hr)

/-- A call stays sound as long as rows only come to the table, and none of them has its ids. -/
theorem Sound.mono (h : call.Sound manga before chapters)
    (hsub : ∀ r ∈ chapters.rows, r ∈ chapters'.rows)
    (hnew : ∀ r ∈ chapters'.rows, r ∈ chapters.rows ∨ r.id ∉ call.ids) :
    call.Sound manga before chapters' where
  rows := h.rows
  series := h.series
  fresh := h.fresh
  unused r hr r' hr' := by
    rcases hnew r' hr' with hold | hother
    · exact h.unused r hr r' hold
    · exact fun heq => hother (heq ▸ h.mem_ids (List.mem_append_right _ hr))
  inserted id hid := by
    obtain ⟨r, hr, hrid, hmem⟩ := h.inserted id hid
    exact ⟨r, hr, hrid, hsub r hmem⟩
  nodup := h.nodup
  present r hr := by
    obtain ⟨r', hr', hkey⟩ := h.present r hr
    exact ⟨r', hsub r' hr', hkey⟩
  found key hkey := by
    obtain ⟨r, hr, hrest⟩ := h.found key hkey
    exact ⟨r, hsub r hr, hrest⟩
  result := h.result

end Call

namespace State

theorem mem_conflicting {row r : ChapterRow} (h : s.conflicting row = some r) :
    r ∈ s.chapters.rows ∧ r.mangaId = row.mangaId ∧ r.externalKey = row.externalKey := by
  have hkey := List.find?_some h
  simp only [Bool.and_eq_true, beq_iff_eq] at hkey
  exact ⟨List.mem_of_find?_eq_some h, hkey⟩

theorem of_conflicting_eq_none {row r : ChapterRow} (h : s.conflicting row = none)
    (hr : r ∈ s.chapters.rows) : ¬ (r.mangaId = row.mangaId ∧ r.externalKey = row.externalKey) := by
  have hkey := List.find?_eq_none.mp h r hr
  simpa using hkey

end State

/-- The ids of the calls are as before if a call is replaced by itself further on. -/
theorem flatMap_ids_set (hget : s.calls[i]? = some call) (hlisted : call'.listed = call.listed) :
    (s.calls.set i call').flatMap Call.ids = s.calls.flatMap Call.ids := by
  have hids : call'.ids = call.ids := by rw [Call.ids, hlisted, Call.ids]
  obtain ⟨hi, hcall⟩ := List.getElem?_eq_some_iff.mp hget
  have hmap : (s.calls.map Call.ids).set i call'.ids = s.calls.map Call.ids := by
    rw [hids, ← hcall, ← List.getElem_map (f := Call.ids) (h := by simpa using hi)]
    exact List.set_getElem_self _
  rw [List.flatMap_def, List.map_set, hmap, ← List.flatMap_def]

/-- A call's id is no other call's. -/
theorem Sound.eq_of_mem_ids (h : Sound manga before s) {j : ℕ} {id : ChapterId}
    (hi : s.calls[i]? = some call) (hj : s.calls[j]? = some call') (hid : id ∈ call.ids)
    (hid' : id ∈ call'.ids) : i = j := by
  by_contra hne
  have hdisjoint := (List.nodup_flatMap.mp h.ids).2
  rw [List.pairwise_iff_getElem] at hdisjoint
  obtain ⟨hlti, rfl⟩ := List.getElem?_eq_some_iff.mp hi
  obtain ⟨hltj, rfl⟩ := List.getElem?_eq_some_iff.mp hj
  rcases Nat.lt_or_gt_of_ne hne with hlt | hgt
  · exact hdisjoint i j hlti hltj hlt hid hid'
  · exact hdisjoint j i hltj hlti hgt hid' hid

/-- What a call inserted stays inserted when the call goes on. -/
theorem exists_inserted_set (hget : s.calls[i]? = some call)
    (hinserted : ∀ id ∈ call.inserted, id ∈ call'.inserted) {id : ChapterId}
    (h : ∃ c ∈ s.calls, id ∈ c.inserted) : ∃ c ∈ s.calls.set i call', id ∈ c.inserted := by
  obtain ⟨c, hc, hid⟩ := h
  obtain ⟨j, hj⟩ := List.getElem?_of_mem hc
  obtain ⟨hlt, -⟩ := List.getElem?_eq_some_iff.mp hget
  by_cases hij : i = j
  · subst hij
    rw [hget] at hj
    cases hj
    exact ⟨call', List.mem_set hlt _, hinserted _ hid⟩
  · refine ⟨c, List.mem_of_getElem? (i := j) ?_, hid⟩
    rw [List.getElem?_set_ne hij]
    exact hj

/-- Replacing a call by one that goes on from it. -/
theorem Sound.set (h : Sound manga before s) (hget : s.calls[i]? = some call)
    (hlisted : call'.listed = call.listed) (hinserted : ∀ id ∈ call.inserted, id ∈ call'.inserted)
    (hcall : call'.Sound manga before s.chapters) :
    Sound manga before { s with calls := s.calls.set i call' } where
  kept := h.kept
  origin r hr := (h.origin r hr).imp_right (exists_inserted_set hget hinserted)
  ids := by rw [flatMap_ids_set hget hlisted]; exact h.ids
  call c hc := by
    rcases List.mem_or_eq_of_mem_set hc with hc | rfl
    · exact h.call c hc
    · exact hcall

/-- A row whose key is in the table is dealt with by leaving it out. -/
theorem Sound.skip (h : Sound manga before s) (hget : s.calls[i]? = some call)
    (hresult : call.result = none) {row r : ChapterRow} {rest : List ChapterRow}
    (hrest : call.rest = row :: rest) (hr : s.conflicting row = some r) :
    Sound manga before (s.insertRow indexable i call row rest) := by
  have hcall := h.call call (List.mem_of_getElem? hget)
  obtain ⟨hmem, hmanga, hkey⟩ := State.mem_conflicting hr
  have hseries : row.mangaId = manga := hcall.series row (by simp [hrest])
  simp only [State.insertRow, hr]
  refine h.set hget rfl (fun id hid => hid) ?_
  exact {
    rows := by rw [hcall.rows, hrest]; simp
    series := fun r' hr' => hcall.series r' (by simp [hrest, hr'])
    fresh := hcall.fresh
    unused := fun r' hr' => hcall.unused r' (by simp [hrest, hr'])
    inserted := fun id hid => by
      obtain ⟨r', hr', hin⟩ := hcall.inserted id hid
      exact ⟨r', List.mem_append_left _ hr', hin⟩
    nodup := hcall.nodup
    present := fun r' hr' => by
      rcases List.mem_append.mp hr' with hr' | hr'
      · exact hcall.present r' hr'
      · obtain rfl := List.mem_singleton.mp hr'
        exact ⟨r, hmem, hmanga.trans hseries, hkey⟩
    found := fun key hfound => by
      by_cases hown : r.id ∈ call.inserted
      · simp only [hown, ↓reduceIte] at hfound
        exact hcall.found key hfound
      · simp only [hown, ↓reduceIte, List.mem_cons] at hfound
        rcases hfound with rfl | hfound
        · refine ⟨r, hmem, hmanga.trans hseries, hkey, fun hid => ?_⟩
          -- the row is from before or another call's, so its id is none of this call's
          rcases h.origin r hmem with hold | ⟨c, hc, hinserted⟩
          · exact hcall.fresh r hold hid
          · obtain ⟨j, hj⟩ := List.getElem?_of_mem hc
            obtain rfl := h.eq_of_mem_ids hget hj hid ((h.call c hc).mem_ids_of_inserted hinserted)
            rw [hget] at hj
            cases hj
            exact hown hinserted
        · exact hcall.found key hfound
    result := fun res hres => by simp only [hresult, reduceCtorEq] at hres }

/-- The ids of a call's rows are distinct. -/
theorem Sound.nodup_ids (h : Sound manga before s) (hcall : call ∈ s.calls) :
    ((call.done ++ call.rest).map fun r => r.id).Nodup := by
  have hids := congrArg (List.map Prod.fst) (h.call call hcall).rows
  simp only [List.map_map, Function.comp_def] at hids
  have hnodup : call.ids.Nodup := (List.nodup_flatMap.mp h.ids).1 call hcall
  rw [Call.ids, hids] at hnodup
  exact hnodup

/-- The next row has room in the table unless its key is taken. -/
theorem Sound.free (h : Sound manga before s) (hcall : call ∈ s.calls) {row : ChapterRow}
    {rest : List ChapterRow} (hrest : call.rest = row :: rest)
    (hnone : s.conflicting row = none) : s.chapters.Free row := by
  intro b r hr
  cases b with
  | true =>
    refine .inr fun hid => ?_
    exact (h.call call hcall).unused row (by simp [hrest]) r hr (Option.some.inj hid)
  | false =>
    refine .inr fun hkey => State.of_conflicting_eq_none hnone hr ?_
    exact Prod.mk.inj (Option.some.inj hkey)

/-- The call whose row goes into the table. -/
theorem Call.Sound.insert (h : call.Sound manga before chapters) (hresult : call.result = none)
    {row : ChapterRow} {rest : List ChapterRow} (hrest : call.rest = row :: rest)
    (hnodup : ((call.done ++ row :: rest).map fun r => r.id).Nodup) (hfree : chapters.Free row) :
    Call.Sound manga before (chapters.insert row hfree)
      { call with
        done := call.done ++ [row], rest := rest, inserted := call.inserted ++ [row.id] } := by
  rw [List.map_append, List.map_cons, List.nodup_append, List.nodup_cons] at hnodup
  obtain ⟨-, ⟨hnotrest, -⟩, hdone⟩ := hnodup
  exact {
    rows := by rw [h.rows, hrest]; simp
    series := fun r hr => h.series r (by simp [hrest, hr])
    fresh := h.fresh
    unused := fun r hr r' hr' => by
      rcases mem_insert.mp hr' with rfl | hr'
      · exact fun heq => hnotrest (heq ▸ List.mem_map_of_mem hr)
      · exact h.unused r (by simp [hrest, hr]) r' hr'
    inserted := fun id hid => by
      rcases List.mem_append.mp hid with hid | hid
      · obtain ⟨r, hr, hrid, hmem⟩ := h.inserted id hid
        exact ⟨r, List.mem_append_left _ hr, hrid, mem_insert.mpr (.inr hmem)⟩
      · exact ⟨row, by simp, (List.mem_singleton.mp hid).symm, mem_insert.mpr (.inl rfl)⟩
    nodup := by
      refine List.nodup_append.mpr ⟨h.nodup, List.nodup_singleton _, fun id hid id' hid' => ?_⟩
      obtain ⟨r, hr, rfl, -⟩ := h.inserted id hid
      rw [List.mem_singleton.mp hid']
      exact hdone _ (List.mem_map_of_mem hr) _ (by simp)
    present := fun r hr => by
      rcases List.mem_append.mp hr with hr | hr
      · obtain ⟨r', hr', hkey⟩ := h.present r hr
        exact ⟨r', mem_insert.mpr (.inr hr'), hkey⟩
      · obtain rfl := List.mem_singleton.mp hr
        exact ⟨r, mem_insert.mpr (.inl rfl), h.series r (by simp [hrest]), rfl⟩
    found := fun key hkey => by
      obtain ⟨r, hr, hr'⟩ := h.found key hkey
      exact ⟨r, mem_insert.mpr (.inr hr), hr'⟩
    result := fun res hres => by simp only [hresult, reduceCtorEq] at hres }

/-- A row whose key is new is inserted. -/
theorem Sound.insert (h : Sound manga before s) (hget : s.calls[i]? = some call)
    (hresult : call.result = none) {row : ChapterRow} {rest : List ChapterRow}
    (hrest : call.rest = row :: rest) (hnone : s.conflicting row = none)
    (hindexable : indexable row.externalKey = true) :
    Sound manga before (s.insertRow indexable i call row rest) := by
  have hmem := List.mem_of_getElem? hget
  have hcall := h.call call hmem
  have hfree := h.free hmem hrest hnone
  have hrow : row.id ∈ call.ids := hcall.mem_ids (by simp [hrest])
  obtain ⟨hlt, -⟩ := List.getElem?_eq_some_iff.mp hget
  simp only [State.insertRow, hnone, hindexable, hfree, Bool.not_true, Bool.false_eq_true,
    ↓reduceIte, ↓reduceDIte]
  exact {
    kept := fun r hr => List.mem_cons_of_mem _ (h.kept r hr)
    origin := fun r hr => by
      rcases List.mem_cons.mp hr with rfl | hr
      · exact .inr ⟨_, List.mem_set hlt _, by simp⟩
      · exact (h.origin r hr).imp_right
          (exists_inserted_set hget fun id hid => List.mem_append_left _ hid)
    ids := by
      refine (congrArg List.Nodup (flatMap_ids_set hget ?_)).mpr h.ids
      rfl
    call := fun c hc => by
      obtain ⟨j, hj⟩ := List.getElem?_of_mem hc
      by_cases hij : i = j
      · subst hij
        rw [List.getElem?_set_self hlt] at hj
        cases hj
        exact hcall.insert hresult hrest (hrest ▸ h.nodup_ids hmem) hfree
      · rw [List.getElem?_set_ne hij] at hj
        refine (h.call c (List.mem_of_getElem? hj)).mono (fun r hr => List.mem_cons_of_mem _ hr)
          fun r hr => ?_
        rcases List.mem_cons.mp hr with rfl | hr
        · exact .inr fun hid => hij (h.eq_of_mem_ids hget hj hrow hid)
        · exact .inl hr }

theorem Sound.insertRow (h : Sound manga before s) (hget : s.calls[i]? = some call)
    (hresult : call.result = none) {row : ChapterRow} {rest : List ChapterRow}
    (hrest : call.rest = row :: rest)
    (hentered : (s.conflicting row).isSome ∨ indexable row.externalKey = true) :
    Sound manga before (s.insertRow indexable i call row rest) := by
  cases hconflict : s.conflicting row with
  | some r => exact h.skip hget hresult hrest hconflict
  | none =>
    rw [hconflict] at hentered
    exact h.insert hget hresult hrest hconflict (hentered.resolve_left Bool.false_ne_true)

/-- A statement whose rows are dealt with succeeds where the series exists. -/
theorem Sound.commit {mangas : MangaTable} (h : Sound manga before s)
    (hmanga : ∃ m ∈ mangas.rows, m.id = manga) (hget : s.calls[i]? = some call)
    (hrest : call.rest = []) : Sound manga before (s.commit mangas manga i call) := by
  have hcall := h.call call (List.mem_of_getElem? hget)
  simp only [State.commit, hmanga, or_true, ↓reduceIte]
  refine h.set hget rfl (fun id hid => hid) { hcall with result := fun res hres => ?_ }
  exact ⟨hrest, (Option.some.inj hres).symm⟩

@[simp] theorem storable_values (manga : MangaId) (listed : List (ChapterId × ListedChapter)) :
    (upsertStatement manga listed).values.all SqlValue.storable =
      listed.all fun entry => entry.2.storable := by
  simp only [upsertStatement, List.all_flatMap, storable_columns]

theorem beginCall_eq {listed : List (ChapterId × ListedChapter)} (now : Time)
    (hlength : listed.length * 11 ≤ maxParameters)
    (hstorable : ∀ entry ∈ listed, entry.2.storable = true) :
    beginCall manga now listed =
      { listed := listed, done := []
        rest := listed.map fun e => e.2.toSourceChapter.row manga e.1 now, inserted := []
        found := [], result := if listed = [] then some (.ok []) else none } := by
  have hall : listed.all (fun entry => entry.2.storable) = true := List.all_eq_true.mpr hstorable
  rw [beginCall, length_values, if_neg (by omega : ¬ maxParameters < listed.length * 11),
    storable_values, hall, proposed_upsertStatement]
  simp only [Bool.not_true, Bool.false_eq_true, ↓reduceIte]
  split
  · next hnil =>
    subst hnil
    rfl
  · rfl

/-- A call that may be made is sound from its beginning. -/
theorem Sound.begin (h : Sound manga before s) {listed : List (ChapterId × ListedChapter)}
    (now : Time) (hunused : s.Unused (listed.map Prod.fst))
    (hlength : listed.length * 11 ≤ maxParameters)
    (hstorable : ∀ entry ∈ listed, entry.2.storable = true) :
    Sound manga before { s with calls := s.calls ++ [beginCall manga now listed] } := by
  obtain ⟨hnodup, hrows, hcalls⟩ := hunused
  rw [beginCall_eq now hlength hstorable]
  refine ⟨h.kept, fun r hr => (h.origin r hr).imp_right ?_, ?_, fun c hc => ?_⟩
  · rintro ⟨c, hc, hid⟩
    exact ⟨c, List.mem_append_left _ hc, hid⟩
  · rw [List.flatMap_append, List.flatMap_singleton]
    refine List.nodup_append'.mpr ⟨h.ids, hnodup, fun id hid hid' => ?_⟩
    obtain ⟨c, hc, hid⟩ := List.mem_flatMap.mp hid
    exact hcalls c hc hid hid'
  · rcases List.mem_append.mp hc with hc | hc
    · exact h.call c hc
    · obtain rfl := List.mem_singleton.mp hc
      exact {
        rows := by simp [SourceChapter.row, Function.comp_def]
        series := fun r hr => by
          obtain ⟨e, -, rfl⟩ := List.mem_map.mp hr
          rfl
        fresh := fun r hr => hrows r (h.kept r hr)
        unused := fun r hr r' hr' heq => by
          obtain ⟨e, he, rfl⟩ := List.mem_map.mp hr
          exact hrows r' hr' (heq ▸ List.mem_map_of_mem he)
        inserted := fun id hid => by cases hid
        nodup := List.nodup_nil
        present := fun r hr => by cases hr
        found := fun key hkey => by cases hkey
        result := fun res hres => by
          obtain ⟨rfl, hres⟩ := Option.ite_none_right_eq_some.mp hres
          exact ⟨rfl, (Option.some.inj hres).symm⟩ }

end Step

/-- A call failed, for good. -/
def State.Failed (s : State) : Prop := ∃ call ∈ s.calls, call.Failed

/-- A call's list fits into one statement. -/
def Sized : Action → Prop
  | .begin listed _ => listed.length ≤ 5957
  | .row _ | .commit _ | .deadlock _ => True

/-- The database can hold what is said of a call's chapters. -/
def Storable : Action → Prop
  | .begin listed _ => ∀ entry ∈ listed, entry.2.storable = true
  | .row _ | .commit _ | .deadlock _ => True

/-- The key of the next row is in the table, or an index entry has room for it. -/
def Entered (indexable : ExternalKey → Bool) (s : State) : Action → Prop
  | .row i => ∀ call ∈ s.calls[i]?, ∀ row ∈ call.rest.head?,
    (s.conflicting row).isSome ∨ indexable row.externalKey = true
  | .begin _ _ | .commit _ | .deadlock _ => True

/-- A call is given up to end a deadlock. -/
def GivenUp : Action → Prop
  | .deadlock _ => True
  | .begin _ _ | .row _ | .commit _ => False

instance (a : Action) : Decidable (Sized a) := by cases a <;> unfold Sized <;> infer_instance

instance (a : Action) : Decidable (Storable a) := by cases a <;> unfold Storable <;> infer_instance

instance (indexable : ExternalKey → Bool) (s : State) (a : Action) :
    Decidable (Entered indexable s a) := by
  cases a <;> unfold Entered <;> infer_instance

instance (a : Action) : Decidable (GivenUp a) := by cases a <;> unfold GivenUp <;> infer_instance

/-- The database takes what the step sends it. -/
structure Taken (indexable : ExternalKey → Bool) (s : State) (a : Action) : Prop where
  sized : Sized a
  storable : Storable a
  entered : Entered indexable s a

instance (indexable : ExternalKey → Bool) (s : State) (a : Action) :
    Decidable (Taken indexable s a) :=
  decidable_of_iff (Sized a ∧ Storable a ∧ Entered indexable s a)
    ⟨fun h => ⟨h.1, h.2.1, h.2.2⟩, fun h => ⟨h.sized, h.storable, h.entered⟩⟩

/-- Every ended call succeeded, each key it was given has one row, and the ids of the new rows whose
call has ended are returned by one call each, which did not find the row's key in the table. -/
structure Exact (manga : MangaId) (before : ChapterTable) (s : State) : Prop where
  accepted : ¬ s.Failed
  one_row : ∀ call ∈ s.calls, call.result ≠ none → ∀ e ∈ call.listed,
    ∃! r, r ∈ s.chapters.rows ∧ r.mangaId = manga ∧ r.externalKey = e.2.key
  returned_once : (s.calls.flatMap Call.returned).Nodup
  returned : ∀ r ∈ s.chapters.rows, (∀ j, ¬ s.Holds j r) →
    (r.id ∈ s.calls.flatMap Call.returned ↔ r ∉ before.rows)
  inserted : ∀ id ∈ s.calls.flatMap Call.returned, ∃ r ∈ s.chapters.rows, r.id = id
  found : ∀ call ∈ s.calls, ∀ key ∈ call.found, ∀ r ∈ s.chapters.rows,
    r.mangaId = manga → r.externalKey = key → r.id ∉ call.returned

section Run
variable {indexable : ExternalKey → Bool} {mangas : MangaTable} {manga : MangaId}
  {before : ChapterTable} {s t : State}

theorem Sound.not_failed (h : Sound manga before s) : ¬ s.Failed := by
  rintro ⟨call, hcall, e, he⟩
  cases ((h.call call hcall).result _ he).2

theorem Sound.returned_eq (h : Sound manga before s) {call : Call} (hcall : call ∈ s.calls) :
    call.returned = if call.result = none then [] else call.inserted := by
  cases hres : call.result with
  | none => simp [Call.returned, hres]
  | some res =>
    obtain ⟨-, rfl⟩ := (h.call call hcall).result res hres
    simp [Call.returned, hres]

theorem Sound.mem_inserted_of_returned (h : Sound manga before s) {call : Call}
    (hcall : call ∈ s.calls) {id : ChapterId} (hid : id ∈ call.returned) : id ∈ call.inserted := by
  rw [h.returned_eq hcall] at hid
  split at hid
  · cases hid
  · exact hid

/-- Two rows of the table with the same key are one. -/
theorem eq_of_key {chapters : ChapterTable} {r r' : ChapterRow} (hr : r ∈ chapters.rows)
    (hr' : r' ∈ chapters.rows) (hmanga : r.mangaId = r'.mangaId)
    (hkey : r.externalKey = r'.externalKey) : r = r' :=
  (chapters.unique false).eq_of_mem hr hr' (k := (r.mangaId, r.externalKey)) rfl
    (congrArg some (by rw [hmanga, hkey]))

theorem Sound.exact (h : Sound manga before s) : Exact manga before s where
  accepted := h.not_failed
  one_row call hcall hresult e he := by
    obtain ⟨res, hres⟩ := Option.ne_none_iff_exists'.mp hresult
    have hsound := h.call call hcall
    obtain ⟨hrest, -⟩ := hsound.result res hres
    have hrow : (e.1, e.2.key) ∈ (call.done ++ call.rest).map fun r => (r.id, r.externalKey) :=
      hsound.rows ▸ List.mem_map_of_mem he
    rw [hrest, List.append_nil] at hrow
    obtain ⟨r, hr, hre⟩ := List.mem_map.mp hrow
    obtain ⟨r', hr', hmanga, hkey⟩ := hsound.present r hr
    have hkey' : r'.externalKey = e.2.key := hkey.trans (Prod.mk.inj hre).2
    refine ⟨r', ⟨hr', hmanga, hkey'⟩, ?_⟩
    rintro r'' ⟨hr'', hmanga', hkey''⟩
    exact eq_of_key hr'' hr' (hmanga'.trans hmanga.symm) (hkey''.trans hkey'.symm)
  returned_once := by
    refine List.nodup_flatMap.mpr ⟨fun call hcall => ?_, ?_⟩
    · rw [h.returned_eq hcall]
      split
      · exact List.nodup_nil
      · exact (h.call call hcall).nodup
    · refine (List.nodup_flatMap.mp h.ids).2.imp_of_mem fun {a b} ha hb hdisjoint id hid hid' => ?_
      exact hdisjoint
        ((h.call a ha).mem_ids_of_inserted (h.mem_inserted_of_returned ha hid))
        ((h.call b hb).mem_ids_of_inserted (h.mem_inserted_of_returned hb hid'))
  returned r hr hended := by
    constructor
    · intro hid hold
      obtain ⟨call, hcall, hid⟩ := List.mem_flatMap.mp hid
      have hsound := h.call call hcall
      exact hsound.fresh r hold
        (hsound.mem_ids_of_inserted (h.mem_inserted_of_returned hcall hid))
    · intro hnew
      obtain ⟨call, hcall, hid⟩ := (h.origin r hr).resolve_left hnew
      refine List.mem_flatMap.mpr ⟨call, hcall, ?_⟩
      obtain ⟨j, hj⟩ := List.getElem?_of_mem hcall
      have hresult : call.result ≠ none := fun hnone => hended j ⟨call, hj, hnone, hid⟩
      rwa [h.returned_eq hcall, if_neg hresult]
  inserted id hid := by
    obtain ⟨call, hcall, hid⟩ := List.mem_flatMap.mp hid
    obtain ⟨r, -, hrid, hr⟩ :=
      (h.call call hcall).inserted id (h.mem_inserted_of_returned hcall hid)
    exact ⟨r, hr, hrid⟩
  found call hcall key hkey r hr hmanga hrkey hid := by
    have hsound := h.call call hcall
    obtain ⟨r', hr', hmanga', hkey', hnot⟩ := hsound.found key hkey
    rw [eq_of_key hr hr' (hmanga.trans hmanga'.symm) (hrkey.trans hkey'.symm)] at hid
    exact hnot (hsound.mem_ids_of_inserted (h.mem_inserted_of_returned hcall hid))

theorem step_begin {listed : List (ChapterId × ListedChapter)} (now : Time)
    (h : s.Unused (listed.map Prod.fst)) : step indexable mangas manga s (.begin listed now) =
      some { s with calls := s.calls ++ [beginCall manga now listed] } := if_pos h

theorem parameters_le_iff {n : ℕ} : n * 11 ≤ maxParameters ↔ n ≤ 5957 := by
  rw [maxParameters]
  omega

/-- A call is begun that the database refuses. -/
theorem beginCall_failed {listed : List (ChapterId × ListedChapter)} (now : Time)
    (hrefused : ¬ (listed.length ≤ 5957 ∧ ∀ entry ∈ listed, entry.2.storable = true)) :
    (beginCall manga now listed).Failed := by
  have hnil : listed ≠ [] := by
    rintro rfl
    exact hrefused ⟨Nat.zero_le _, fun _ h => by cases h⟩
  rw [beginCall, length_values, if_neg hnil, storable_values]
  by_cases hlong : maxParameters < listed.length * 11
  · rw [if_pos hlong]
    exact ⟨_, rfl⟩
  · have hstored : listed.all (fun entry => entry.2.storable) = false := by
      rw [Bool.eq_false_iff]
      exact fun hall => hrefused
        ⟨parameters_le_iff.mp (not_lt.mp hlong), List.all_eq_true.mp hall⟩
    rw [if_neg hlong, hstored]
    exact ⟨_, rfl⟩

/-- The next row's key has no room in the index. -/
theorem insertRow_failed {i : ℕ} {call : Call} {row : ChapterRow} {rest : List ChapterRow}
    (hget : s.calls[i]? = some call)
    (hrefused : ¬ ((s.conflicting row).isSome ∨ indexable row.externalKey = true)) :
    (s.insertRow indexable i call row rest).Failed := by
  obtain ⟨hnone, hindexable⟩ := not_or.mp hrefused
  obtain ⟨hlt, -⟩ := List.getElem?_eq_some_iff.mp hget
  rw [Option.not_isSome_iff_eq_none] at hnone
  rw [Bool.not_eq_true] at hindexable
  simp only [State.insertRow, hnone, hindexable, Bool.not_false, ↓reduceIte]
  exact ⟨_, List.mem_set hlt _, _, rfl⟩

/-- A step keeps the calls sound if the database takes what it sends and it gives up none, and else
fails a call. -/
theorem Sound.step (h : Sound manga before s) (hmanga : ∃ m ∈ mangas.rows, m.id = manga)
    {a : Action} (ha : step indexable mangas manga s a = some t) :
    (Taken indexable s a ∧ ¬ GivenUp a → Sound manga before t) ∧
      (¬ (Taken indexable s a ∧ ¬ GivenUp a) → t.Failed) := by
  obtain ⟨listed, now, rfl, hunused, rfl⟩ | ⟨i, call, row, rest, rfl, hget, hresult, hrest, rfl⟩ |
    ⟨i, call, rfl, hget, hresult, hrest, rfl⟩ | ⟨i, call, rfl, hget, hresult, -, rfl⟩ :=
    step_cases ha
  · refine ⟨fun ⟨htaken, _⟩ => h.begin now hunused (parameters_le_iff.mpr htaken.sized)
      htaken.storable, fun hrefused => ?_⟩
    refine ⟨_, List.mem_append_right _ (List.mem_singleton_self _), beginCall_failed now ?_⟩
    exact fun hmeets => hrefused ⟨⟨hmeets.1, hmeets.2, trivial⟩, not_false⟩
  · have hentered : Entered indexable s (.row i) ↔
        (s.conflicting row).isSome ∨ indexable row.externalKey = true := by
      simp [Entered, hget, hrest]
    refine ⟨fun ⟨htaken, _⟩ => h.insertRow hget hresult hrest (hentered.mp htaken.entered),
      fun hrefused => insertRow_failed hget fun hmeets => hrefused ?_⟩
    exact ⟨⟨trivial, trivial, hentered.mpr hmeets⟩, not_false⟩
  · exact ⟨fun _ => h.commit hmanga hget hrest,
      fun hnot => absurd ⟨⟨trivial, trivial, trivial⟩, not_false⟩ hnot⟩
  · obtain ⟨hlt, -⟩ := List.getElem?_eq_some_iff.mp hget
    exact ⟨fun hgiven => absurd trivial hgiven.2, fun _ => ⟨_, List.mem_set hlt _, _, rfl⟩⟩

/-- A call in flight is replaced; one that failed stays. -/
theorem State.Failed.set {i : ℕ} {call call' : Call} {chapters : ChapterTable} (h : s.Failed)
    (hget : s.calls[i]? = some call) (hresult : call.result = none) :
    State.Failed ⟨chapters, s.calls.set i call'⟩ := by
  obtain ⟨c, hc, e, he⟩ := h
  obtain ⟨j, hj⟩ := List.getElem?_of_mem hc
  have hij : i ≠ j := by
    rintro rfl
    rw [hget] at hj
    cases hj
    rw [hresult] at he
    cases he
  refine ⟨c, List.mem_of_getElem? (i := j) ?_, e, he⟩
  rw [List.getElem?_set_ne hij]
  exact hj

theorem State.Failed.step (h : s.Failed) {a : Action}
    (ha : step indexable mangas manga s a = some t) :
    t.Failed := by
  obtain ⟨listed, now, rfl, -, rfl⟩ | ⟨i, call, row, rest, rfl, hget, hresult, -, rfl⟩ |
    ⟨i, call, rfl, hget, hresult, -, rfl⟩ | ⟨i, call, rfl, hget, hresult, -, rfl⟩ := step_cases ha
  · obtain ⟨c, hc, hfailed⟩ := h
    exact ⟨c, List.mem_append_left _ hc, hfailed⟩
  · unfold State.insertRow
    split
    · exact h.set hget hresult
    · split
      · exact h.set hget hresult
      · split
        · exact h.set hget hresult
        · exact h.set hget hresult
  · unfold State.commit
    split
    · exact h.set hget hresult
    · exact h.set hget hresult
  · exact h.set hget hresult

section Alone
variable {i : ℕ}

/-- No other call is in flight. -/
def State.Alone (s : State) (i : ℕ) : Prop := ∀ j r, j ≠ i → ¬ s.Holds j r

theorem State.Alone.waitsFor (h : s.Alone i) : s.waitsFor i = none := by
  cases hwait : s.waitsFor i with
  | none => rfl
  | some j =>
    obtain ⟨call, hget, hj⟩ := Option.bind_eq_some_iff.mp hwait
    obtain ⟨row, hrow, hj⟩ := Option.bind_eq_some_iff.mp hj
    obtain ⟨r, hr, hj⟩ := Option.bind_eq_some_iff.mp hj
    have hholds := List.find?_some hj
    simp only [ne_eq, decide_eq_true_eq] at hholds
    exact absurd hholds.2 (h j r hholds.1)

theorem State.Alone.set (h : s.Alone i) (chapters : ChapterTable) (call : Call) :
    State.Alone ⟨chapters, s.calls.set i call⟩ i := by
  rintro j r hne ⟨c, hc, hholds⟩
  rw [List.getElem?_set_ne hne.symm] at hc
  exact h j r hne ⟨c, hc, hholds⟩

theorem hasChapter_eq_isSome (s : State) (row : ChapterRow) :
    hasChapter s.chapters row.mangaId row.externalKey = (s.conflicting row).isSome := by
  rw [hasChapter, State.conflicting, List.isSome_find?]

/-- A call that is alone inserts what the statement inserts by itself. -/
theorem exec_alone {draw : ℕ → ChapterId} {now : Time} {call : Call} {chapters : ChapterTable}
    {ids : List ChapterId} (entries : List (ChapterId × ListedChapter))
    (hget : s.calls[i]? = some call) (hresult : call.result = none) (halone : s.Alone i)
    (hrest : call.rest = entries.map fun e => e.2.toSourceChapter.row manga e.1 now)
    (hdraw : ∀ k e, entries[k]? = some e → e.1 = draw k)
    (hindexable : ∀ e ∈ entries, indexable e.2.key = true)
    (h : upsertChapters manga now (entries.map fun e => e.2.toSourceChapter) draw s.chapters =
      .ok (chapters, ids)) :
    ∃ call', exec (step indexable mangas manga) s (List.replicate entries.length (.row i)) =
        some ⟨chapters, s.calls.set i call'⟩ ∧ call'.rest = [] ∧ call'.result = none ∧
      call'.inserted = call.inserted ++ ids := by
  induction entries generalizing s call draw ids with
  | nil =>
    cases h
    obtain ⟨hlt, rfl⟩ := List.getElem?_eq_some_iff.mp hget
    exact ⟨s.calls[i], by simp, hrest, hresult, by simp⟩
  | cons e entries ih =>
    obtain ⟨hlt, -⟩ := List.getElem?_eq_some_iff.mp hget
    have hid : e.1 = draw 0 := hdraw 0 e rfl
    have hdraw' : ∀ k e, entries[k]? = some e → e.1 = draw (k + 1) := fun k e he =>
      hdraw (k + 1) e he
    have hindexable' : ∀ e ∈ entries, indexable e.2.key = true := fun e he =>
      hindexable e (List.mem_cons_of_mem _ he)
    rw [List.map_cons] at hrest h
    rw [upsertChapters] at h
    set row := e.2.toSourceChapter.row manga e.1 now with hrow
    have hstep : step indexable mangas manga s (.row i) = some (s.insertRow indexable i call row
        (entries.map fun e => e.2.toSourceChapter.row manga e.1 now)) := by
      simp [step, hget, hrest, hresult, halone.waitsFor]
    rw [List.length_cons, List.replicate_succ, exec_cons, hstep, Option.bind_some]
    have hhas : hasChapter s.chapters manga e.2.key = (s.conflicting row).isSome :=
      hasChapter_eq_isSome s row
    cases hconflict : s.conflicting row with
    | some r =>
      rw [hconflict, Option.isSome_some] at hhas
      rw [if_pos hhas] at h
      simp only [State.insertRow, hconflict]
      obtain ⟨call', hexec, hrest', hresult', hinserted⟩ := @ih _ _
        { call with
          done := call.done ++ [row]
          rest := entries.map fun e => e.2.toSourceChapter.row manga e.1 now
          found := if r.id ∈ call.inserted then call.found else row.externalKey :: call.found } _
        (List.getElem?_set_self hlt) hresult (halone.set s.chapters _) rfl hdraw' hindexable' h
      refine ⟨call', ?_, hrest', hresult', hinserted⟩
      rw [hexec, List.set_set]
    | none =>
      rw [hconflict, Option.isSome_none] at hhas
      rw [if_neg (by rw [hhas]; decide), ← hid] at h
      split at h
      · next hfree =>
        obtain ⟨⟨chapters', ids'⟩, htail, hids⟩ := Results.bind_eq_ok.mp h
        obtain ⟨rfl, rfl⟩ := Prod.mk.inj (Except.ok.inj hids)
        have hfree : s.chapters.Free row := hfree
        have hkey : indexable row.externalKey = true := hindexable e List.mem_cons_self
        simp only [State.insertRow, hconflict, hkey, hfree, Bool.not_true, Bool.false_eq_true,
          ↓reduceIte, ↓reduceDIte]
        obtain ⟨call', hexec, hrest', hresult', hinserted⟩ := @ih _ _
          { call with
            done := call.done ++ [row]
            rest := entries.map fun e => e.2.toSourceChapter.row manga e.1 now
            inserted := call.inserted ++ [row.id] } _
          (List.getElem?_set_self hlt) hresult (halone.set (s.chapters.insert row hfree) _) rfl
          hdraw' hindexable' htail
        refine ⟨call', ?_, hrest', hresult', ?_⟩
        · rw [hexec, List.set_set]
        · rw [hinserted]
          simp [hrow, SourceChapter.row]
      · cases h

end Alone

theorem sound_start (manga : MangaId) (before : ChapterTable) :
    Sound manga before ⟨before, []⟩ where
  kept _ hr := hr
  origin _ hr := .inl hr
  ids := List.nodup_nil
  call _ hcall := by cases hcall

/-- Whoever waits has its next key held by another call that goes on. -/
theorem of_waitsFor {i j : ℕ} (h : s.waitsFor i = some j) :
    ∃ call row rest r, s.calls[i]? = some call ∧ call.rest = row :: rest ∧
      s.conflicting row = some r ∧ j ≠ i ∧ s.Holds j r := by
  obtain ⟨call, hget, h⟩ := Option.bind_eq_some_iff.mp h
  obtain ⟨row, hrow, h⟩ := Option.bind_eq_some_iff.mp h
  obtain ⟨r, hr, h⟩ := Option.bind_eq_some_iff.mp h
  have hj := List.find?_some h
  simp only [ne_eq, decide_eq_true_eq] at hj
  cases hrest : call.rest with
  | nil => simp [hrest] at hrow
  | cons row' rest =>
    simp only [hrest, List.head?_cons, Option.some.injEq] at hrow
    subst hrow
    exact ⟨call, row', rest, r, hget, hrest, hr, hj⟩

section Ordered
variable {ρ : Type} [LinearOrder ρ] {rank : ExternalKey → ρ} {i j l : ℕ}

/-- The list follows an order of the keys. -/
def Ordered (rank : ExternalKey → ρ) (listed : List (ChapterId × ListedChapter)) : Prop :=
  listed.Pairwise fun e e' => rank e.2.key ≤ rank e'.2.key

/-- The rank of the key that a call comes to next. -/
def nextRank (rank : ExternalKey → ρ) (s : State) (i : ℕ) : WithBot ρ :=
  match s.calls[i]?.bind fun call => call.rest.head? with
  | some row => rank row.externalKey
  | none => ⊥

/-- A call that is waited for, and itself waits, is further on in the order. -/
theorem nextRank_lt (h : Sound manga before s) (hrank : rank.Injective)
    (hordered : ∀ call ∈ s.calls, Ordered rank call.listed) (hi : s.waitsFor i = some j)
    (hj : s.waitsFor j = some l) : nextRank rank s i < nextRank rank s j := by
  obtain ⟨call, row, rest, r, hget, hrest, hr, -, call', hget', -, hid⟩ := of_waitsFor hi
  obtain ⟨call₂, row', rest', r', hget₂, hrest', hr', hne, call'', hget'', -, hid'⟩ :=
    of_waitsFor hj
  rw [Option.mem_def] at hget' hget''
  obtain rfl : call' = call₂ := Option.some.inj (hget'.symm.trans hget₂)
  have hsound := h.call call (List.mem_of_getElem? hget)
  have hsound' := h.call call' (List.mem_of_getElem? hget')
  have hsound'' := h.call call'' (List.mem_of_getElem? hget'')
  obtain ⟨hmem, hmanga, hkey⟩ := State.mem_conflicting hr
  obtain ⟨hmem', hmanga', hkey'⟩ := State.mem_conflicting hr'
  -- the row that is waited for is one the second call has dealt with
  obtain ⟨d, hd, hdid, hdmem⟩ := hsound'.inserted r.id hid
  obtain rfl := primary_inj hdmem hmem hdid
  have hpairwise :
      ((call'.done ++ call'.rest).map fun r => rank r.externalKey).Pairwise (· ≤ ·) := by
    have hkeys := congrArg (List.map fun e => rank e.2) hsound'.rows
    simp only [List.map_map, Function.comp_def] at hkeys
    rw [← hkeys, List.pairwise_map]
    exact hordered call' (List.mem_of_getElem? hget')
  have hle : rank d.externalKey ≤ rank row'.externalKey := by
    rw [List.map_append, List.pairwise_append] at hpairwise
    exact hpairwise.2.2 _ (List.mem_map_of_mem hd) _ (List.mem_map_of_mem (by simp [hrest']))
  have hlt : rank row.externalKey < rank row'.externalKey := by
    refine lt_of_le_of_ne (hkey ▸ hle) fun heq => ?_
    have hseries := hsound.series row (by simp [hrest])
    have hseries' := hsound'.series row' (by simp [hrest'])
    have hsame : d = r' := eq_of_key hmem hmem'
      ((hmanga.trans hseries).trans (hmanga'.trans hseries').symm)
      ((hkey.trans (hrank heq)).trans hkey'.symm)
    subst hsame
    exact hne (h.eq_of_mem_ids hget'' hget' (hsound''.mem_ids_of_inserted hid')
      (hsound'.mem_ids_of_inserted hid))
  simpa [nextRank, hget, hget', hrest, hrest'] using hlt

/-- Along a chain of waiting calls the ranks grow. -/
theorem nextRank_lt_of_waitsAfter (h : Sound manga before s) (hrank : rank.Injective)
    (hordered : ∀ call ∈ s.calls, Ordered rank call.listed) (n : ℕ)
    (hchain : s.waitsAfter (n + 1) i = some j) (hj : s.waitsFor j = some l) :
    nextRank rank s i < nextRank rank s j := by
  induction n generalizing i with
  | zero =>
    obtain ⟨k, hk, hkj⟩ := Option.bind_eq_some_iff.mp hchain
    obtain rfl := Option.some.inj hkj
    exact nextRank_lt h hrank hordered hk hj
  | succ n ih =>
    obtain ⟨k, hk, hkj⟩ := Option.bind_eq_some_iff.mp hchain
    obtain ⟨k', hk', -⟩ := Option.bind_eq_some_iff.mp hkj
    exact (nextRank_lt h hrank hordered hk hk').trans (ih hkj)

/-- Lists in one order of the keys let no calls wait in a circle. -/
theorem not_inCircle (h : Sound manga before s) (hrank : rank.Injective)
    (hordered : ∀ call ∈ s.calls, Ordered rank call.listed) : ¬ s.InCircle i := by
  rintro ⟨n, -, hchain⟩
  obtain ⟨k, hk, -⟩ := Option.bind_eq_some_iff.mp hchain
  exact lt_irrefl _ (nextRank_lt_of_waitsAfter h hrank hordered n hchain hk)

/-- A call in flight that does not wait goes on. -/
theorem exists_step_of_waitsFor {call : Call} (hget : s.calls[i]? = some call)
    (hresult : call.result = none) (hwait : s.waitsFor i = none) :
    ∃ t, step indexable mangas manga s (.row i) = some t ∨
      step indexable mangas manga s (.commit i) = some t := by
  cases hrest : call.rest with
  | nil => exact ⟨s.commit mangas manga i call, .inr (by simp [step, hget, hresult, hrest])⟩
  | cons row rest =>
    exact ⟨s.insertRow indexable i call row rest,
      .inl (by simp [step, hget, hresult, hrest, hwait])⟩

/-- And while a call is in flight, the furthest one in the order goes on. -/
theorem exists_step (h : Sound manga before s) (hrank : rank.Injective)
    (hordered : ∀ call ∈ s.calls, Ordered rank call.listed)
    (hflight : ∃ call ∈ s.calls, call.result = none) :
    ∃ i t, step indexable mangas manga s (.row i) = some t ∨
      step indexable mangas manga s (.commit i) = some t := by
  let inFlight := (Finset.range s.calls.length).filter fun i =>
    ∃ call ∈ s.calls[i]?, call.result = none
  have hmem : ∀ {j : ℕ} {call : Call}, s.calls[j]? = some call → call.result = none →
      j ∈ inFlight := fun {j call} hget hresult => by
    obtain ⟨hlt, -⟩ := List.getElem?_eq_some_iff.mp hget
    exact Finset.mem_filter.mpr ⟨Finset.mem_range.mpr hlt, call, hget, hresult⟩
  obtain ⟨call, hcall, hresult⟩ := hflight
  obtain ⟨j, hj⟩ := List.getElem?_of_mem hcall
  obtain ⟨i, hi, hmax⟩ := inFlight.exists_max_image (nextRank rank s) ⟨j, hmem hj hresult⟩
  obtain ⟨call, hget, hresult⟩ := (Finset.mem_filter.mp hi).2
  cases hwait : s.waitsFor i with
  | none => exact ⟨i, exists_step_of_waitsFor hget hresult hwait⟩
  | some j =>
    obtain ⟨-, -, -, -, -, -, -, -, call', hget', hresult', -⟩ := of_waitsFor hwait
    cases hwait' : s.waitsFor j with
    | none => exact ⟨j, exists_step_of_waitsFor hget' hresult' hwait'⟩
    | some l =>
      exact absurd (nextRank_lt h hrank hordered hwait hwait')
        (not_lt.mpr (hmax j (hmem hget' hresult')))

/-- The list of a call that is begun follows the order. -/
def OrderedStep (rank : ExternalKey → ρ) : Action → Prop
  | .begin listed _ => Ordered rank listed
  | .row _ | .commit _ | .deadlock _ => True

instance (a : Action) : Decidable (OrderedStep rank a) := by
  cases a <;> unfold OrderedStep Ordered <;> infer_instance

/-- The lists of the calls stay as they are. -/
theorem ordered_step (hordered : ∀ call ∈ s.calls, Ordered rank call.listed) {a : Action}
    (ha : step indexable mangas manga s a = some t) (hstep : OrderedStep rank a) :
    ∀ call ∈ t.calls, Ordered rank call.listed := by
  have hset : ∀ {i : ℕ} {call call' : Call}, s.calls[i]? = some call →
      call'.listed = call.listed → ∀ c ∈ s.calls.set i call', Ordered rank c.listed :=
    fun {i call call'} hget hlisted c hc => by
      rcases List.mem_or_eq_of_mem_set hc with hc | rfl
      · exact hordered c hc
      · exact hlisted ▸ hordered call (List.mem_of_getElem? hget)
  obtain ⟨listed, now, rfl, -, rfl⟩ | ⟨i, call, row, rest, rfl, hget, -, -, rfl⟩ |
    ⟨i, call, rfl, hget, -, -, rfl⟩ | ⟨i, call, rfl, hget, -, -, rfl⟩ := step_cases ha
  · intro c hc
    rcases List.mem_append.mp hc with hc | hc
    · exact hordered c hc
    · obtain rfl := List.mem_singleton.mp hc
      have hlisted : (beginCall manga now listed).listed = listed := by
        simp only [beginCall, endedCall]
        split_ifs <;> rfl
      rw [hlisted]
      exact hstep
  · unfold State.insertRow
    split
    · exact hset hget rfl
    · split
      · exact hset hget rfl
      · split
        · exact hset hget rfl
        · exact hset hget rfl
  · unfold State.commit
    split
    · exact hset hget rfl
    · exact hset hget rfl
  · exact hset hget rfl

end Ordered

/-- Calls for a series that exists report its new chapters exactly once and succeed, as long as the
database takes what they send and no call is given up. None has to be given up where all lists
follow one order of the keys, and then the calls come to their ends. -/
theorem upsert_exact_iff (indexable : ExternalKey → Bool) (hmanga : ∃ m ∈ mangas.rows, m.id = manga)
    (before : ChapterTable) (as : List Action) :
    (Always (step indexable mangas manga) (Exact manga before) ⟨before, []⟩ as ↔
      Each (step indexable mangas manga) (fun s a => Taken indexable s a ∧ ¬ GivenUp a)
        ⟨before, []⟩ as) ∧
    ∀ (ρ : Type) (_ : LinearOrder ρ) (rank : ExternalKey → ρ), rank.Injective →
      Each (step indexable mangas manga) (fun s a => Taken indexable s a ∧ OrderedStep rank a)
        ⟨before, []⟩ as →
      Always (step indexable mangas manga) (fun s => Exact manga before s ∧ (∀ i, ¬ s.InCircle i) ∧
        ((∃ call ∈ s.calls, call.result = none) → ∃ i t,
          step indexable mangas manga s (.row i) = some t ∨
          step indexable mangas manga s (.commit i) = some t)) ⟨before, []⟩ as := by
  constructor
  · refine always_iff_each (I := fun s => s.Failed ∨ Sound manga before s) ?_ ?_ as
      (.inr (sound_start manga before)) (sound_start manga before).exact
    · rintro s a t (hfailed | hsound) ha
      · exact .inl (hfailed.step ha)
      · by_cases hmeets : Taken indexable s a ∧ ¬ GivenUp a
        · exact .inr ((hsound.step hmanga ha).1 hmeets)
        · exact .inl ((hsound.step hmanga ha).2 hmeets)
    · rintro s a t hI hexact ha
      obtain hsound := hI.resolve_left hexact.accepted
      constructor
      · intro ht
        by_contra hmeets
        exact ht.accepted ((hsound.step hmanga ha).2 hmeets)
      · exact fun hmeets => ((hsound.step hmanga ha).1 hmeets).exact
  · intro ρ _ rank hrank heach
    have hall : Always (step indexable mangas manga) (fun s => Sound manga before s ∧
        ∀ call ∈ s.calls, Ordered rank call.listed) ⟨before, []⟩ as := by
      refine Always.of_each ?_ ⟨sound_start manga before, by simp⟩ heach
      rintro s a t ⟨hsound, hordered⟩ ⟨htaken, hstep⟩ ha
      refine ⟨(hsound.step hmanga ha).1 ⟨htaken, ?_⟩, ordered_step hordered ha hstep⟩
      cases a with
      | deadlock i =>
        obtain ⟨call, -, ha⟩ := Option.bind_eq_some_iff.mp ha
        obtain ⟨⟨-, hcircle⟩, -⟩ := Option.ite_none_right_eq_some.mp ha
        exact absurd hcircle (not_inCircle hsound hrank hordered)
      | _ => exact not_false
    refine hall.imp fun s hs => ?_
    obtain ⟨hsound, hordered⟩ := hs
    exact ⟨hsound.exact, fun i => not_inCircle hsound hrank hordered,
      exists_step hsound hrank hordered⟩

/-- A run that ends with a failed call is not exact throughout. -/
theorem not_exact_of_failed {as : List Action} {e : DomainError}
    (h : ∃ t, exec (step indexable mangas manga) ⟨before, []⟩ as = some t ∧
      t.calls.any (fun call => decide (call.result = some (.error e))) = true) :
    ¬ Always (step indexable mangas manga) (Exact manga before) ⟨before, []⟩ as := by
  obtain ⟨t, ht, hfailed⟩ := h
  obtain ⟨call, hcall, hresult⟩ := List.any_eq_true.mp hfailed
  exact not_always_of_exec ht fun hexact : Exact manga before t =>
    hexact.accepted ⟨call, hcall, e, of_decide_eq_true hresult⟩

end Run

def onePiece : MangaRow :=
  ⟨⟨⟨3⟩, ⟨2⟩, "one-piece", "One Piece", .rightToLeft⟩, .ongoing, 0, 0⟩

def oneManga : MangaTable := Table.empty.insert onePiece (by simp [Table.Free])

def numbered (n : ℕ) : ChapterId × ListedChapter :=
  (⟨BitVec.ofNat 128 n⟩, ⟨⟨toString n, none, none⟩, none, none, [], none, none, false⟩)

/-- Two calls that list two new chapters in opposite orders. -/
def crossed : List Action :=
  [.begin [numbered 1, numbered 2] 0,
    .begin [(⟨3⟩, (numbered 2).2), (⟨4⟩, (numbered 1).2)] 0, .row 0, .row 1, .deadlock 0]

/-- Keys for which an index entry has room, whatever they are compressed to. -/
def shortKey (key : ExternalKey) : Bool := key.utf8ByteSize ≤ 2600

/-- A chapter whose title has a U+0000. -/
def untitled : ChapterId × ListedChapter :=
  ((numbered 1).1, { (numbered 1).2 with title := some "\x00" })

/-- A list of 5958 chapters is refused, one with a title that cannot be stored, and the second call
where lists cross. -/
theorem long_list_refused :
    ¬ Always (step shortKey oneManga ⟨3⟩) (Exact ⟨3⟩ .empty) ⟨.empty, []⟩
        [.begin ((List.range 5958).map numbered) 0] ∧
      ¬ Always (step shortKey oneManga ⟨3⟩) (Exact ⟨3⟩ .empty) ⟨.empty, []⟩ [.begin [untitled] 0] ∧
      ¬ Always (step shortKey oneManga ⟨3⟩) (Exact ⟨3⟩ .empty) ⟨.empty, []⟩ crossed := by
  refine ⟨fun h => ?_, fun h => ?_, fun h => ?_⟩
  · have hnodup : (((List.range 5958).map numbered).map Prod.fst).Nodup := by
      rw [List.map_map]
      refine List.Nodup.map_on (fun a ha b hb hab => ?_) List.nodup_range
      have hid := congrArg (fun id => BitVec.toNat id.uuid) hab
      simp only [Function.comp_def, numbered, BitVec.toNat_ofNat] at hid
      rw [List.mem_range] at ha hb
      omega
    have hstep := @step_begin shortKey oneManga ⟨3⟩ ⟨.empty, []⟩ _ 0 ⟨hnodup, by simp, by simp⟩
    refine (h.2 _ hstep).accepted (((sound_start _ _).step ⟨onePiece, List.mem_cons_self, rfl⟩
      hstep).2 fun hmeets => ?_)
    have hlength : ((List.range 5958).map numbered).length ≤ 5957 := hmeets.1.sized
    rw [List.length_map, List.length_range] at hlength
    omega
  · refine not_exact_of_failed (e := .storage "a parameter cannot be stored") ?_ h
    exact exists_exec (by decide)
  · refine not_exact_of_failed (e := .storage "deadlock detected") ?_ h
    exact exists_exec (by decide)

/-- Two calls that list the same chapter, the second of which waits for the first. -/
def shared : List Action :=
  [.begin [numbered 1, numbered 2] 0, .begin [(⟨3⟩, (numbered 2).2)] 0, .row 0, .row 0, .commit 0,
    .row 1, .commit 1]

theorem shared_exact :
    Always (step shortKey oneManga ⟨3⟩) (Exact ⟨3⟩ .empty) ⟨.empty, []⟩ shared ∧
      Always (step shortKey oneManga ⟨3⟩) (fun s => ∀ i, ¬ s.InCircle i) ⟨.empty, []⟩ shared := by
  have hexact := @upsert_exact_iff oneManga ⟨3⟩ shortKey ⟨onePiece, List.mem_cons_self, rfl⟩ .empty
    shared
  have hmeets := @Each.of_check _ _ (step shortKey oneManga ⟨3⟩)
    (fun s a => Taken shortKey s a ∧ ¬ GivenUp a)
    (fun s a => decide (Taken shortKey s a ∧ ¬ GivenUp a)) (fun _ _ h => of_decide_eq_true h)
    ⟨.empty, []⟩ shared (by decide)
  have hordered := @Each.of_check _ _ (step shortKey oneManga ⟨3⟩)
    (fun s a => Taken shortKey s a ∧ OrderedStep id a)
    (fun s a => decide (Taken shortKey s a ∧ OrderedStep id a)) (fun _ _ h => of_decide_eq_true h)
    ⟨.empty, []⟩ shared (by decide)
  exact ⟨hexact.1.mpr hmeets,
    (hexact.2 String inferInstance id Function.injective_id hordered).imp fun s hs => hs.2.1⟩

end Upserts

end Nyuka.Persistence
