import Mathlib.Data.List.DropRight
import Mathlib.Data.List.GetD
import Nyuka.Foundation.NearestRank
import Nyuka.Jobs.Reports

/-! The counters behind the two objectives: what a window records, the snapshot it is taken as, and
the latency percentiles in it. -/
namespace Nyuka
namespace Metrics
open Engine (Outcome)
open NearestRank

/-- How many duration samples one window keeps. -/
def maxSamples : ℕ := 4096

/-- One window's summary. -/
structure Snapshot where
  windowSecs : ℕ
  jobsSucceeded : ℕ
  jobsFailedService : ℕ
  jobsFailedSource : ℕ
  ttfpSamples : ℕ
  ttfpP50Ms : ℕ
  ttfpP95Ms : ℕ
  ttfpMaxMs : ℕ
  ttfpTruncated : Bool
deriving DecidableEq, Repr

/-- The outcomes counted, in numbers of 64 bits that no process lives to fill, and the milliseconds,
unsorted. -/
structure Window extends Engine.Window where
  ttfp : List ℕ
  truncated : Bool

def Window.new : Window := ⟨.empty, [], false⟩

/-- Records a job that finished. -/
def Window.record (window : Window) (outcome : Outcome) : Window :=
  { window with toWindow := window.toWindow.record outcome }

/-- Records a time, in nanoseconds. -/
def Window.recordTimeToFirstPage (window : Window) (elapsed : ℕ) : Window :=
  if maxSamples ≤ window.ttfp.length then { window with truncated := true }
  else { window with ttfp := window.ttfp ++ [min (elapsed / 1000000) (2 ^ 64 - 1)] }

def sortUnstable (samples : List ℕ) : List ℕ := samples.mergeSort fun a b => decide (a ≤ b)

/-- The nearest-rank percentile of a sorted slice. -/
def percentile (sorted : List ℕ) (p : ℕ) : ℕ :=
  if sorted = [] then 0
  else
    let rank := max ((p * sorted.length + 99) / 100) 1
    sorted.getD (min rank sorted.length - 1) 0

/-- Takes the window's summary and starts a new one. -/
def Window.take (taken : Window) (windowSecs : ℕ) : Snapshot × Window :=
  let samples := sortUnstable taken.ttfp
  ({ windowSecs := windowSecs
     jobsSucceeded := taken.succeeded
     jobsFailedService := taken.failedService
     jobsFailedSource := taken.failedSource
     ttfpSamples := samples.length
     ttfpP50Ms := percentile samples 50
     ttfpP95Ms := percentile samples 95
     ttfpMaxMs := samples.getLast?.getD 0
     ttfpTruncated := taken.truncated }, .new)

section Percentiles
variable {samples : List ℕ} {p q : ℕ}

theorem sorted_sortUnstable (samples : List ℕ) : (sortUnstable samples).Pairwise (· ≤ ·) := by
  have h := @List.pairwise_mergeSort _ (fun a b : ℕ => decide (a ≤ b))
    (fun a b c hab hbc => by
      rw [decide_eq_true_eq] at hab hbc ⊢
      exact hab.trans hbc)
    (fun a b => by
      rw [Bool.or_eq_true, decide_eq_true_eq, decide_eq_true_eq]
      exact le_total a b) samples
  exact h.imp fun h => of_decide_eq_true h

theorem perm_sortUnstable (samples : List ℕ) : (sortUnstable samples).Perm samples :=
  List.mergeSort_perm _ _

theorem sortUnstable_ne_nil (h : samples ≠ []) : sortUnstable samples ≠ [] := fun hnil =>
  h (hnil ▸ perm_sortUnstable samples).nil_eq.symm

/-- Up to 100 percent no clamping takes place. -/
theorem percentile_eq_getElem {sorted : List ℕ} (hp : p ≤ 100)
    (hindex : rank p sorted.length - 1 < sorted.length) :
    percentile sorted p = sorted[rank p sorted.length - 1] := by
  have hne : sorted ≠ [] := by
    rintro rfl
    exact absurd hindex (Nat.not_lt_zero _)
  have hclamp : min (rank p sorted.length) sorted.length = rank p sorted.length :=
    Nat.min_eq_left (rank_le hp (List.length_pos_iff.mpr hne))
  rw [percentile, if_neg hne]
  change sorted.getD (min (rank p sorted.length) sorted.length - 1) 0 = _
  rw [hclamp, List.getD_eq_getElem]

theorem rank_index_lt {sorted : List ℕ} (hne : sorted ≠ []) (hp : p ≤ 100) :
    rank p sorted.length - 1 < sorted.length := by
  have hlength := List.length_pos_iff.mpr hne
  have hrank := rank_le hp hlength
  omega

/-- The percentile is the least sample with so much of the samples not above it. -/
theorem isLeast_percentile (hne : samples ≠ []) (hp : p ≤ 100) :
    IsLeast {x | x ∈ samples ∧ Covers p samples x} (percentile (sortUnstable samples) p) := by
  have hperm := perm_sortUnstable samples
  have hindex := rank_index_lt (sortUnstable_ne_nil hne) hp
  have hsame : {x | x ∈ samples ∧ Covers p samples x} =
      {x | x ∈ sortUnstable samples ∧ Covers p (sortUnstable samples) x} := by
    ext x
    simp only [Set.mem_ofPred_eq, Covers, hperm.mem_iff, hperm.length_eq, hperm.countP_eq]
  rw [hsame, percentile_eq_getElem hp hindex]
  exact isLeast_covers (sorted_sortUnstable samples) hindex

theorem percentile_mono (hpq : p ≤ q) :
    percentile (sortUnstable samples) p ≤ percentile (sortUnstable samples) q := by
  unfold percentile
  split
  · exact le_refl _
  · rename_i hne
    have hlength := List.length_pos_iff.mpr hne
    have hrank := @rank_mono p q (sortUnstable samples).length hpq
    change (sortUnstable samples).getD (min (rank p _) _ - 1) 0 ≤
      (sortUnstable samples).getD (min (rank q _) _ - 1) 0
    rw [List.getD_eq_getElem _ _ (by omega), List.getD_eq_getElem _ _ (by omega)]
    exact getElem_le_getElem (sorted_sortUnstable samples) (by omega) (by omega)

/-- The largest sample is the 100th percentile. -/
theorem getLast_eq_percentile (samples : List ℕ) :
    (sortUnstable samples).getLast?.getD 0 = percentile (sortUnstable samples) 100 := by
  by_cases hne : sortUnstable samples = []
  · simp [percentile, hne]
  · have hlength := List.length_pos_iff.mpr hne
    have hrank : rank 100 (sortUnstable samples).length = (sortUnstable samples).length := by
      unfold rank
      omega
    rw [percentile_eq_getElem (le_refl _) (rank_index_lt hne (le_refl _)),
      List.getLast?_eq_getElem?, List.getElem?_eq_getElem (by omega)]
    simp only [hrank, Option.getD_some]

end Percentiles

section Windows

/-- What is done to the metrics, one at a time under their lock. -/
inductive Op where
  | record (outcome : Outcome)
  | recordTimeToFirstPage (elapsed : ℕ)
  | take (windowSecs : ℕ)

/-- The open window, and the snapshots of those before it. -/
structure JobMetrics where
  window : Window
  snapshots : List Snapshot

def JobMetrics.act (s : JobMetrics) : Op → JobMetrics
  | .record outcome => { s with window := s.window.record outcome }
  | .recordTimeToFirstPage elapsed => { s with window := s.window.recordTimeToFirstPage elapsed }
  | .take windowSecs =>
    let (snapshot, window) := s.window.take windowSecs
    ⟨window, s.snapshots ++ [snapshot]⟩

def JobMetrics.run (ops : List Op) : JobMetrics := ops.foldl JobMetrics.act ⟨.new, []⟩

def Snapshot.count (s : Snapshot) : Outcome → ℕ
  | .succeeded => s.jobsSucceeded
  | .serviceFault => s.jobsFailedService
  | .sourceFault => s.jobsFailedSource

/-- How often an outcome was recorded. -/
def recorded (o : Outcome) (ops : List Op) : ℕ :=
  ops.countP fun
    | .record outcome => decide (outcome = o)
    | _ => false

/-- The times recorded, in whole milliseconds. -/
def times (ops : List Op) : List ℕ :=
  ops.filterMap fun
    | .recordTimeToFirstPage elapsed => some (min (elapsed / 1000000) (2 ^ 64 - 1))
    | _ => none

/-- What was done since the last window was closed. -/
def sinceTake (ops : List Op) : List Op :=
  ops.rtakeWhile fun
    | .take _ => false
    | _ => true

/-- What the closed windows and the open one have counted of an outcome. -/
def JobMetrics.counted (s : JobMetrics) (o : Outcome) : ℕ :=
  (s.snapshots.map fun snapshot => snapshot.count o).sum + s.window.count o

/-- What every snapshot promises of its percentiles. -/
structure Snapshot.Ordered (s : Snapshot) : Prop where
  p50_le_p95 : s.ttfpP50Ms ≤ s.ttfpP95Ms
  p95_le_max : s.ttfpP95Ms ≤ s.ttfpMaxMs
  bounded : s.ttfpSamples ≤ maxSamples

variable {s : JobMetrics} {o : Outcome}

@[simp] theorem count_take (window : Window) (windowSecs : ℕ) (o : Outcome) :
    (window.take windowSecs).1.count o = window.count o := by
  cases o <;> rfl

theorem ordered_take {window : Window} (h : window.ttfp.length ≤ maxSamples) (windowSecs : ℕ) :
    (window.take windowSecs).1.Ordered where
  p50_le_p95 := percentile_mono (by decide)
  p95_le_max := by
    change percentile (sortUnstable window.ttfp) 95 ≤ (sortUnstable window.ttfp).getLast?.getD 0
    rw [getLast_eq_percentile]
    exact percentile_mono (by decide)
  bounded := (perm_sortUnstable window.ttfp).length_eq.trans_le h

theorem length_recordTime {window : Window} (h : window.ttfp.length ≤ maxSamples) (elapsed : ℕ) :
    (window.recordTimeToFirstPage elapsed).ttfp.length ≤ maxSamples := by
  unfold Window.recordTimeToFirstPage
  split
  · exact h
  · rw [List.length_append, List.length_singleton]
    omega

/-- A step counts the outcome it records, and closing a window moves its counts. -/
theorem counted_act (s : JobMetrics) (op : Op) (o : Outcome) :
    (s.act op).counted o = s.counted o + recorded o [op] := by
  cases op with
  | record outcome =>
    have hcount := Engine.count_record s.window.toWindow outcome o
    change (s.snapshots.map _).sum + (s.window.toWindow.record outcome).count o = _
    rw [hcount, ← Nat.add_assoc]
    by_cases h : outcome = o <;> simp [JobMetrics.counted, recorded, h]
  | recordTimeToFirstPage elapsed =>
    have hsame : (s.window.recordTimeToFirstPage elapsed).count o = s.window.count o := by
      unfold Window.recordTimeToFirstPage
      split <;> rfl
    change (s.snapshots.map _).sum + (s.window.recordTimeToFirstPage elapsed).count o = _
    rw [hsame]
    simp [JobMetrics.counted, recorded]
  | take windowSecs =>
    have hnew : Window.new.count o = 0 := by cases o <;> rfl
    change ((s.snapshots ++ [(s.window.take windowSecs).1]).map _).sum + Window.new.count o = _
    rw [hnew, List.map_append, List.sum_append]
    simp [JobMetrics.counted, recorded, count_take]

@[simp] theorem recorded_append (o : Outcome) (ops more : List Op) :
    recorded o (ops ++ more) = recorded o ops + recorded o more := List.countP_append

@[simp] theorem counted_run (ops : List Op) (o : Outcome) :
    (JobMetrics.run ops).counted o = recorded o ops := by
  induction ops using List.reverseRecOn with
  | nil => cases o <;> rfl
  | append_singleton ops op ih =>
    rw [JobMetrics.run, List.foldl_append, List.foldl_cons, List.foldl_nil, ← JobMetrics.run,
      counted_act, ih, recorded_append]

/-- No window keeps more samples than it may, and every snapshot is in order. -/
theorem ordered_run (ops : List Op) : (JobMetrics.run ops).window.ttfp.length ≤ maxSamples ∧
    ∀ snapshot ∈ (JobMetrics.run ops).snapshots, snapshot.Ordered := by
  induction ops using List.reverseRecOn with
  | nil => exact ⟨Nat.zero_le _, fun _ h => absurd h List.not_mem_nil⟩
  | append_singleton ops op ih =>
    rw [JobMetrics.run, List.foldl_append, List.foldl_cons, List.foldl_nil, ← JobMetrics.run]
    cases op with
    | record outcome => exact ih
    | recordTimeToFirstPage elapsed => exact ⟨length_recordTime ih.1 elapsed, ih.2⟩
    | take windowSecs =>
      refine ⟨Nat.zero_le _, fun snapshot hsnapshot => ?_⟩
      rcases List.mem_append.mp hsnapshot with h | h
      · exact ih.2 snapshot h
      · exact List.mem_singleton.mp h ▸ ordered_take ih.1 windowSecs

@[simp] theorem times_append (ops more : List Op) : times (ops ++ more) = times ops ++ times more :=
  List.filterMap_append

/-- What is added to a list that is kept up to a length is left out once it has this length. -/
theorem take_concat {α : Type} (l : List α) (x : α) (n : ℕ) :
    (l ++ [x]).take n = if n ≤ (l.take n).length then l.take n else l.take n ++ [x] := by
  rw [List.length_take]
  split
  · next hfull => rw [List.take_append_of_le_length (by omega)]
  · next hroom =>
    have hle : l.length + 1 ≤ n := by omega
    rw [List.take_of_length_le (by simpa using hle), List.take_of_length_le (by omega)]

/-- The open window holds the first of the times recorded since the last one was closed, and
counts the outcomes since then. -/
theorem window_run (ops : List Op) :
    (JobMetrics.run ops).window.ttfp = (times (sinceTake ops)).take maxSamples ∧
      ∀ o, (JobMetrics.run ops).window.count o = recorded o (sinceTake ops) := by
  induction ops using List.reverseRecOn with
  | nil => exact ⟨rfl, fun o => by cases o <;> rfl⟩
  | append_singleton ops op ih =>
    obtain ⟨htimes, hcounts⟩ := ih
    rw [JobMetrics.run, List.foldl_append, List.foldl_cons, List.foldl_nil, ← JobMetrics.run]
    cases op with
    | record outcome =>
      have hsince : sinceTake (ops ++ [.record outcome]) = sinceTake ops ++ [.record outcome] :=
        List.rtakeWhile_concat_pos _ _ _ rfl
      rw [hsince]
      refine ⟨?_, fun o => ?_⟩
      · rw [times_append, show times [Op.record outcome] = [] from rfl, List.append_nil]
        exact htimes
      · have hcount := Engine.count_record (JobMetrics.run ops).window.toWindow outcome o
        rw [recorded_append, ← hcounts]
        refine hcount.trans (congrArg _ ?_)
        by_cases h : outcome = o <;> simp [recorded, h]
    | recordTimeToFirstPage elapsed =>
      have hsince : sinceTake (ops ++ [.recordTimeToFirstPage elapsed]) =
          sinceTake ops ++ [.recordTimeToFirstPage elapsed] := List.rtakeWhile_concat_pos _ _ _ rfl
      rw [hsince]
      refine ⟨?_, fun o => ?_⟩
      · rw [times_append, show times [Op.recordTimeToFirstPage elapsed] =
          [min (elapsed / 1000000) (2 ^ 64 - 1)] from rfl, take_concat, ← htimes]
        change (Window.recordTimeToFirstPage _ _).ttfp = _
        unfold Window.recordTimeToFirstPage
        split <;> rfl
      · have hsame : ((JobMetrics.run ops).window.recordTimeToFirstPage elapsed).count o =
            (JobMetrics.run ops).window.count o := by
          unfold Window.recordTimeToFirstPage
          split <;> rfl
        rw [recorded_append, ← hcounts]
        exact hsame
    | take windowSecs =>
      have hsince : sinceTake (ops ++ [.take windowSecs]) = [] :=
        List.rtakeWhile_concat_neg _ _ _ Bool.false_ne_true
      rw [hsince]
      exact ⟨rfl, fun o => by cases o <;> rfl⟩

/-- A snapshot tells what was done since the one before it: the outcomes counted, and the
percentiles of the times that the window had room for. -/
structure Snapshot.Sums (s : Snapshot) (ops : List Op) (kept : List ℕ) : Prop where
  counts : ∀ o, s.count o = recorded o ops
  samples : s.ttfpSamples = kept.length
  p50 : s.ttfpP50Ms = percentile (sortUnstable kept) 50
  p95 : s.ttfpP95Ms = percentile (sortUnstable kept) 95
  max : s.ttfpMaxMs = percentile (sortUnstable kept) 100

/-- The window that is closed is summed up, and the next one is empty. -/
theorem sums_take (ops : List Op) (windowSecs : ℕ) :
    ((JobMetrics.run ops).window.take windowSecs).1.Sums (sinceTake ops)
      ((times (sinceTake ops)).take maxSamples) := by
  obtain ⟨htimes, hcounts⟩ := window_run ops
  rw [← htimes]
  exact {
    counts := fun o => (count_take _ windowSecs o).trans (hcounts o)
    samples := (perm_sortUnstable _).length_eq
    p50 := rfl
    p95 := rfl
    max := getLast_eq_percentile _ }

/-- Percentiles are nearest-rank, monotone and in order in every snapshot, none of which has so many
samples that a product of 64 bits overflows; the windows together count every outcome that was
recorded, and each snapshot sums its own window up, behind which an empty one is opened. -/
theorem percentiles_and_counts :
    (∀ samples : List ℕ, samples ≠ [] → ∀ p, 1 ≤ p → p ≤ 100 →
      IsLeast {x | x ∈ samples ∧
          p * samples.length ≤ 100 * samples.countP fun y => decide (y ≤ x)}
        (percentile (sortUnstable samples) p)) ∧
    (∀ (samples : List ℕ) (p q : ℕ), p ≤ q →
      percentile (sortUnstable samples) p ≤ percentile (sortUnstable samples) q) ∧
    (∀ ops : List Op,
      (∀ s ∈ (JobMetrics.run ops).snapshots, s.ttfpP50Ms ≤ s.ttfpP95Ms ∧
        s.ttfpP95Ms ≤ s.ttfpMaxMs ∧ 100 * s.ttfpSamples < 2 ^ 64) ∧
      ∀ o, ((JobMetrics.run ops).snapshots.map fun s => s.count o).sum +
        (JobMetrics.run ops).window.count o = recorded o ops) ∧
    ∀ (ops : List Op) (windowSecs : ℕ), ∃ snapshot : Snapshot,
      JobMetrics.run (ops ++ [.take windowSecs]) =
        ⟨.new, (JobMetrics.run ops).snapshots ++ [snapshot]⟩ ∧
      snapshot.windowSecs = windowSecs ∧
      snapshot.Sums (sinceTake ops) ((times (sinceTake ops)).take maxSamples) := by
  refine ⟨fun samples hne p _ hp => isLeast_percentile hne hp,
    fun samples p q hpq => percentile_mono hpq, fun ops => ⟨fun s hs => ?_, counted_run ops⟩,
    fun ops windowSecs => ⟨((JobMetrics.run ops).window.take windowSecs).1, ?_, rfl,
      sums_take ops windowSecs⟩⟩
  · have hordered := (ordered_run ops).2 s hs
    refine ⟨hordered.p50_le_p95, hordered.p95_le_max, ?_⟩
    have := hordered.bounded
    unfold maxSamples at this
    omega
  · rw [JobMetrics.run, List.foldl_append, List.foldl_cons, List.foldl_nil, ← JobMetrics.run]
    rfl

/-- Five times to a first page, and how two jobs ended. -/
def fiveTimes : List Op :=
  [100, 300, 500, 900, 50000].map (fun ms => .recordTimeToFirstPage (ms * 1000000)) ++
    [.record .succeeded, .record .sourceFault]

/-- The window is closed and another job succeeds. -/
theorem fiveTimes_snapshot : ∃ snapshot : Snapshot,
    JobMetrics.run (fiveTimes ++ [.take 60]) = ⟨.new, [snapshot]⟩ ∧
      snapshot.ttfpP50Ms = 500 ∧ (∀ x ∈ [100, 300, 500, 900, 50000], 50 * 5 ≤ 100 *
        [100, 300, 500, 900, 50000].countP (fun y => decide (y ≤ x)) → 500 ≤ x) ∧
      snapshot.ttfpP50Ms ≤ snapshot.ttfpP95Ms ∧ snapshot.count .succeeded = 1 ∧
      ((JobMetrics.run (fiveTimes ++ [.take 60, .record .succeeded])).snapshots.map fun s =>
          s.count .succeeded).sum +
        (JobMetrics.run (fiveTimes ++ [.take 60, .record .succeeded])).window.count .succeeded =
          2 := by
  obtain ⟨hleast, hmono, hrun, htaken⟩ := percentiles_and_counts
  obtain ⟨snapshot, hsnapshot, -, hsums⟩ := htaken fiveTimes 60
  have htimes : (times (sinceTake fiveTimes)).take maxSamples = [100, 300, 500, 900, 50000] := rfl
  have hsorted : sortUnstable [100, 300, 500, 900, 50000] = [100, 300, 500, 900, 50000] :=
    List.mergeSort_of_pairwise (by decide)
  rw [htimes] at hsums
  have hp50 : percentile (sortUnstable [100, 300, 500, 900, 50000]) 50 = 500 := by
    rw [hsorted]
    decide
  have hleast := hleast [100, 300, 500, 900, 50000] (by decide) 50 (by decide) (by decide)
  rw [hp50] at hleast
  refine ⟨snapshot, hsnapshot, hsums.p50.trans hp50, fun x hx hcovers => hleast.2 ⟨hx, hcovers⟩, ?_,
    hsums.counts .succeeded, (hrun _).2 .succeeded⟩
  rw [hsums.p50, hsums.p95]
  exact hmono _ 50 95 (by decide)

end Windows

end Metrics
end Nyuka
