import Nyuka.Domain.Library
import Mathlib.Data.Rat.Defs
import Mathlib.Logic.Function.Basic

/-! The progress a browser tab shows for jobs. It has no endpoint to be fetched from: it is what the
events have said. -/
namespace Nyuka

/-- What the server publishes. -/
inductive JobEvent where
  | jobProgress (jobId : JobId) (done total bytes : ℕ)
  | jobState (jobId : JobId) (state : JobState)
  | chapterNew (mangaId : MangaId) (chapterId : ChapterId)
  | chapterDownloaded (mangaId : MangaId) (chapterId : ChapterId)
  | sourceUpdated (sourceId : SourceId)
deriving DecidableEq, Repr

/-- The name under which a state is serialized. -/
def JobState.variant : JobState → String
  | .queued => "Queued"
  | .running => "Running"
  | .succeeded => "Succeeded"
  | .failed => "Failed"
  | .cancelled => "Cancelled"

namespace Web

structure Progress where
  done : ℕ
  total : ℕ
  bytes : ℕ
  bytesPerSecond : Option ℚ

/-- A byte count and the millisecond it was seen at. -/
structure Sample where
  bytes : ℕ
  seen : ℤ

/-- The progress store of a tab. -/
structure Client where
  progress : JobId → Option Progress
  lastSample : JobId → Option Sample

def Client.empty : Client := ⟨fun _ => none, fun _ => none⟩

/-- Bytes per second since the previous sample. A count that went backwards belongs to a restarted
attempt. -/
def speed (bytes : ℕ) (now : ℤ) (previous : Sample) : Option ℚ :=
  let elapsed : ℚ := (now - previous.seen : ℤ) / 1000
  if 0 < elapsed ∧ previous.bytes ≤ bytes then some ((bytes - previous.bytes : ℕ) / elapsed)
  else none

def Client.recordProgress (c : Client) (job : JobId) (done total bytes : ℕ) (now : ℤ) :
    Client where
  progress := Function.update c.progress job
    (some ⟨done, total, bytes, (c.lastSample job).bind (speed bytes now)⟩)
  lastSample := Function.update c.lastSample job (some ⟨bytes, now⟩)

/-- Drops a job's progress. -/
def Client.clearProgress (c : Client) (job : JobId) : Client :=
  match c.progress job with
  | none => c
  | some _ => ⟨Function.update c.progress job none, Function.update c.lastSample job none⟩

/-- Job states a job does not come back from. -/
def terminal : List String := ["Succeeded", "Failed", "Cancelled"]

/-- What an event does to the store; what it makes stale in the query cache is not kept here. -/
def Client.applyEvent (c : Client) (now : ℤ) : JobEvent → Client
  | .jobProgress job done total bytes => c.recordProgress job done total bytes now
  | .jobState job state => if state.variant ∈ terminal then c.clearProgress job else c
  | _ => c

/-- A message of the event stream. -/
inductive Message where
  | event (e : JobEvent)
  | lagged (missed : ℕ)

def Message.event? : Message → Option JobEvent
  | event e => some e
  | lagged _ => none

/-- A lagged message invalidates the query cache, as every (re)connection does, and leaves the
store. -/
def Client.receive (c : Client) (now : ℤ) : Message → Client
  | .event e => c.applyEvent now e
  | .lagged _ => c

/-- The event tells that the job has ended. -/
def Ends (job : JobId) : JobEvent → Prop
  | .jobState id state => id = job ∧ state.variant ∈ terminal
  | _ => False

instance decidableEnds (job : JobId) (e : JobEvent) : Decidable (Ends job e) := by
  cases e <;> unfold Ends <;> infer_instance

/-- The event tells how far the job is. -/
def Tells (job : JobId) (e : JobEvent) : Prop :=
  ∃ done total bytes, e = .jobProgress job done total bytes

/-- Whether the job has an entry after an event, if it had one before or not. -/
def stands (job : JobId) (standing : Bool) : JobEvent → Bool
  | .jobProgress id _ _ _ => standing || id = job
  | .jobState id state => standing && !decide (id = job ∧ state.variant ∈ terminal)
  | _ => standing

theorem receive_isSome (c : Client) (now : ℤ) (m : Message) (job : JobId) :
    ((c.receive now m).progress job).isSome =
      m.event?.toList.foldl (stands job) (c.progress job).isSome := by
  cases m with
  | lagged missed => rfl
  | event e =>
    show ((c.applyEvent now e).progress job).isSome = stands job (c.progress job).isSome e
    cases e with
    | jobProgress id done total bytes =>
      by_cases hid : id = job
      · subst hid
        simp [Client.applyEvent, Client.recordProgress, stands]
      · simp [Client.applyEvent, Client.recordProgress, stands, hid,
          Function.update_of_ne (Ne.symm hid)]
    | jobState id state =>
      by_cases hstate : state.variant ∈ terminal
      · simp only [Client.applyEvent, hstate, if_true, stands, and_true, Client.clearProgress]
        by_cases hid : id = job
        · subst hid
          cases hprogress : c.progress id <;> simp [hprogress]
        · cases c.progress id <;> simp [hid, Function.update_of_ne (Ne.symm hid)]
      · simp [Client.applyEvent, stands, hstate]
    | _ => rfl

theorem stands_of_not_ends {job : JobId} {e : JobEvent} (h : ¬ Ends job e) :
    stands job true e = true := by
  cases e with
  | jobState id state =>
    have hothers : ¬ (id = job ∧ state.variant ∈ terminal) := h
    simp only [stands, hothers, decide_false, Bool.not_false, Bool.and_self]
  | _ => rfl

theorem stands_of_ends {job : JobId} {e : JobEvent} (h : Ends job e) (standing : Bool) :
    stands job standing e = false := by
  cases e with
  | jobState id state =>
    obtain ⟨rfl, hstate⟩ := h
    simp [stands, hstate]
  | _ => cases h

theorem stands_of_tells {job : JobId} {e : JobEvent} (h : Tells job e) (standing : Bool) :
    stands job standing e = true := by
  obtain ⟨done, total, bytes, rfl⟩ := h
  simp [stands]

theorem standing_of_stands {job : JobId} {e : JobEvent} {standing : Bool}
    (h : stands job standing e = true) : standing = true ∨ Tells job e := by
  cases e with
  | jobProgress id done total bytes =>
    rcases (Bool.or_eq_true _ _).mp h with h | h
    · exact .inl h
    · exact .inr ⟨done, total, bytes, by rw [of_decide_eq_true h]⟩
  | jobState id state => exact .inl (Bool.and_eq_true_iff.mp h).1
  | _ => exact .inl h

/-! What a list of events leaves. -/

variable {job : JobId} {events : List JobEvent}

/-- An entry survives events of which none ends its job. -/
theorem foldl_stands_of_not_ends (h : ∀ e ∈ events, ¬ Ends job e) :
    events.foldl (stands job) true = true := by
  induction events with
  | nil => rfl
  | cons e events ih =>
    rw [List.foldl_cons, stands_of_not_ends (h e List.mem_cons_self)]
    exact ih fun e' he' => h e' (List.mem_cons_of_mem e he')

/-- Events of which none is progress of the job create no entry for it. -/
theorem standing_of_foldl {standing : Bool} (hnone : ∀ e ∈ events, ¬ Tells job e)
    (h : events.foldl (stands job) standing = true) : standing = true := by
  induction events generalizing standing with
  | nil => exact h
  | cons e events ih =>
    have hstands : stands job standing e = true :=
      ih (fun e' he' => hnone e' (List.mem_cons_of_mem e he')) h
    exact (standing_of_stands hstands).resolve_right (hnone e List.mem_cons_self)

/-- More entries before are more entries after. -/
theorem foldl_stands_mono {before : Bool} (h : events.foldl (stands job) before = true) :
    events.foldl (stands job) true = true := by
  induction events generalizing before with
  | nil => rfl
  | cons e events ih =>
    rw [List.foldl_cons] at h ⊢
    by_cases hends : Ends job e
    · rwa [stands_of_ends hends] at h ⊢
    · rw [stands_of_not_ends hends]
      exact ih h

/-- Events that end nothing may be lost from between others: what is left without them would have
been left with them. -/
theorem foldl_stands_insert {pre lost post : List JobEvent} {standing : Bool}
    (hlost : ∀ e ∈ lost, ¬ Ends job e)
    (h : (pre ++ post).foldl (stands job) standing = true) :
    (pre ++ (lost ++ post)).foldl (stands job) standing = true := by
  rw [List.foldl_append] at h
  rw [List.foldl_append, List.foldl_append]
  cases hpre : pre.foldl (stands job) standing with
  | true =>
    rw [foldl_stands_of_not_ends hlost]
    rwa [hpre] at h
  | false =>
    rw [hpre] at h
    cases hmid : lost.foldl (stands job) false with
    | true => exact foldl_stands_mono h
    | false => exact h

end Web
end Nyuka
