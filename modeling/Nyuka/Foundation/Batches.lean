import Mathlib.Algebra.GroupWithZero.Nat
import Mathlib.Tactic.SplitIfs
import Nyuka.Foundation.Runs

/-! Tasks that are worked on in batches of threads. The threads of a batch finish in any order and
are joined in their own; a batch begins when all of the one before it are joined. -/
namespace Batches

variable {Task Attempt Result : Type*}

/-- A thread that is not joined yet, with its result once it has finished. -/
structure Thread (Task Result : Type*) where
  task : Task
  result : Option Result

structure State (Task Result : Type*) where
  waiting : List Task
  /-- How many more threads the batch is to have. -/
  room : ℕ
  threads : List (Thread Task Result)
  out : List Result

/-- The thread at a position of the tasks finishes with what its attempt comes to. -/
inductive Action (Attempt : Type*) where
  | batch
  | spawn
  | finish (position : ℕ) (attempt : Attempt)
  | join

def start (tasks : List Task) : State Task Result := ⟨tasks, 0, [], []⟩

namespace State
variable (s : State Task Result)

/-- Nothing waits and nothing runs. -/
def Finished : Prop := s.waiting = [] ∧ s.threads = []

instance Finished.decidable : Decidable s.Finished :=
  decidable_of_iff (s.waiting.isEmpty ∧ s.threads.isEmpty) (by simp [Finished])

/-- The tasks that are not joined, in their order. -/
def pending : List (Thread Task Result) := s.threads ++ s.waiting.map (⟨·, none⟩)

end State

def step (size : ℕ) (work : Task → Attempt → Result) (s : State Task Result) :
    Action Attempt → Option (State Task Result)
  | .batch =>
    if s.room = 0 ∧ s.threads.isEmpty ∧ ¬ s.waiting.isEmpty then
      some { s with room := min size s.waiting.length }
    else none
  | .spawn => match s.waiting, s.room with
    | task :: waiting, room + 1 =>
      some { s with waiting := waiting, room := room, threads := s.threads ++ [⟨task, none⟩] }
    | _, _ => none
  | .finish position attempt =>
    if s.out.length ≤ position then
      match s.threads[position - s.out.length]? with
      | some ⟨task, none⟩ => some { s with
          threads := s.threads.set (position - s.out.length) ⟨task, some (work task attempt)⟩ }
      | _ => none
    else none
  | .join => match s.room, s.threads with
    | 0, ⟨_, some result⟩ :: threads =>
      some { s with threads := threads, out := s.out ++ [result] }
    | _, _ => none

/-- The attempts that a run makes at the task of a position. -/
def attempts (position : ℕ) (actions : List (Action Attempt)) : List Attempt :=
  actions.filterMap fun
    | .finish p attempt => if p = position then some attempt else none
    | _ => none

section Attempts
variable {position p : ℕ} {attempt : Attempt} {actions : List (Action Attempt)}

@[simp] theorem attempts_nil : attempts position ([] : List (Action Attempt)) = [] := rfl

@[simp] theorem attempts_batch :
    attempts position (.batch :: actions) = attempts position actions := rfl

@[simp] theorem attempts_spawn :
    attempts position (.spawn :: actions) = attempts position actions := rfl

@[simp] theorem attempts_join :
    attempts position (.join :: actions) = attempts position actions := rfl

@[simp] theorem attempts_finish_self :
    attempts position (.finish position attempt :: actions) =
      attempt :: attempts position actions := by
  simp [attempts]

theorem attempts_finish_ne (h : p ≠ position) :
    attempts position (.finish p attempt :: actions) = attempts position actions := by
  simp [attempts, h]

end Attempts

section Steps
variable {size : ℕ} {work : Task → Attempt → Result} {s t : State Task Result}
  {action : Action Attempt} {actions : List (Action Attempt)}

/-- The steps that a state can take. -/
inductive Stepped (size : ℕ) (work : Task → Attempt → Result) (s : State Task Result) :
    Action Attempt → State Task Result → Prop
  | batch : s.room = 0 → s.threads = [] → s.waiting ≠ [] →
      Stepped size work s .batch { s with room := min size s.waiting.length }
  | spawn {task : Task} {waiting : List Task} {room : ℕ} : s.waiting = task :: waiting →
      s.room = room + 1 → Stepped size work s .spawn
        { s with waiting := waiting, room := room, threads := s.threads ++ [⟨task, none⟩] }
  | finish {k : ℕ} {task : Task} {attempt : Attempt} : s.threads[k]? = some ⟨task, none⟩ →
      Stepped size work s (.finish (s.out.length + k) attempt)
        { s with threads := s.threads.set k ⟨task, some (work task attempt)⟩ }
  | join {task : Task} {result : Result} {threads : List (Thread Task Result)} : s.room = 0 →
      s.threads = ⟨task, some result⟩ :: threads →
      Stepped size work s .join { s with threads := threads, out := s.out ++ [result] }

theorem step_stepped (h : step size work s action = some t) : Stepped size work s action t := by
  cases action with
  | batch =>
    simp only [step, Option.ite_none_right_eq_some, Option.some.injEq, List.isEmpty_iff] at h
    obtain ⟨⟨hroom, hthreads, hwaiting⟩, rfl⟩ := h
    exact .batch hroom hthreads hwaiting
  | spawn =>
    simp only [step] at h
    split at h
    · rename_i hwaiting hroom
      cases h
      exact .spawn hwaiting hroom
    · cases h
  | finish position attempt =>
    simp only [step, Option.ite_none_right_eq_some] at h
    obtain ⟨hle, h⟩ := h
    obtain ⟨k, rfl⟩ := Nat.exists_eq_add_of_le hle
    rw [Nat.add_sub_cancel_left] at h
    split at h
    · rename_i hk
      cases h
      exact .finish hk
    · cases h
  | join =>
    simp only [step] at h
    split at h
    · rename_i hroom hthreads
      cases h
      exact .join hroom hthreads
    · cases h

theorem Stepped.step_eq (h : Stepped size work s action t) : step size work s action = some t := by
  cases h with
  | batch hroom hthreads hwaiting => simp [step, hroom, hthreads, hwaiting]
  | spawn hwaiting hroom => simp [step, hwaiting, hroom]
  | finish hk => simp [step, hk]
  | join hroom hthreads => simp [step, hroom, hthreads]

/-- What a step does to the tasks that are not joined and to the results. -/
inductive Effect (work : Task → Attempt → Result) (s t : State Task Result) :
    Action Attempt → Prop
  | batch : t.pending = s.pending → t.out = s.out → Effect work s t .batch
  | spawn : t.pending = s.pending → t.out = s.out → Effect work s t .spawn
  | finish {k : ℕ} {task : Task} {attempt : Attempt} : s.pending[k]? = some ⟨task, none⟩ →
      t.pending = s.pending.set k ⟨task, some (work task attempt)⟩ → t.out = s.out →
      Effect work s t (.finish (s.out.length + k) attempt)
  | join {task : Task} {result : Result} : s.pending = ⟨task, some result⟩ :: t.pending →
      t.out = s.out ++ [result] → Effect work s t .join

theorem Stepped.effect (h : Stepped size work s action t) : Effect work s t action := by
  cases h with
  | batch => exact .batch rfl rfl
  | spawn hwaiting =>
    refine .spawn ?_ rfl
    rw [State.pending, State.pending, hwaiting, List.map_cons, List.append_assoc]
    rfl
  | finish hk =>
    have hlt := (List.getElem?_eq_some_iff.mp hk).1
    refine .finish ?_ (List.set_append_left _ _ hlt).symm rfl
    rw [State.pending, List.getElem?_append_left hlt, hk]
  | @join task result threads _ hthreads =>
    have hpending : s.pending =
        ⟨task, some result⟩ :: (threads ++ s.waiting.map (⟨·, none⟩)) := by
      rw [State.pending, hthreads]
      rfl
    exact .join hpending rfl

end Steps

section Outcomes
variable {size : ℕ} {work : Task → Attempt → Result} {s t u : State Task Result}
  {action : Action Attempt} {actions : List (Action Attempt)}

/-- What a thread comes to in the rest of a run, and the attempts that this takes. -/
inductive Settles (work : Task → Attempt → Result) :
    Thread Task Result → List Attempt → Result → Prop
  | finished (task : Task) (result : Result) : Settles work ⟨task, some result⟩ [] result
  | attempted (task : Task) (attempt : Attempt) :
      Settles work ⟨task, none⟩ [attempt] (work task attempt)

/-- Every task that is left has its result at its own position, and nothing else is attempted. -/
structure Outcome (work : Task → Attempt → Result) (s t : State Task Result)
    (actions : List (Action Attempt)) : Prop where
  length : t.out.length = s.out.length + s.pending.length
  joined : ∀ i < s.out.length, t.out[i]? = s.out[i]? ∧ attempts i actions = []
  beyond : ∀ i, s.out.length + s.pending.length ≤ i → attempts i actions = []
  pending : ∀ k thread, s.pending[k]? = some thread → ∃ result,
    t.out[s.out.length + k]? = some result ∧
      Settles work thread (attempts (s.out.length + k) actions) result

theorem Outcome.of_eq (hpending : u.pending = s.pending) (hout : u.out = s.out)
    (hattempts : ∀ i, attempts i (action :: actions) = attempts i actions)
    (h : Outcome work u t actions) : Outcome work s t (action :: actions) := by
  obtain ⟨hlength, hjoined, hbeyond, hpend⟩ := h
  rw [hpending, hout] at hlength hbeyond
  rw [hout] at hjoined
  rw [hpending, hout] at hpend
  refine ⟨hlength, ?_, ?_, ?_⟩ <;> simpa only [hattempts]

theorem Outcome.of_finish {k : ℕ} {task : Task} {attempt : Attempt}
    (hk : s.pending[k]? = some ⟨task, none⟩)
    (hpending : u.pending = s.pending.set k ⟨task, some (work task attempt)⟩)
    (hout : u.out = s.out) (h : Outcome work u t actions) :
    Outcome work s t (.finish (s.out.length + k) attempt :: actions) := by
  have hlt : k < s.pending.length := (List.getElem?_eq_some_iff.mp hk).1
  have hother {i : ℕ} (hi : i ≠ s.out.length + k) :
      attempts i (.finish (s.out.length + k) attempt :: actions) = attempts i actions :=
    attempts_finish_ne hi.symm
  refine ⟨?_, fun i hi => ?_, fun i hi => ?_, fun j thread hj => ?_⟩
  · rw [h.length, hout, hpending, List.length_set]
  · rw [hother (by omega), ← hout]
    exact h.joined i (hout ▸ hi)
  · rw [hother (by omega)]
    exact h.beyond i (by rw [hout, hpending, List.length_set]; exact hi)
  · by_cases hjk : j = k
    · obtain rfl := hjk
      cases hk.symm.trans hj
      have hset : u.pending[j]? = some ⟨task, some (work task attempt)⟩ := by
        rw [hpending, List.getElem?_set_self hlt]
      obtain ⟨result, hresult, hsettles⟩ := h.pending j _ hset
      rw [hout] at hresult hsettles
      refine ⟨result, hresult, ?_⟩
      rw [attempts_finish_self]
      generalize attempts (s.out.length + j) actions = rest at hsettles ⊢
      cases hsettles
      exact .attempted task attempt
    · have hset : u.pending[j]? = some thread := by
        rw [hpending, List.getElem?_set_ne (Ne.symm hjk), hj]
      obtain ⟨result, hresult, hsettles⟩ := h.pending j thread hset
      rw [hout] at hresult hsettles
      exact ⟨result, hresult, by rwa [hother (by omega)]⟩

theorem Outcome.of_join {task : Task} {result : Result}
    (hpending : s.pending = ⟨task, some result⟩ :: u.pending)
    (hout : u.out = s.out ++ [result]) (h : Outcome work u t actions) :
    Outcome work s t (.join :: actions) := by
  have hlength : u.out.length = s.out.length + 1 := by
    rw [hout, List.length_append, List.length_singleton]
  refine ⟨?_, fun i hi => ?_, fun i hi => ?_, fun k thread hk => ?_⟩
  · rw [h.length, hlength, hpending, List.length_cons]
    omega
  · obtain ⟨heq, hnone⟩ := h.joined i (by omega)
    refine ⟨?_, hnone⟩
    rw [heq, hout, List.getElem?_append_left hi]
  · rw [hpending, List.length_cons] at hi
    exact h.beyond i (by omega)
  · rw [hpending] at hk
    cases k with
    | zero =>
      cases hk
      obtain ⟨heq, hnone⟩ := h.joined s.out.length (by omega)
      refine ⟨result, ?_, ?_⟩
      · rw [Nat.add_zero, heq, hout, List.getElem?_concat_length]
      · rw [Nat.add_zero, attempts_join, hnone]
        exact .finished task result
    | succ k =>
      obtain ⟨found, hfound, hsettles⟩ := h.pending k thread hk
      have hindex : u.out.length + k = s.out.length + (k + 1) := by omega
      rw [hindex] at hfound hsettles
      exact ⟨found, hfound, hsettles⟩

theorem Effect.outcome (h : Effect work s u action) (ht : Outcome work u t actions) :
    Outcome work s t (action :: actions) := by
  cases h with
  | batch hpending hout => exact ht.of_eq hpending hout fun _ => attempts_batch
  | spawn hpending hout => exact ht.of_eq hpending hout fun _ => attempts_spawn
  | finish hk hpending hout => exact ht.of_finish hk hpending hout
  | join hpending hout => exact ht.of_join hpending hout

theorem State.Finished.outcome (h : s.Finished) :
    Outcome work s s ([] : List (Action Attempt)) := by
  have hpending : s.pending = [] := by simp [State.pending, h.1, h.2]
  refine ⟨?_, fun _ _ => ⟨rfl, rfl⟩, fun _ _ => rfl, fun k thread hk => ?_⟩
  · rw [hpending, List.length_nil, Nat.add_zero]
  · rw [hpending] at hk
    cases hk

private theorem outcome_of_exec (h : Runs.exec (step size work) s actions = some t)
    (ht : t.Finished) :
    Outcome work s t actions := by
  induction actions generalizing s with
  | nil =>
    cases h
    exact ht.outcome
  | cons action actions ih =>
    obtain ⟨u, hu, hrest⟩ := Option.bind_eq_some_iff.mp h
    exact (step_stepped hu).effect.outcome (ih hrest)

/-- However the threads of a run finish, each task is attempted once, and the result at its position
is that of its own attempt. -/
theorem results_of_exec {tasks : List Task}
    (h : Runs.exec (step size work) (start tasks) actions = some t) (ht : t.Finished) :
    t.out.length = tasks.length ∧
      (∀ i task, tasks[i]? = some task → ∃ attempt, attempts i actions = [attempt] ∧
        t.out[i]? = some (work task attempt)) ∧
      ∀ i, tasks.length ≤ i → attempts i actions = [] := by
  have hout := outcome_of_exec h ht
  have hpending : (start tasks : State Task Result).pending = tasks.map (⟨·, none⟩) := rfl
  have hlength : (start tasks : State Task Result).pending.length = tasks.length := by
    rw [hpending, List.length_map]
  have hzero : (start tasks : State Task Result).out.length = 0 := rfl
  refine ⟨?_, fun i task hi => ?_, fun i hi => ?_⟩
  · rw [hout.length, hzero, hlength, Nat.zero_add]
  · have hthread : (start tasks : State Task Result).pending[i]? = some ⟨task, none⟩ := by
      rw [hpending, List.getElem?_map, hi]
      rfl
    obtain ⟨result, hresult, hsettles⟩ := hout.pending i _ hthread
    rw [hzero, Nat.zero_add] at hresult hsettles
    generalize attempts i actions = found at hsettles ⊢
    cases hsettles with
    | attempted _ attempt => exact ⟨attempt, rfl, hresult⟩
  · exact hout.beyond i (by rw [hzero, hlength, Nat.zero_add]; exact hi)

end Outcomes

section Ends
variable {size : ℕ} {work : Task → Attempt → Result} {s t : State Task Result}
  {action : Action Attempt} {actions : List (Action Attempt)}

/-- A task that is left takes a step more for each thing that is yet to happen to it. -/
def Thread.weight (thread : Thread Task Result) : ℕ := if thread.result.isSome then 1 else 2

/-- A bound on the steps that are left. -/
def State.weight (s : State Task Result) : ℕ :=
  4 * s.waiting.length + (s.threads.map Thread.weight).sum + if s.room = 0 then 1 else 0

theorem weight_set {threads : List (Thread Task Result)} {k : ℕ} {task : Task} (result : Result)
    (h : threads[k]? = some ⟨task, none⟩) :
    ((threads.set k ⟨task, some result⟩).map Thread.weight).sum + 1 =
      (threads.map Thread.weight).sum := by
  induction threads generalizing k with
  | nil => cases h
  | cons thread threads ih =>
    cases k with
    | zero =>
      cases h
      simp [Thread.weight]
      omega
    | succ k =>
      have hrest := ih (k := k) h
      simp only [List.set_cons_succ, List.map_cons, List.sum_cons]
      omega

/-- The threads that a batch is still to have have their tasks. -/
def State.Roomy (s : State Task Result) : Prop := s.room ≤ s.waiting.length

theorem Stepped.weight_lt (h : Stepped size work s action t) (hsize : 0 < size) :
    t.weight < s.weight := by
  cases h with
  | batch hroom _ hwaiting =>
    have hpos := List.length_pos_iff.mpr hwaiting
    have hmin : min size s.waiting.length ≠ 0 := by omega
    simp only [State.weight, hroom, if_neg hmin, if_true]
    omega
  | spawn hwaiting hroom =>
    simp only [State.weight, hwaiting, hroom, List.map_append, List.sum_append, List.map_cons,
      List.map_nil, List.sum_cons, List.sum_nil, List.length_cons, Thread.weight,
      Option.isSome_none]
    split_ifs <;> omega
  | @finish k task attempt hk =>
    have hsum := weight_set (work task attempt) hk
    simp only [State.weight]
    omega
  | join _ hthreads =>
    simp only [State.weight, hthreads, List.map_cons, List.sum_cons, Thread.weight,
      Option.isSome_some, if_true]
    omega

theorem Stepped.roomy (h : Stepped size work s action t) (hs : s.Roomy) : t.Roomy := by
  cases h with
  | batch => exact Nat.min_le_right _ _
  | spawn hwaiting hroom =>
    rw [State.Roomy, hwaiting, hroom, List.length_cons] at hs
    exact Nat.le_of_succ_le_succ hs
  | finish => exact hs
  | join => exact hs

/-- While something waits or runs there is a next step. -/
theorem exists_stepped [Nonempty Attempt] (hs : s.Roomy) (h : ¬ s.Finished) :
    ∃ (action : Action Attempt) (t : State Task Result), Stepped size work s action t := by
  by_cases hroom : s.room = 0
  · cases hthreads : s.threads with
    | nil =>
      have hwaiting : s.waiting ≠ [] := fun hnone => h ⟨hnone, hthreads⟩
      exact ⟨_, _, .batch hroom hthreads hwaiting⟩
    | cons thread threads =>
      obtain ⟨task, _ | result⟩ := thread
      · obtain ⟨attempt⟩ := ‹Nonempty Attempt›
        have hhead : s.threads[0]? = some ⟨task, none⟩ := by rw [hthreads]; rfl
        exact ⟨.finish (s.out.length + 0) attempt, _, .finish hhead⟩
      · exact ⟨_, _, .join hroom hthreads⟩
  · obtain ⟨room, hroom⟩ := Nat.exists_eq_succ_of_ne_zero hroom
    rw [State.Roomy, hroom] at hs
    obtain ⟨task, waiting, hwaiting⟩ :=
      List.exists_cons_of_length_pos (Nat.lt_of_lt_of_le room.succ_pos hs)
    exact ⟨_, _, .spawn hwaiting hroom⟩

private theorem exists_finish_of_roomy [Nonempty Attempt] (hsize : 0 < size) (hs : s.Roomy) :
    ∃ (actions : List (Action Attempt)) (t : State Task Result),
      Runs.exec (step size work) s actions = some t ∧ t.Finished := by
  induction hw : s.weight using Nat.strongRecOn generalizing s with
  | _ w ih =>
    by_cases hfin : s.Finished
    · exact ⟨[], s, rfl, hfin⟩
    · obtain ⟨action, u, hstep⟩ : ∃ (action : Action Attempt) (u : State Task Result),
          Stepped size work s action u := exists_stepped hs hfin
      obtain ⟨actions, t, hexec, ht⟩ :=
        ih u.weight (hw ▸ hstep.weight_lt hsize) (hstep.roomy hs) rfl
      exact ⟨action :: actions, t, by rw [Runs.exec_cons, hstep.step_eq, Option.bind_some, hexec],
        ht⟩

/-- Wherever a run has got to, it can be brought to its end. -/
theorem exists_finish [Nonempty Attempt] {tasks : List Task} (hsize : 0 < size)
    (h : Runs.exec (step size work) (start tasks) actions = some s) :
    ∃ (rest : List (Action Attempt)) (t : State Task Result),
      Runs.exec (step size work) (start tasks) (actions ++ rest) = some t ∧ t.Finished := by
  have hs : s.Roomy := Runs.Reachable.invariant ⟨actions, h⟩ (Nat.zero_le _)
    fun u action v hu huv => (step_stepped huv).roomy hu
  obtain ⟨rest, t, hexec, ht⟩ : ∃ (rest : List (Action Attempt)) (t : State Task Result),
      Runs.exec (step size work) s rest = some t ∧ t.Finished := exists_finish_of_roomy hsize hs
  exact ⟨rest, t, by rw [Runs.exec_append, h, Option.bind_some, hexec], ht⟩

end Ends

end Batches
