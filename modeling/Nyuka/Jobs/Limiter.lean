import Nyuka.Foundation.Runs
import Nyuka.Domain.Sources
import Mathlib.Logic.Function.Basic
import Mathlib.Data.List.Count

/-! Per-source concurrency limiting. A source's budget is a semaphore in a map, and a task that
waits for a permit holds on to the semaphore it has found there. -/
namespace Nyuka
namespace Limiter
open Runs

/-- The operator's ceiling. -/
structure Cap where
  permits : ℕ
  positive : 1 ≤ permits

/-- `SourceLimiter::new`. -/
def Cap.new (defaultPermits : UInt32) : Cap := ⟨max defaultPermits.toNat 1, le_max_right _ _⟩

/-- The permits of the semaphore a registration makes. -/
def registered (cap : Cap) : Option DeclaredLimit → ℕ
  | some limit => max (min limit.permits.toNat cap.permits) 1
  | none => cap.permits

/-- A task that has looked up its semaphore. -/
structure Waiter where
  source : SourceId
  semaphore : ℕ
deriving DecidableEq

/-- A permit that has not been dropped, with the budget in force when it was acquired. -/
structure Permit where
  source : SourceId
  semaphore : ℕ
  budget : ℕ
deriving DecidableEq

/-- `available` counts the free permits of every semaphore made so far. -/
structure SourceLimiter where
  cap : Cap
  limits : SourceId → Option ℕ
  available : ℕ → ℕ
  made : ℕ
  waiting : List Waiter
  permits : List Permit
  /-- The limit that was registered last. -/
  declared : SourceId → Option DeclaredLimit

def SourceLimiter.new (cap : Cap) : SourceLimiter where
  cap := cap
  limits := fun _ => none
  available := fun _ => 0
  made := 0
  waiting := []
  permits := []
  declared := fun _ => none

/-- The smaller of the operator's cap and a declared limit. -/
def allowed (cap : Cap) : Option DeclaredLimit → ℕ
  | some limit => min limit.permits.toNat cap.permits
  | none => cap.permits

/-- What the limit most recently declared for the source allows. -/
def SourceLimiter.budget (s : SourceLimiter) (source : SourceId) : ℕ :=
  allowed s.cap (s.declared source)

/-- The permits of a source that are out. -/
def SourceLimiter.outstanding (s : SourceLimiter) (source : SourceId) : ℕ :=
  s.permits.countP fun p => p.source = source

/-- Puts a new semaphore into the map. -/
def SourceLimiter.put (s : SourceLimiter) (source : SourceId) (declared : Option DeclaredLimit) :
    SourceLimiter :=
  { s with
    limits := Function.update s.limits source (some s.made)
    available := Function.update s.available s.made (registered s.cap declared)
    made := s.made + 1
    declared := Function.update s.declared source declared }

inductive Action where
  | register (source : SourceId) (declared : Option DeclaredLimit)
  /-- The first half of `acquire`: the semaphore under the map's lock. -/
  | lookup (source : SourceId)
  /-- The second half: one of the waiting tasks gets a permit. -/
  | take (waiter : Waiter)
  /-- A task stops waiting. -/
  | abandon (waiter : Waiter)
  | release (permit : Permit)

def step (s : SourceLimiter) : Action → Option SourceLimiter
  | .register source declared => some (s.put source declared)
  | .lookup source =>
    match s.limits source with
    | some semaphore => some { s with waiting := ⟨source, semaphore⟩ :: s.waiting }
    -- a source that was never registered has declared nothing
    | none => some { s.put source none with waiting := ⟨source, s.made⟩ :: s.waiting }
  | .take waiter =>
    if waiter ∈ s.waiting ∧ 0 < s.available waiter.semaphore then
      some { s with
        available := Function.update s.available waiter.semaphore
          (s.available waiter.semaphore - 1)
        waiting := s.waiting.erase waiter
        permits := ⟨waiter.source, waiter.semaphore, s.budget waiter.source⟩ :: s.permits }
    else none
  | .abandon waiter =>
    if waiter ∈ s.waiting then some { s with waiting := s.waiting.erase waiter } else none
  | .release permit =>
    if permit ∈ s.permits then
      some { s with
        available := Function.update s.available permit.semaphore
          (s.available permit.semaphore + 1)
        permits := s.permits.erase permit }
    else none

/-- No source has more permits out than the operator's cap, nor than the budget under which any
of them was acquired. -/
def WithinCap (s : SourceLimiter) : Prop :=
  ∀ source, s.outstanding source ≤ s.cap.permits ∧
    ∀ p ∈ s.permits, p.source = source → s.outstanding source ≤ p.budget

/-- A registration finds no task that holds a permit of the source or waits for one. -/
def Idle (s : SourceLimiter) : Action → Prop
  | .register source _ =>
    (∀ p ∈ s.permits, p.source ≠ source) ∧ ∀ w ∈ s.waiting, w.source ≠ source
  | _ => True

/-- Every permit and every waiting task of a source is of the semaphore in the map, which counts
the source's permits. -/
structure Counted (s : SourceLimiter) : Prop where
  made : ∀ source semaphore, s.limits source = some semaphore → semaphore < s.made
  apart : ∀ a b semaphore, s.limits a = some semaphore → s.limits b = some semaphore → a = b
  undeclared : ∀ source, s.limits source = none → s.declared source = none
  waiting : ∀ w ∈ s.waiting, s.limits w.source = some w.semaphore
  permits : ∀ p ∈ s.permits, s.limits p.source = some p.semaphore ∧ p.budget = s.budget p.source
  free : ∀ source semaphore, s.limits source = some semaphore →
    s.available semaphore + s.outstanding source = s.budget source

/-- The limit wins over the lower bound of one permit. -/
theorem registered_eq (cap : Cap) (declared : Option DeclaredLimit) :
    registered cap declared = allowed cap declared := by
  cases declared with
  | none => rfl
  | some limit =>
    have hpositive : limit.permits.toNat ≠ 0 := fun hzero =>
      limit.positive (UInt32.toNat_inj.mp hzero)
    have hcap := cap.positive
    show max (min limit.permits.toNat cap.permits) 1 = min limit.permits.toNat cap.permits
    omega

theorem budget_le_cap (s : SourceLimiter) (source : SourceId) :
    s.budget source ≤ s.cap.permits := by
  unfold SourceLimiter.budget allowed
  split
  · exact min_le_right _ _
  · exact le_refl _

theorem outstanding_eq_zero {s : SourceLimiter} {source : SourceId}
    (h : ∀ p ∈ s.permits, p.source ≠ source) : s.outstanding source = 0 := by
  rw [SourceLimiter.outstanding, List.countP_eq_zero]
  intro p hp
  simpa using h p hp

theorem counted_new (cap : Cap) : Counted (.new cap) where
  made _ _ h := by cases h
  apart _ _ _ h := by cases h
  undeclared _ _ := rfl
  waiting w hw := by cases hw
  permits p hp := by cases hp
  free _ _ h := by cases h

variable {s t : SourceLimiter} {source : SourceId}

theorem put_limits_of_ne {declared : Option DeclaredLimit} {a : SourceId} (h : a ≠ source) :
    (s.put source declared).limits a = s.limits a := Function.update_of_ne h _ _

theorem put_limits {declared : Option DeclaredLimit} {a : SourceId} {semaphore : ℕ}
    (h : (s.put source declared).limits a = some semaphore) :
    a = source ∧ s.made = semaphore ∨ a ≠ source ∧ s.limits a = some semaphore := by
  by_cases hsource : a = source
  · subst hsource
    simp only [SourceLimiter.put, Function.update_self, Option.some.injEq] at h
    exact .inl ⟨rfl, h⟩
  · exact .inr ⟨hsource, put_limits_of_ne hsource ▸ h⟩

@[simp] theorem put_budget_self (s : SourceLimiter) (source : SourceId)
    (declared : Option DeclaredLimit) :
    (s.put source declared).budget source = registered s.cap declared := by
  simp [SourceLimiter.budget, SourceLimiter.put, registered_eq]

private theorem put_budget_of_ne {declared : Option DeclaredLimit} {a : SourceId} (h : a ≠ source) :
    (s.put source declared).budget a = s.budget a := by
  simp [SourceLimiter.budget, SourceLimiter.put, Function.update_of_ne h]

/-- Without permits and waiting tasks of the source, a new semaphore may take the place of the
old one. -/
theorem Counted.put (h : Counted s) (declared : Option DeclaredLimit)
    (hpermits : ∀ p ∈ s.permits, p.source ≠ source)
    (hwaiting : ∀ w ∈ s.waiting, w.source ≠ source) : Counted (s.put source declared) where
  made a semaphore ha := by
    show semaphore < s.made + 1
    rcases put_limits ha with ⟨-, rfl⟩ | ⟨-, hold⟩
    · omega
    · have := h.made a semaphore hold
      omega
  apart a b semaphore ha hb := by
    rcases put_limits ha with ⟨rfl, rfl⟩ | ⟨hne, hold⟩
    · rcases put_limits hb with ⟨rfl, -⟩ | ⟨-, hold'⟩
      · rfl
      · exact absurd (h.made b _ hold') (lt_irrefl _)
    · rcases put_limits hb with ⟨rfl, rfl⟩ | ⟨-, hold'⟩
      · exact absurd (h.made a _ hold) (lt_irrefl _)
      · exact h.apart a b semaphore hold hold'
  undeclared a ha := by
    by_cases hsource : a = source
    · simp [SourceLimiter.put, hsource] at ha
    · simp only [SourceLimiter.put, Function.update_of_ne hsource] at ha ⊢
      exact h.undeclared a ha
  waiting w hw := by
    rw [put_limits_of_ne (hwaiting w hw)]
    exact h.waiting w hw
  permits p hp := by
    rw [put_limits_of_ne (hpermits p hp), put_budget_of_ne (hpermits p hp)]
    exact h.permits p hp
  free a semaphore ha := by
    rcases put_limits ha with ⟨rfl, rfl⟩ | ⟨hne, hold⟩
    · have hnone : (s.put a declared).outstanding a = 0 := outstanding_eq_zero hpermits
      rw [hnone, put_budget_self]
      simp [SourceLimiter.put]
    · have hmade := h.made a semaphore hold
      have hfree : (s.put source declared).available semaphore = s.available semaphore :=
        Function.update_of_ne (by omega) _ _
      rw [hfree, put_budget_of_ne hne]
      exact h.free a semaphore hold

/-- A task that looks a semaphore up waits for the one in the map. -/
theorem Counted.wait (h : Counted s) {semaphore : ℕ} (hlimit : s.limits source = some semaphore) :
    Counted { s with waiting := ⟨source, semaphore⟩ :: s.waiting } where
  made := h.made
  apart := h.apart
  undeclared := h.undeclared
  waiting w hw := by
    rcases List.mem_cons.mp hw with rfl | hw
    · exact hlimit
    · exact h.waiting w hw
  permits := h.permits
  free := h.free

theorem Counted.abandon (h : Counted s) (waiter : Waiter) :
    Counted { s with waiting := s.waiting.erase waiter } where
  made := h.made
  apart := h.apart
  undeclared := h.undeclared
  waiting w hw := h.waiting w (List.mem_of_mem_erase hw)
  permits := h.permits
  free := h.free

/-- A permit is one less in its semaphore and one more outstanding. -/
theorem Counted.take (h : Counted s) {waiter : Waiter} (hwaiter : waiter ∈ s.waiting)
    (hfree : 0 < s.available waiter.semaphore) :
    Counted { s with
      available := Function.update s.available waiter.semaphore
        (s.available waiter.semaphore - 1)
      waiting := s.waiting.erase waiter
      permits := ⟨waiter.source, waiter.semaphore, s.budget waiter.source⟩ :: s.permits } where
  made := h.made
  apart := h.apart
  undeclared := h.undeclared
  waiting w hw := h.waiting w (List.mem_of_mem_erase hw)
  permits p hp := by
    rcases List.mem_cons.mp hp with rfl | hp
    · exact ⟨h.waiting waiter hwaiter, rfl⟩
    · exact h.permits p hp
  free a semaphore ha := by
    have hcount := h.free a semaphore ha
    have hlimit := h.waiting waiter hwaiter
    by_cases hsource : waiter.source = a
    · subst hsource
      obtain rfl : semaphore = waiter.semaphore := Option.some.inj (ha.symm.trans hlimit)
      simp only [SourceLimiter.outstanding, SourceLimiter.budget, Function.update_self,
        List.countP_cons, decide_true, if_true] at hcount ⊢
      omega
    · have hother : semaphore ≠ waiter.semaphore := fun heq =>
        hsource (h.apart _ _ semaphore (heq ▸ hlimit) ha)
      simp only [SourceLimiter.outstanding, SourceLimiter.budget, Function.update_of_ne hother,
        List.countP_cons, decide_eq_true_eq, hsource, if_false, Nat.add_zero] at hcount ⊢
      exact hcount

/-- A dropped permit goes back to its semaphore. -/
theorem Counted.release (h : Counted s) {permit : Permit} (hpermit : permit ∈ s.permits) :
    Counted { s with
      available := Function.update s.available permit.semaphore
        (s.available permit.semaphore + 1)
      permits := s.permits.erase permit } where
  made := h.made
  apart := h.apart
  undeclared := h.undeclared
  waiting := h.waiting
  permits p hp := h.permits p (List.mem_of_mem_erase hp)
  free a semaphore ha := by
    have hcount := h.free a semaphore ha
    have hlimit := (h.permits permit hpermit).1
    by_cases hsource : permit.source = a
    · subst hsource
      obtain rfl : semaphore = permit.semaphore := Option.some.inj (ha.symm.trans hlimit)
      have hpositive : 0 < s.outstanding permit.source :=
        List.countP_pos_iff.mpr ⟨permit, hpermit, by simp⟩
      simp only [SourceLimiter.outstanding, SourceLimiter.budget, Function.update_self,
        List.countP_erase, hpermit, decide_true, and_self, if_true] at hcount hpositive ⊢
      omega
    · have hother : semaphore ≠ permit.semaphore := fun heq =>
        hsource (h.apart _ _ semaphore (heq ▸ hlimit) ha)
      simp only [SourceLimiter.outstanding, SourceLimiter.budget, Function.update_of_ne hother,
        List.countP_erase, decide_eq_true_eq, hsource, and_false, if_false, Nat.sub_zero]
        at hcount ⊢
      exact hcount

theorem Counted.withinCap (h : Counted s) : WithinCap s := by
  intro source
  cases hlimit : s.limits source with
  | none =>
    have hnone : s.outstanding source = 0 := outstanding_eq_zero fun p hp hsource => by
      have := (h.permits p hp).1
      rw [hsource, hlimit] at this
      cases this
    exact ⟨hnone ▸ Nat.zero_le _, fun _ _ _ => hnone ▸ Nat.zero_le _⟩
  | some semaphore =>
    have hcount := h.free source semaphore hlimit
    have hcap := budget_le_cap s source
    refine ⟨by omega, fun p hp hsource => ?_⟩
    rw [(h.permits p hp).2, hsource]
    omega

theorem counted_step {a : Action} (h : Counted s) (hidle : Idle s a) (hstep : step s a = some t) :
    Counted t := by
  cases a with
  | register source declared =>
    cases hstep
    exact h.put declared hidle.1 hidle.2
  | lookup source =>
    simp only [step] at hstep
    split at hstep
    · next semaphore hlimit =>
      cases hstep
      exact h.wait hlimit
    · next hlimit =>
      cases hstep
      -- without a semaphore in the map there is neither a permit nor a waiting task
      have hpermits : ∀ p ∈ s.permits, p.source ≠ source := fun p hp hsource => by
        have := (h.permits p hp).1
        rw [hsource, hlimit] at this
        cases this
      have hwaiting : ∀ w ∈ s.waiting, w.source ≠ source := fun w hw hsource => by
        have := h.waiting w hw
        rw [hsource, hlimit] at this
        cases this
      exact (h.put none hpermits hwaiting).wait (Function.update_self _ _ _)
  | take waiter =>
    simp only [step] at hstep
    split at hstep
    · next hready =>
      cases hstep
      exact h.take hready.1 hready.2
    · cases hstep
  | abandon waiter =>
    simp only [step] at hstep
    split at hstep <;> cases hstep
    exact h.abandon waiter
  | release permit =>
    simp only [step] at hstep
    split at hstep
    · next hpermit =>
      cases hstep
      exact h.release hpermit
    · cases hstep

/-- In a run that registers a source only while no task holds or awaits one of its permits, the
cap and the declared limits hold throughout. -/
theorem withinCap_run (cap : Cap) (as : List Action) (h : Each step Idle (.new cap) as) :
    Always step WithinCap (.new cap) as :=
  (Always.of_each (fun _ _ _ => counted_step) (counted_new cap) h).imp fun _ => Counted.withinCap

/-- The free permits of the semaphore in the map can all be acquired. -/
theorem exists_acquired {semaphore n : ℕ} (hlimit : s.limits source = some semaphore)
    (hfree : s.available semaphore = n) :
    ∃ as t, exec step s as = some t ∧ t.outstanding source = s.outstanding source + n ∧
      s.permits ⊆ t.permits ∧
      (0 < n → ∃ p ∈ t.permits, p.source = source ∧ p.budget = s.budget source) := by
  induction n generalizing s with
  | zero => exact ⟨[], s, rfl, rfl, fun _ h => h, fun h => absurd h (lt_irrefl 0)⟩
  | succ n ih =>
    let waiter : Waiter := ⟨source, semaphore⟩
    let permit : Permit := ⟨source, semaphore, s.budget source⟩
    let u : SourceLimiter := { s with
      available := Function.update s.available semaphore (s.available semaphore - 1)
      permits := permit :: s.permits }
    have hu : exec step s [.lookup source, .take waiter] = some u := by
      simp [step, hlimit, waiter, u, permit, hfree, SourceLimiter.budget]
    have hcount : u.outstanding source = s.outstanding source + 1 := by
      simp [u, permit, SourceLimiter.outstanding]
    obtain ⟨as, t, ht, hout, hkept, -⟩ := ih (s := u) hlimit (by simp [u, hfree])
    refine ⟨[.lookup source, .take waiter] ++ as, t, ?_, by omega, ?_, fun _ => ?_⟩
    · rw [exec_append, hu]
      exact ht
    · exact fun p hp => hkept (List.mem_cons_of_mem permit hp)
    · exact ⟨permit, hkept List.mem_cons_self, rfl, rfl⟩

/-- With all permits of its semaphore free and one more out, a source can be overrun. -/
theorem overrun {semaphore : ℕ} (hlimit : s.limits source = some semaphore)
    (hfree : s.available semaphore = s.budget source) (hpositive : 0 < s.budget source)
    (hout : 0 < s.outstanding source) : ∃ as, ¬ Always step WithinCap s as := by
  obtain ⟨as, t, ht, hcount, -, hlast⟩ := exists_acquired hlimit hfree
  obtain ⟨p, hp, hsource, hbudget⟩ := hlast hpositive
  refine ⟨as, not_always_of_exec ht fun hwithin => ?_⟩
  have hle := (hwithin source).2 p hp hsource
  omega

theorem registered_pos (cap : Cap) (declared : Option DeclaredLimit) :
    0 < registered cap declared := by
  cases declared with
  | none => exact cap.positive
  | some limit => exact Nat.lt_of_lt_of_le Nat.zero_lt_one (le_max_right _ _)

/-- A registration that does not find the source idle can be followed by a run that exceeds the
limit it declares. -/
theorem overrun_of_not_idle (h : Counted s) {declared : Option DeclaredLimit}
    (hbusy : ¬ Idle s (.register source declared)) :
    ∃ as, ¬ Always step WithinCap (s.put source declared) as := by
  have hlimit : (s.put source declared).limits source = some s.made := Function.update_self _ _ _
  have hfree : (s.put source declared).available s.made = registered s.cap declared :=
    Function.update_self _ _ _
  have hbudget := put_budget_self s source declared
  have hpositive := registered_pos s.cap declared
  by_cases hout : 0 < s.outstanding source
  · exact overrun hlimit (hfree.trans hbudget.symm) (hbudget ▸ hpositive) hout
  · -- no permit is out, so the old semaphore has one for a task that still waits for it
    have hnone : ∀ p ∈ s.permits, p.source ≠ source := fun p hp hsource =>
      hout (List.countP_pos_iff.mpr ⟨p, hp, by simpa using hsource⟩)
    obtain ⟨w, hw, hsource⟩ : ∃ w ∈ s.waiting, w.source = source := by
      by_contra hwaiting
      push Not at hwaiting
      exact hbusy ⟨hnone, hwaiting⟩
    have hold := h.waiting w hw
    have hmade := h.made _ _ hold
    have hcount := h.free _ _ hold
    have hready : 0 < s.available w.semaphore := by
      have hbudget' : 0 < s.budget w.source := by
        rw [SourceLimiter.budget, ← registered_eq]
        exact registered_pos s.cap _
      rw [hsource] at hcount hbudget'
      omega
    have hsame : (s.put source declared).available w.semaphore = s.available w.semaphore :=
      Function.update_of_ne (by omega) _ _
    let permit : Permit := ⟨w.source, w.semaphore, (s.put source declared).budget w.source⟩
    let u : SourceLimiter := { s.put source declared with
      available := Function.update (s.put source declared).available w.semaphore
        ((s.put source declared).available w.semaphore - 1)
      waiting := s.waiting.erase w
      permits := permit :: s.permits }
    have hstep : step (s.put source declared) (.take w) = some u :=
      if_pos ⟨hw, by rw [hsame]; exact hready⟩
    have hfree' : u.available s.made = u.budget source := by
      have hother : u.available s.made = (s.put source declared).available s.made :=
        Function.update_of_ne (by omega) _ _
      rw [hother, hfree, ← hbudget]
      rfl
    have hout' : 0 < u.outstanding source :=
      List.countP_pos_iff.mpr ⟨permit, List.mem_cons_self, by simpa [permit] using hsource⟩
    obtain ⟨as, has⟩ := overrun (s := u) hlimit hfree' (hbudget ▸ hpositive) hout'
    exact ⟨.take w :: as, fun hall => has (hall.2 u hstep)⟩

/-- A test that a registration finds the source idle. -/
def idle (s : SourceLimiter) : Action → Bool
  | .register source _ => s.permits.all (fun p => p.source ≠ source) &&
      s.waiting.all fun w => w.source ≠ source
  | _ => true

theorem idle_iff {a : Action} (h : idle s a = true) : Idle s a := by
  cases a with
  | register source declared =>
    rw [idle, Bool.and_eq_true, List.all_eq_true, List.all_eq_true] at h
    exact ⟨fun p hp => by simpa using h.1 p hp, fun w hw => by simpa using h.2 w hw⟩
  | _ => trivial

def oneAtATime : DeclaredLimit := ⟨⟨1, 2⟩, by decide⟩

/-- A source is registered anew between two of its fetches. -/
def spacedRun : List Action := [
  .lookup ⟨7⟩,
  .take ⟨⟨7⟩, 0⟩,
  .release ⟨⟨7⟩, 0, 2⟩,
  .register ⟨7⟩ (some oneAtATime),
  .lookup ⟨7⟩,
  .take ⟨⟨7⟩, 1⟩]

theorem spacedRun_withinCap :
    (exec step (.new (.new 2)) spacedRun).isSome = true ∧
      Always step WithinCap (.new (.new 2)) spacedRun :=
  ⟨by decide, withinCap_run (.new 2) spacedRun (Each.of_check (fun _ _ => idle_iff) (by decide))⟩

/-- A source is installed again while one of its pages is fetched. -/
def reinstalledRun : List Action := [
  .register ⟨7⟩ none,
  .lookup ⟨7⟩,
  .take ⟨⟨7⟩, 0⟩,
  .register ⟨7⟩ none,
  .lookup ⟨7⟩,
  .take ⟨⟨7⟩, 1⟩]

/-- The new semaphore knows nothing of the permit that is still out. -/
theorem reinstalledRun_exceeds : ¬ ∀ (cap : Cap) (as : List Action),
    Always step WithinCap (.new cap) as := by
  intro h
  obtain ⟨t, ht, htest⟩ := @exists_exec _ _ step (.new (.new 1)) reinstalledRun
    (fun t => decide (t.cap.permits < t.outstanding ⟨7⟩)) (by decide)
  have hlt := of_decide_eq_true htest
  refine not_always_of_exec ht (fun hwithin => ?_) (h (.new 1) reinstalledRun)
  exact absurd (hwithin ⟨7⟩).1 (Nat.not_le_of_lt hlt)

end Limiter
end Nyuka
