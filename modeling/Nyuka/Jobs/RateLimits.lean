import Nyuka.Runtime.Restart
import Nyuka.Jobs.Limiter
import Mathlib.Data.List.Perm.Subperm

/-! What becomes of a rate limit that a source's module declares. The host notes it for as long as
the invocation lives, while the limiter is registered from what the source's row says. -/
namespace Nyuka
namespace RateLimits
open Limiter Runs Tables Table

/-- The arguments of one call of `net::set_rate_limit`. -/
structure WireLimit where
  permits : Int32
  period : Int32
  unit : Int32

/-- `net::set_rate_limit`: a triple that is no limit clears the one before. -/
def setRateLimit (_ : Option RateLimit) (call : WireLimit) : Option RateLimit :=
  RateLimit.fromWire call.permits.toInt call.period.toInt call.unit.toInt

/-- What the host has noted when an invocation with these calls ends. -/
def declaredRateLimit (calls : List WireLimit) : Option RateLimit := calls.foldl setRateLimit none

private theorem onePermit_ne_zero : (1 : UInt32) ≠ 0 := by decide

/-- A recorded limit as the limiter reads it, which lets at least one through. -/
def atLeastOne (limit : RateLimit) : DeclaredLimit :=
  if h : limit.permits = 0 then ⟨{ limit with permits := 1 }, onePermit_ne_zero⟩ else ⟨limit, h⟩

/-- The limit a source is registered with. -/
def rowLimit (row : InstalledSource) : Option DeclaredLimit := row.declaredRateLimit.map atLeastOne

theorem registered_rowLimit (cap : Cap) {row : InstalledSource} {limit : RateLimit}
    (h : row.declaredRateLimit = some limit) :
    registered cap (rowLimit row) = max (min limit.permits.toNat cap.permits) 1 := by
  have hcap := cap.positive
  rw [rowLimit, h, Option.map_some, atLeastOne]
  split
  · next hzero =>
    show max (min 1 cap.permits) 1 = max (min limit.permits.toNat cap.permits) 1
    have hnone : limit.permits.toNat = 0 := by rw [hzero]; rfl
    omega
  · rfl

/-- `since` are the permits acquired since the source's module has declared a limit and not yet
dropped. -/
structure System where
  registry : Runtime.Registry
  limiter : SourceLimiter
  declared : SourceId → Option RateLimit
  since : SourceId → List Permit

def System.init (cap : Cap) : System := ⟨Runtime.noSources, .new cap, fun _ => none, fun _ => []⟩

/-- Every installed source's limit is registered before any work starts. -/
def startLimiter (cap : Cap) (rows : List InstalledSource) : SourceLimiter :=
  rows.foldl (fun limiter row => limiter.put row.id (rowLimit row)) (.new cap)

inductive Event where
  | install (faults : Runtime.Faults) (drawn : SourceId) (repo : SourceRepoId) (bytes : Bytes)
  | uninstall (faults : Runtime.Faults) (source : SourceId)
  /-- `listed` tells whether the sources can be listed when the limiter is made. -/
  | restart (faults : Runtime.LoadFaults) (listed : Bool)
  /-- An invocation of the source's module that completes. -/
  | invoke (source : SourceId) (calls : List WireLimit)
  /-- What the tasks do that acquire permits; none of them registers a source. -/
  | work (a : Limiter.Action)

/-- A task acquires a permit of the source, or drops one. -/
def noted (s : System) : Limiter.Action → SourceId → List Permit
  | .take waiter => Function.update s.since waiter.source
    (⟨waiter.source, waiter.semaphore, s.limiter.budget waiter.source⟩ :: s.since waiter.source)
  | .release permit => Function.update s.since permit.source
    ((s.since permit.source).erase permit)
  | _ => s.since

def step (host : Runtime.Compiler) (s : System) : Event → Option System
  | .install faults drawn repo bytes =>
    if bytes.length ≤ Runtime.maxPackageBytes then
      match Runtime.installBytes host faults drawn repo bytes s.registry with
      | (registry, .ok installed) => some { s with
          registry, limiter := s.limiter.put installed.id (rowLimit installed) }
      | (registry, .error _) => some { s with registry }
    else none
  | .uninstall faults source =>
    some { s with registry := (Runtime.uninstall faults source s.registry).1 }
  | .restart faults listed => some { s with
      registry := Runtime.restart host faults s.registry
      limiter := startLimiter s.limiter.cap (if listed then s.registry.db.sources.rows else [])
      since := fun _ => [] }
  | .invoke source calls =>
    if (s.registry.modules.get source).isSome then
      match declaredRateLimit calls with
      | some limit => some { s with
          declared := Function.update s.declared source (some limit)
          since := Function.update s.since source [] }
      | none => some s
    else none
  | .work (.register _ _) => none
  | .work a => (Limiter.step s.limiter a).map fun limiter =>
    { s with limiter, since := noted s a }

/-- What has been acquired of a source since its module declared a limit is at no time more than
the smaller of that limit and the operator's cap. -/
def Respected (s : System) : Prop :=
  ∀ source limit, s.declared source = some limit →
    (s.since source).length ≤ min limit.permits.toNat s.limiter.cap.permits

/-- A module declares no less than the operator's cap, and a source is installed again only while
no task holds or awaits one of its permits. -/
def Harmless (host : Runtime.Compiler) (s : System) : Event → Prop
  | .install faults drawn repo bytes => ∀ installed,
    (Runtime.installBytes host faults drawn repo bytes s.registry).2 = .ok installed →
      Idle s.limiter (.register installed.id (rowLimit installed))
  | .invoke _ calls => ∀ limit, declaredRateLimit calls = some limit →
    s.limiter.cap.permits ≤ limit.permits.toNat
  | _ => True

structure Sound (s : System) : Prop where
  counted : Counted s.limiter
  since : ∀ source, (s.since source).Subperm s.limiter.permits
  own : ∀ source, ∀ p ∈ s.since source, p.source = source
  declared : ∀ source limit, s.declared source = some limit →
    s.limiter.cap.permits ≤ limit.permits.toNat

theorem Sound.respected {s : System} (h : Sound s) : Respected s := by
  intro source limit hdeclared
  have hcap := h.declared source limit hdeclared
  have hall : (s.since source).countP (fun p => p.source = source) = (s.since source).length :=
    List.countP_eq_length.mpr fun p hp => by simpa using h.own source p hp
  have hcount : (s.since source).length ≤ s.limiter.outstanding source := by
    rw [← hall]
    exact (h.since source).countP_le _
  have hwithin := (h.counted.withinCap source).1
  omega

/-- What a registration keeps holds of the limiter a process starts with. -/
theorem startLimiter_induction {P : SourceLimiter → Prop} {cap : Cap} {rows : List InstalledSource}
    (hnew : P (.new cap))
    (hput : ∀ limiter, P limiter → ∀ row ∈ rows, P (limiter.put row.id (rowLimit row))) :
    P (startLimiter cap rows) :=
  List.foldlRecOn rows _ hnew hput

@[simp] theorem startLimiter_cap (cap : Cap) (rows : List InstalledSource) :
    (startLimiter cap rows).cap = cap := by
  apply startLimiter_induction (P := fun limiter => limiter.cap = cap) rfl
  exact fun _ h _ _ => h

@[simp] theorem startLimiter_permits (cap : Cap) (rows : List InstalledSource) :
    (startLimiter cap rows).permits = [] := by
  apply startLimiter_induction (P := fun limiter => limiter.permits = []) rfl
  exact fun _ h _ _ => h

theorem counted_startLimiter (cap : Cap) (rows : List InstalledSource) :
    Counted (startLimiter cap rows) := by
  have hidle : Counted (startLimiter cap rows) ∧ (startLimiter cap rows).permits = [] ∧
      (startLimiter cap rows).waiting = [] := by
    apply startLimiter_induction (P := fun limiter => Counted limiter ∧ limiter.permits = [] ∧
      limiter.waiting = []) ⟨counted_new cap, rfl, rfl⟩
    intro limiter h row _
    obtain ⟨hcounted, hpermits, hwaiting⟩ := h
    refine ⟨hcounted.put _ (fun p hp => ?_) fun w hw => ?_, hpermits, hwaiting⟩
    · rw [hpermits] at hp
      cases hp
    · rw [hwaiting] at hw
      cases hw
  exact hidle.1

theorem limiter_step_cap {l l' : SourceLimiter} {a : Limiter.Action}
    (h : Limiter.step l a = some l') : l'.cap = l.cap := by
  cases a with
  | register source declared => cases h; rfl
  | lookup source =>
    simp only [Limiter.step] at h
    split at h <;> cases h <;> rfl
  | take waiter | abandon waiter | release permit =>
    simp only [Limiter.step] at h
    split at h <;> cases h
    rfl

section Steps
variable {host : Runtime.Compiler} {s t : System}

/-- What is noted of a source is out. -/
theorem subperm_noted (h : Sound s) {a : Limiter.Action} {limiter : SourceLimiter}
    (hstep : Limiter.step s.limiter a = some limiter) (hregister : ∀ x d, a ≠ .register x d)
    (source : SourceId) : (noted s a source).Subperm limiter.permits := by
  cases a with
  | register x d => exact absurd rfl (hregister x d)
  | lookup x =>
    simp only [Limiter.step] at hstep
    split at hstep <;> cases hstep <;> exact h.since source
  | abandon waiter =>
    simp only [Limiter.step] at hstep
    split at hstep <;> cases hstep
    exact h.since source
  | take waiter =>
    simp only [Limiter.step] at hstep
    split at hstep <;> cases hstep
    by_cases hsource : source = waiter.source
    · subst hsource
      rw [noted, Function.update_self]
      exact (List.subperm_cons _).mpr (h.since _)
    · rw [noted, Function.update_of_ne hsource]
      exact (h.since source).trans (List.sublist_cons_self _ _).subperm
  | release permit =>
    simp only [Limiter.step] at hstep
    split at hstep <;> cases hstep
    by_cases hsource : source = permit.source
    · subst hsource
      rw [noted, Function.update_self]
      exact (h.since _).erase permit
    · -- the permit is of another source, so none of this one's is dropped
      have hnotin : permit ∉ s.since source := fun hmem => hsource (h.own source permit hmem).symm
      rw [noted, Function.update_of_ne hsource, ← List.erase_of_not_mem hnotin]
      exact (h.since source).erase permit

private theorem own_noted (h : Sound s) {a : Limiter.Action} {source : SourceId} {p : Permit}
    (hp : p ∈ noted s a source) : p.source = source := by
  cases a with
  | take waiter =>
    by_cases hsource : source = waiter.source
    · subst hsource
      rw [noted, Function.update_self] at hp
      rcases List.mem_cons.mp hp with rfl | hp
      · rfl
      · exact h.own _ p hp
    · rw [noted, Function.update_of_ne hsource] at hp
      exact h.own source p hp
  | release permit =>
    by_cases hsource : source = permit.source
    · subst hsource
      rw [noted, Function.update_self] at hp
      exact h.own _ p (List.mem_of_mem_erase hp)
    · rw [noted, Function.update_of_ne hsource] at hp
      exact h.own source p hp
  | _ => exact h.own source p hp

theorem Sound.work (h : Sound s) {a : Limiter.Action} {limiter : SourceLimiter}
    (hstep : Limiter.step s.limiter a = some limiter) (hregister : ∀ x d, a ≠ .register x d) :
    Sound { s with limiter, since := noted s a } where
  counted := by
    refine counted_step h.counted ?_ hstep
    cases a with
    | register x d => exact absurd rfl (hregister x d)
    | _ => trivial
  since := subperm_noted h hstep hregister
  own _ _ hp := own_noted h hp
  declared source limit hdeclared := by
    show limiter.cap.permits ≤ limit.permits.toNat
    rw [limiter_step_cap hstep]
    exact h.declared source limit hdeclared

theorem Sound.install (h : Sound s) {installed : InstalledSource}
    (hidle : Idle s.limiter (.register installed.id (rowLimit installed)))
    (registry : Runtime.Registry) :
    Sound { s with registry, limiter := s.limiter.put installed.id (rowLimit installed) } where
  counted := h.counted.put _ hidle.1 hidle.2
  since := h.since
  own := h.own
  declared := h.declared

/-- What was acquired before does not count against a limit declared now. -/
theorem Sound.invoke (h : Sound s) (source : SourceId) {limit : RateLimit}
    (hharmless : s.limiter.cap.permits ≤ limit.permits.toNat) :
    Sound { s with
      declared := Function.update s.declared source (some limit)
      since := Function.update s.since source [] } where
  counted := h.counted
  since x := by
    by_cases hx : x = source
    · subst hx
      simp only [Function.update_self]
      exact List.nil_subperm
    · simp only [Function.update_of_ne hx]
      exact h.since x
  own x p hp := by
    by_cases hx : x = source
    · subst hx
      simp only [Function.update_self] at hp
      cases hp
    · simp only [Function.update_of_ne hx] at hp
      exact h.own x p hp
  declared x l hl := by
    by_cases hx : x = source
    · subst hx
      simp only [Function.update_self] at hl
      cases hl
      exact hharmless
    · simp only [Function.update_of_ne hx] at hl
      exact h.declared x l hl

/-- A new process starts with no permit out. -/
theorem Sound.restart (h : Sound s) (registry : Runtime.Registry) (rows : List InstalledSource) :
    Sound { s with
      registry, limiter := startLimiter s.limiter.cap rows, since := fun _ => [] } where
  counted := counted_startLimiter _ _
  since _ := List.nil_subperm
  own _ p hp := by cases hp
  declared source limit hdeclared := by
    show (startLimiter s.limiter.cap rows).cap.permits ≤ limit.permits.toNat
    rw [startLimiter_cap]
    exact h.declared source limit hdeclared

theorem sound_step {e : Event} (h : Sound s) (hharmless : Harmless host s e)
    (hstep : step host s e = some t) : Sound t := by
  cases e with
  | install faults drawn repo bytes =>
    simp only [step] at hstep
    split at hstep
    · split at hstep
      · next registry installed hinstall =>
        cases hstep
        exact h.install (hharmless installed (by rw [hinstall])) registry
      · cases hstep
        exact ⟨h.counted, h.since, h.own, h.declared⟩
    · cases hstep
  | uninstall faults source =>
    cases hstep
    exact ⟨h.counted, h.since, h.own, h.declared⟩
  | restart faults listed =>
    cases hstep
    exact h.restart _ _
  | invoke source calls =>
    simp only [step] at hstep
    split at hstep
    · split at hstep
      · next limit hlimit =>
        cases hstep
        exact h.invoke source (hharmless limit hlimit)
      · cases hstep
        exact h
    · cases hstep
  | work a =>
    have hregister : ∀ x d, a ≠ .register x d := by
      rintro x d rfl
      cases hstep
    obtain ⟨limiter, hlimiter, rfl⟩ : ∃ limiter, Limiter.step s.limiter a = some limiter ∧
        { s with limiter, since := noted s a } = t := by
      cases a with
      | register x d => exact absurd rfl (hregister x d)
      | _ => exact Option.map_eq_some_iff.mp hstep
    exact h.work hlimiter hregister

theorem sound_init (cap : Cap) : Sound (.init cap) where
  counted := counted_new cap
  since _ := List.nil_subperm
  own _ p hp := by cases hp
  declared _ _ h := by cases h

/-- In a run of any sources' installs, uninstalls, restarts and invocations in which no module
declares less than the operator's cap, the limits that are declared are respected. -/
theorem declared_respected {cap : Cap} {events : List Event}
    (h : Each (step host) (Harmless host) (.init cap) events) :
    Always (step host) Respected (.init cap) events :=
  (Always.of_each (fun _ _ _ => sound_step) (sound_init cap) h).imp fun _ => Sound.respected

end Steps

/-! What a module declares is lost with its invocation. -/

/-- No row says that its source has declared a limit. -/
def Untold (s : System) : Prop := ∀ row ∈ s.registry.db.sources.rows, row.declaredRateLimit = none

theorem untold_upsert {sources sources' : Persistence.SourceTable} {candidate : InstalledSource}
    {drawn stored : SourceId}
    (hup : Persistence.upsertSource sources candidate drawn = .ok (sources', stored))
    (hcandidate : candidate.declaredRateLimit = none)
    (h : ∀ row ∈ sources.rows, row.declaredRateLimit = none) :
    ∀ row ∈ sources'.rows, row.declaredRateLimit = none := by
  unfold Persistence.upsertSource at hup
  intro row hrow
  split at hup
  · cases hup
    obtain ⟨r, hr, rfl⟩ := mem_updateWhere.mp hrow
    split
    · simp [Persistence.assign, hcandidate, h r hr]
    · exact h r hr
  · split at hup <;> cases hup
    rcases mem_insert.mp hrow with rfl | hrow
    · exact hcandidate
    · exact h row hrow

section Untold
variable {host : Runtime.Compiler} {s t : System}

theorem untold_install {faults : Runtime.Faults} {drawn : SourceId} {repo : SourceRepoId}
    {bytes : Bytes} (h : Untold s) :
    ∀ row ∈ (Runtime.installBytes host faults drawn repo bytes s.registry).1.db.sources.rows,
      row.declaredRateLimit = none := by
  cases hinstall : Runtime.installBytes host faults drawn repo bytes s.registry with
  | mk registry answer =>
    obtain ⟨ended, hleft⟩ := Runtime.installBytes_cases hinstall
    cases ended with
    | prepare | upsert =>
      obtain ⟨rfl, -⟩ := hleft
      exact h
    | save =>
      obtain ⟨-, -, prepared, sources, stored, hup, rfl⟩ := hleft
      exact untold_upsert hup.2.2 rfl h
    | later =>
      obtain ⟨-, -, prepared, sources, stored, kv, hup, -, rfl⟩ := hleft
      exact untold_upsert hup.2.2 rfl h
    | done =>
      obtain ⟨-, prepared, sources, stored, kv, -, hup, -, rfl⟩ := hleft
      exact untold_upsert hup.2.2 rfl h

theorem untold_uninstall {faults : Runtime.Faults} {source : SourceId} (h : Untold s) :
    ∀ row ∈ (Runtime.uninstall faults source s.registry).1.db.sources.rows,
      row.declaredRateLimit = none := by
  unfold Runtime.uninstall
  split
  · exact h
  · split
    · exact h
    · split
      · exact h
      · exact fun row hrow => h row (mem_deleteWhere.mp hrow).1

theorem untold_step {e : Event} (h : Untold s) (hstep : step host s e = some t) : Untold t := by
  cases e with
  | install faults drawn repo bytes =>
    have hrows := @untold_install host s faults drawn repo bytes h
    simp only [step] at hstep
    split at hstep
    · split at hstep <;> next hinstall => cases hstep; rw [hinstall] at hrows; exact hrows
    · cases hstep
  | uninstall faults source =>
    cases hstep
    exact untold_uninstall h
  | restart faults listed =>
    cases hstep
    intro row hrow
    rw [(Runtime.restart_stores host faults s.registry).1] at hrow
    exact h row hrow
  | invoke source calls =>
    simp only [step] at hstep
    split at hstep
    · split at hstep <;> cases hstep <;> exact h
    · cases hstep
  | work a =>
    cases a with
    | register _ _ => cases hstep
    | _ =>
      obtain ⟨limiter, -, rfl⟩ := Option.map_eq_some_iff.mp hstep
      exact h

/-- Whatever the modules have declared, no row is ever told. -/
theorem untold_reachable {cap : Cap} (hs : Reachable (step host) (.init cap) s) : Untold s :=
  hs.invariant (fun row hrow => by cases hrow) fun _ _ _ => untold_step

theorem startLimiter_untold {cap : Cap} {rows : List InstalledSource}
    (h : ∀ row ∈ rows, row.declaredRateLimit = none) :
    ∀ source, (startLimiter cap rows).declared source = none := by
  apply startLimiter_induction (P := fun limiter => ∀ source, limiter.declared source = none)
    fun _ => rfl
  intro limiter hnone row hrow source
  show Function.update limiter.declared row.id (rowLimit row) source = none
  by_cases hsource : source = row.id
  · subst hsource
    rw [Function.update_self, rowLimit, h row hrow, Option.map_none]
  · rw [Function.update_of_ne hsource]
    exact hnone source

/-- Tasks can acquire all free permits of a source's semaphore. -/
theorem exists_granted {source : SourceId} {semaphore n : ℕ}
    (hlimit : s.limiter.limits source = some semaphore)
    (hfree : s.limiter.available semaphore = n) :
    ∃ events t, exec (step host) s events = some t ∧ t.declared = s.declared ∧
      t.limiter.cap = s.limiter.cap ∧ (t.since source).length = (s.since source).length + n := by
  induction n generalizing s with
  | zero => exact ⟨[], s, rfl, rfl, rfl, rfl⟩
  | succ n ih =>
    let permit : Permit := ⟨source, semaphore, s.limiter.budget source⟩
    let u : System := { s with
      limiter := { s.limiter with
        available := Function.update s.limiter.available semaphore
          (s.limiter.available semaphore - 1)
        permits := permit :: s.limiter.permits }
      since := Function.update s.since source (permit :: s.since source) }
    let first : List Event := [.work (.lookup source), .work (.take ⟨source, semaphore⟩)]
    have hu : exec (step host) s first = some u := by
      simp [first, step, Limiter.step, hlimit, u, permit, hfree, noted, SourceLimiter.budget]
    obtain ⟨events, t, ht, hdeclared, hcap, hlength⟩ := ih (s := u) hlimit (by simp [u, hfree])
    refine ⟨first ++ events, t, ?_, hdeclared, hcap, ?_⟩
    · rw [exec_append, hu]
      exact ht
    · rw [hlength]
      simp [u]
      omega

/-- After a restart that finds the rows untold, a source can have as many permits as the cap. -/
theorem granted_after_restart (huntold : Untold s) (source : SourceId) :
    ∃ events t, exec (step host) s events = some t ∧ t.declared = s.declared ∧
      t.limiter.cap = s.limiter.cap ∧ (t.since source).length = s.limiter.cap.permits := by
  let rows := s.registry.db.sources.rows
  let limiter := startLimiter s.limiter.cap rows
  let u : System := { s with
    registry := Runtime.restart host Runtime.noFaults s.registry
    limiter, since := fun _ => [] }
  have hu : exec (step host) s [.restart Runtime.noFaults true] = some u := rfl
  have hcap : limiter.cap = s.limiter.cap := startLimiter_cap _ _
  obtain ⟨first, v, hv, hdeclared, hvcap, hsince, semaphore, hlimit, hfree⟩ :
      ∃ first v, exec (step host) u first = some v ∧ v.declared = s.declared ∧
        v.limiter.cap = s.limiter.cap ∧ v.since source = [] ∧
        ∃ semaphore, v.limiter.limits source = some semaphore ∧
          v.limiter.available semaphore = s.limiter.cap.permits := by
    cases hlimit : limiter.limits source with
    | some semaphore =>
      have hcount : limiter.available semaphore + limiter.outstanding source =
          limiter.budget source :=
        (counted_startLimiter s.limiter.cap rows).free source semaphore hlimit
      have hnone : limiter.outstanding source = 0 := by
        rw [SourceLimiter.outstanding, startLimiter_permits]
        rfl
      have hbudget : limiter.budget source = s.limiter.cap.permits := by
        rw [SourceLimiter.budget, startLimiter_untold huntold, hcap]
        rfl
      refine ⟨[], u, rfl, rfl, hcap, rfl, semaphore, hlimit, ?_⟩
      show limiter.available semaphore = s.limiter.cap.permits
      omega
    | none =>
      let w : System := { u with limiter := { limiter.put source none with
        waiting := ⟨source, limiter.made⟩ :: limiter.waiting } }
      have hw : exec (step host) u [.work (.lookup source)] = some w := by
        simp [step, Limiter.step, u, hlimit, w, noted]
      refine ⟨_, w, hw, rfl, hcap, rfl, limiter.made, Function.update_self _ _ _, ?_⟩
      show Function.update limiter.available limiter.made limiter.cap.permits limiter.made = _
      rw [Function.update_self, hcap]
  obtain ⟨events, t, ht, htdeclared, htcap, hlength⟩ :=
    @exists_granted host v source semaphore s.limiter.cap.permits hlimit hfree
  refine ⟨[.restart Runtime.noFaults true] ++ (first ++ events), t, ?_, htdeclared.trans hdeclared,
    htcap.trans hvcap, ?_⟩
  · rw [exec_append, hu]
    show exec (step host) u (first ++ events) = some t
    rw [exec_append, hv]
    exact ht
  · rw [hlength, hsince, List.length_nil, Nat.zero_add]

/-- Once a module has declared less than the operator's cap, the run can go on so that the limit
is exceeded. -/
theorem exceeded_of_below {cap : Cap} (hs : Reachable (step host) (.init cap) s)
    {source : SourceId} {limit : RateLimit} (hdeclared : s.declared source = some limit)
    (hbelow : limit.permits.toNat < s.limiter.cap.permits) :
    ∃ events, ¬ Always (step host) Respected s events := by
  obtain ⟨events, t, ht, hsame, hcap, hlength⟩ :=
    @granted_after_restart host s (untold_reachable hs) source
  refine ⟨events, not_always_of_exec ht fun hrespected => ?_⟩
  have hle := hrespected source limit (by rw [hsame]; exact hdeclared)
  rw [hcap] at hle
  omega

end Untold

/-- A source's module declares two permits in two seconds, under a cap of two; then two of its pages
are fetched at a time. -/
def modestRun : List Event := [
  .install (fun _ => none) ⟨2⟩ ⟨1⟩ [],
  .invoke ⟨2⟩ [⟨2, 2, 0⟩],
  .work (.lookup ⟨2⟩),
  .work (.take ⟨⟨2⟩, 0⟩),
  .work (.lookup ⟨2⟩),
  .work (.take ⟨⟨2⟩, 0⟩)]

/-- A test for runs that install while no permit is out. -/
def harmless (s : System) : Event → Bool
  | .install _ _ _ _ => s.limiter.permits.isEmpty && s.limiter.waiting.isEmpty
  | .invoke _ calls =>
    (declaredRateLimit calls).all fun limit => s.limiter.cap.permits ≤ limit.permits.toNat
  | _ => true

private theorem harmless_of_test {host : Runtime.Compiler} (s : System) (e : Event)
    (h : harmless s e = true) : Harmless host s e := by
  cases e with
  | install faults drawn repo bytes =>
    rw [harmless, Bool.and_eq_true, List.isEmpty_iff, List.isEmpty_iff] at h
    intro installed _
    constructor
    · rw [h.1]
      exact fun p hp => by cases hp
    · rw [h.2]
      exact fun w hw => by cases hw
  | invoke source calls =>
    intro limit hlimit
    rw [harmless, hlimit] at h
    exact of_decide_eq_true h
  | _ => trivial

theorem modestRun_respected :
    (exec (step Runtime.exampleHost) (.init (.new 2)) modestRun).isSome = true ∧
      Always (step Runtime.exampleHost) Respected (.init (.new 2)) modestRun :=
  ⟨by decide, declared_respected (Each.of_check harmless_of_test (by decide))⟩

/-- The same under a cap of four, and with a third page. -/
def strictRun : List Event := modestRun ++ [
  .work (.lookup ⟨2⟩),
  .work (.take ⟨⟨2⟩, 0⟩)]

/-- The limiter has never heard of the limit that the module has declared. -/
theorem strictRun_exceeds : ¬ ∀ (host : Runtime.Compiler) (cap : Cap) (events : List Event),
    Always (step host) Respected (.init cap) events := by
  intro h
  obtain ⟨t, ht, htest⟩ := @exists_exec _ _ (step Runtime.exampleHost) (.init (.new 4)) strictRun
    (fun t => (t.declared ⟨2⟩).any fun limit =>
      min limit.permits.toNat t.limiter.cap.permits < (t.since ⟨2⟩).length) (by decide)
  obtain ⟨limit, hdeclared, hlt⟩ := (Option.any_eq_true _ _).mp htest
  refine not_always_of_exec ht (fun hrespected => ?_) (h _ _ strictRun)
  exact absurd (hrespected ⟨2⟩ limit hdeclared) (Nat.not_le_of_lt (of_decide_eq_true hlt))

end RateLimits
end Nyuka
