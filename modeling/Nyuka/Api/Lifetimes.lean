import Nyuka.Api.Config
import Nyuka.Runtime.Dates

/-! Instants and durations made from an accepted configuration: the cutoffs of the job queue, and
the expiry of a session on its way through two time libraries and the database. Instants are
nanoseconds since the epoch. -/
namespace Nyuka
namespace Configuration
open Periods (nanosPerSec fromStd maxChrono)

section Libraries

/-- The first instant `chrono` has, and the one after its last. -/
def chronoMin : ℤ := -8334601228800 * nanosPerSec
def chronoEnd : ℤ := 8210266876800 * nanosPerSec

example : Runtime.dayNumber (-262143) 1 1 = some (chronoMin / (86400 * nanosPerSec)) := by
  decide
example : Runtime.dayNumber 262143 1 1 = some (chronoEnd / (86400 * nanosPerSec)) := by
  decide

/-- The first instant `time` has, and the one after its last. -/
def timeMin : ℤ := -377705116800 * nanosPerSec
def timeEnd : ℤ := 253402300800 * nanosPerSec

example : Runtime.dayNumber (-9999) 1 1 = some (timeMin / (86400 * nanosPerSec)) := by
  decide
example : Runtime.dayNumber 10000 1 1 = some (timeEnd / (86400 * nanosPerSec)) := by
  decide

/-- What a clock reads: no instant before the epoch, and none that `time` does not have. -/
structure Present where
  nanos : ℤ
  nonneg : 0 ≤ nanos
  lt_end : nanos < timeEnd

/-- A `chrono` instant less a duration. It panics where there is no such instant. -/
def subChrono (now duration : ℤ) : Option ℤ :=
  if chronoMin ≤ now - duration ∧ now - duration < chronoEnd then some (now - duration) else none

/-- An integer of 128 bits as one of 64. -/
def wrapI64 (n : ℤ) : ℤ := (n + 2 ^ 63) % 2 ^ 64 - 2 ^ 63

@[simp] theorem wrapI64_eq_self {n : ℤ} : wrapI64 n = n ↔ -2 ^ 63 ≤ n ∧ n < 2 ^ 63 := by
  unfold wrapI64
  omega

/-- A `time` instant and a duration after it, or the last or first instant there is. -/
def saturatingAdd (now duration : ℤ) : ℤ := max timeMin (min (timeEnd - 1) (now + duration))

end Libraries

section Uses

/-- Jobs that ended before it are pruned. -/
def pruneCutoff (olderThan now : ℤ) : Option ℤ := subChrono now olderThan

/-- Jobs that were locked before it are recovered. -/
def recoverCutoff (olderThan : ℕ) (now : ℤ) : Option ℤ :=
  subChrono now ((fromStd olderThan).getD (fromSecs 900))

/-- The whole seconds of the lifetime, as the session layer is given them. -/
def sessionLifetime (sessionTtl : ℕ) : ℤ := wrapI64 (sessionTtl / nanosPerSec : ℕ) * nanosPerSec

/-- When a session expires that is used now. -/
def expiryDate (sessionTtl : ℕ) (now : ℤ) : ℤ := saturatingAdd now (sessionLifetime sessionTtl)

def toChrono (expiry : ℤ) : ℤ := wrapI64 expiry

/-- `timestamp_nanos_opt` -/
def timestampNanosOpt (expiry : ℤ) : Option ℤ :=
  if -2 ^ 63 ≤ expiry ∧ expiry < 2 ^ 63 then some expiry else none

/-- The instant in `time`, unless it is out of range. -/
def toTime (expiry : ℤ) : Option ℤ :=
  let nanos := (timestampNanosOpt expiry).getD 0
  if timeMin ≤ nanos ∧ nanos < timeEnd then some nanos else none

/-- The first instant of the year 2000, which the database counts from. -/
def postgresEpoch : ℤ := 946684800 * nanosPerSec

/-- What a `timestamptz` column keeps of an instant: whole microseconds. -/
def column (instant : ℤ) : ℤ := postgresEpoch + (instant - postgresEpoch).tdiv 1000 * 1000

/-- An expiry that was saved and is loaded. -/
def reread (expiry : ℤ) : Option ℤ := toTime (column (toChrono expiry))

/-- No computation from the configuration overflows at this instant, and the expiry is kept. -/
structure Sound (config : Config) (now : ℤ) : Prop where
  prune : (pruneCutoff config.jobs.retention now).isSome
  recover : (recoverCutoff config.jobs.staleLock now).isSome
  lifetime : sessionLifetime config.auth.sessionTtl = config.auth.sessionTtl
  expiry : expiryDate config.auth.sessionTtl now = now + config.auth.sessionTtl
  toChrono : toChrono (expiryDate config.auth.sessionTtl now) =
    expiryDate config.auth.sessionTtl now
  toTime : toTime (expiryDate config.auth.sessionTtl now) =
    some (expiryDate config.auth.sessionTtl now)
  reread : reread (expiryDate config.auth.sessionTtl now) =
    some (expiryDate config.auth.sessionTtl now)

/-- The retention and a stale lock that `chrono` can hold reach no further back than its first year;
the expiry fits 64 bits, and it is a whole number of microseconds. -/
structure InRange (raw : RawConfig) (now : ℤ) : Prop where
  retention : raw.jobRetentionDays.toInt * 86400 * nanosPerSec ≤ now - chronoMin
  staleLock : fromSecs raw.jobStaleLockSecs.toNat ≤ maxChrono →
    fromSecs raw.jobStaleLockSecs.toNat ≤ now - chronoMin
  expiry : now + raw.sessionTtlHours.toNat * 3600 * nanosPerSec < 2 ^ 63
  whole : now % 1000 = 0

end Uses

section Bounds
variable {now : ℤ}

theorem isSome_subChrono {duration : ℤ} (hnow : 0 ≤ now) (hlt : now < timeEnd)
    (hduration : 0 ≤ duration) :
    (subChrono now duration).isSome ↔ duration ≤ now - chronoMin := by
  have hend : now - duration < chronoEnd := by
    simp only [timeEnd, chronoEnd, nanosPerSec, Nat.cast_ofNat] at hlt ⊢
    omega
  rw [subChrono, Option.isSome_ite, and_iff_left hend]
  exact le_sub_comm

theorem isSome_recoverCutoff {olderThan : ℕ} (hnow : 0 ≤ now) (hlt : now < timeEnd) :
    (recoverCutoff olderThan now).isSome ↔ olderThan ≤ maxChrono → olderThan ≤ now - chronoMin := by
  rw [recoverCutoff, fromStd]
  split
  · next hfits =>
    rw [Option.getD_some, isSome_subChrono hnow hlt (Int.natCast_nonneg _)]
    exact ⟨fun h _ => h, fun h => h hfits⟩
  · next hlong =>
    rw [Option.getD_none, isSome_subChrono hnow hlt (Int.natCast_nonneg _)]
    refine ⟨fun _ h => absurd h hlong, fun _ => ?_⟩
    simp only [fromSecs, chronoMin, nanosPerSec]
    omega

theorem sessionLifetime_fromSecs {secs : ℕ} (h : secs < 2 ^ 63) :
    sessionLifetime (fromSecs secs) = fromSecs secs := by
  have hsecs : fromSecs secs / nanosPerSec = secs := Nat.mul_div_cancel _ (by decide)
  rw [sessionLifetime, hsecs, wrapI64_eq_self.mpr (by omega), fromSecs]
  push_cast
  rfl

/-- A later instant is read in `time` only as itself, and only if its nanoseconds fit 64 bits. -/
theorem toTime_eq_some {instant expiry : ℤ} (h : 0 < expiry) :
    toTime instant = some expiry ↔ instant = expiry ∧ expiry < 2 ^ 63 := by
  rw [toTime, timestampNanosOpt]
  by_cases hfits : -2 ^ 63 ≤ instant ∧ instant < 2 ^ 63
  · have hrange : timeMin ≤ instant ∧ instant < timeEnd := by
      simp only [timeMin, timeEnd, nanosPerSec, Nat.cast_ofNat]
      omega
    simp only [if_pos hfits, Option.getD_some, if_pos hrange, Option.some.injEq]
    omega
  · have hzero : timeMin ≤ 0 ∧ 0 < timeEnd := by decide
    simp only [if_neg hfits, Option.getD_none, if_pos hzero, Option.some.injEq]
    omega

theorem column_eq_self {instant : ℤ} : column instant = instant ↔ instant % 1000 = 0 := by
  have hepoch : (1000 : ℤ) ∣ postgresEpoch := by decide
  rw [column, ← eq_sub_iff_add_eq', ← Int.dvd_iff_emod_eq_zero, ← dvd_sub_left hepoch]
  exact ⟨fun h => ⟨_, by rw [← h]; ring⟩, Int.tdiv_mul_cancel⟩

theorem expiryDate_fromSecs {secs : ℕ} (h : secs < 2 ^ 63) (hnow : 0 ≤ now) :
    expiryDate (fromSecs secs) now = min (timeEnd - 1) (now + fromSecs secs) := by
  have hmin : timeMin ≤ min (timeEnd - 1) (now + fromSecs secs) := by
    simp only [timeMin, timeEnd, nanosPerSec, Nat.cast_ofNat]
    omega
  rw [expiryDate, sessionLifetime_fromSecs h, saturatingAdd, max_eq_right hmin]

/-- An expiry is kept if it is in the 64 bits of nanoseconds and on a microsecond. -/
theorem reread_eq_some {expiry : ℤ} (h : 0 < expiry) (hfits : expiry < 2 ^ 63) :
    reread expiry = some expiry ↔ expiry % 1000 = 0 := by
  rw [reread, toTime_eq_some h, and_iff_left hfits, toChrono, wrapI64_eq_self.mpr (by omega),
    column_eq_self]

end Bounds

section Accepted
variable {env : Surroundings} {raw : RawConfig} {config : Config} {now : ℤ}

theorem chronoDays_isSome {days : ℤ} : (chronoDays (max days 0)).isSome ↔ days ≤ 106751991167 := by
  rw [chronoDays, Option.isSome_ite, abs_of_nonneg (by omega), maxChronoSecs]
  omega

/-- What the numbers of an accepted configuration come from. -/
structure Numbers (raw : RawConfig) (config : Config) : Prop where
  retention : config.jobs.retention = raw.jobRetentionDays.toInt * 86400 * nanosPerSec
  retention_pos : 0 < raw.jobRetentionDays.toInt
  staleLock : config.jobs.staleLock = fromSecs raw.jobStaleLockSecs.toNat
  sessionTtl : config.auth.sessionTtl = fromSecs (raw.sessionTtlHours.toNat * 3600)
  hours_pos : 0 < raw.sessionTtlHours.toNat

theorem numbers_of_validate (h : validate env raw = some (.ok config)) : Numbers raw config := by
  obtain ⟨retention, bindAddr, hdays, hnone, rfl⟩ := of_validate_ok h
  simp only [problems, List.append_eq_nil_iff] at hnone
  obtain ⟨⟨⟨-, hnumbers⟩, hchecked⟩, -⟩ := hnone
  simp only [numberProblems, List.append_eq_nil_iff] at hnumbers
  have hhours : raw.sessionTtlHours ≠ 0 :=
    beq_eq_false_iff_ne.mp (complain_eq_nil.mp hnumbers.1.1.1.1.1.1)
  have hretention : 0 < retention := by
    have hlongest : 0 ≤ (fromStd (Periods.longest Periods.shipped)).getD 0 := by decide
    refine lt_of_le_of_lt hlongest (Periods.checkRetention_ok_iff.mp ?_)
    unfold retentionProblems at hchecked
    split at hchecked
    · next hok => exact hok
    · cases hchecked
  rw [chronoDays, Option.ite_none_right_eq_some] at hdays
  obtain ⟨-, hdays⟩ := hdays
  have hdays := (Option.some.inj hdays).symm
  have hpos : 0 < raw.jobRetentionDays.toInt := by
    simp only [nanosPerSec, Nat.cast_ofNat] at hdays
    omega
  rw [max_eq_left hpos.le] at hdays
  exact ⟨hdays, hpos, rfl, rfl, Nat.pos_of_ne_zero fun hzero => hhours (UInt32.toNat_inj.mp hzero)⟩

/-- A lifetime is a whole number of microseconds. -/
theorem emod_add_ttl (hnumbers : Numbers raw config) :
    (now + config.auth.sessionTtl) % 1000 = now % 1000 := by
  rw [hnumbers.sessionTtl, fromSecs, nanosPerSec]
  omega

theorem inRange_of_sound (hnumbers : Numbers raw config) (hnow : 0 ≤ now) (hlt : now < timeEnd)
    (hsound : Sound config now) : InRange raw now := by
  have hretention := hnumbers.retention
  have hfits : now + config.auth.sessionTtl < 2 ^ 63 := by
    have hwrap := hsound.toChrono
    rw [toChrono, wrapI64_eq_self, hsound.expiry] at hwrap
    exact hwrap.2
  have hpos : 0 < now + config.auth.sessionTtl := by
    have hhours := hnumbers.hours_pos
    rw [hnumbers.sessionTtl, fromSecs, nanosPerSec]
    omega
  refine ⟨?_, ?_, ?_, ?_⟩
  · rw [← hretention]
    refine (isSome_subChrono hnow hlt ?_).mp hsound.prune
    have hdays := hnumbers.retention_pos
    rw [hretention]
    positivity
  · rw [← hnumbers.staleLock]
    exact (isSome_recoverCutoff hnow hlt).mp hsound.recover
  · rw [hnumbers.sessionTtl, fromSecs] at hfits
    push_cast at hfits
    exact hfits
  · have hreread := hsound.reread
    rwa [hsound.expiry, reread_eq_some hpos hfits, emod_add_ttl hnumbers] at hreread

theorem sound_of_inRange (hnumbers : Numbers raw config) (hnow : 0 ≤ now) (hlt : now < timeEnd)
    (hrange : InRange raw now) : Sound config now := by
  have httl := hnumbers.sessionTtl
  have hsecs : raw.sessionTtlHours.toNat * 3600 < 2 ^ 63 := by
    have hhours := raw.sessionTtlHours.toNat_lt
    omega
  have hfits : now + config.auth.sessionTtl < 2 ^ 63 := by
    have hexpiry := hrange.expiry
    rw [httl, fromSecs]
    push_cast
    exact hexpiry
  have hpos : 0 < now + config.auth.sessionTtl := by
    have hhours := hnumbers.hours_pos
    rw [httl, fromSecs, nanosPerSec]
    omega
  have hexpiry : expiryDate config.auth.sessionTtl now = now + config.auth.sessionTtl := by
    rw [httl, expiryDate_fromSecs hsecs hnow, ← httl]
    refine min_eq_right ?_
    simp only [timeEnd, nanosPerSec, Nat.cast_ofNat]
    omega
  refine ⟨?_, ?_, ?_, hexpiry, ?_, ?_, ?_⟩
  · refine (isSome_subChrono hnow hlt ?_).mpr (hnumbers.retention ▸ hrange.retention)
    have hdays := hnumbers.retention_pos
    rw [hnumbers.retention]
    positivity
  · rw [isSome_recoverCutoff hnow hlt, hnumbers.staleLock]
    exact hrange.staleLock
  · rw [httl, sessionLifetime_fromSecs hsecs]
  · rw [hexpiry, toChrono, wrapI64_eq_self]
    omega
  · rw [hexpiry, toTime_eq_some hpos]
    exact ⟨rfl, hfits⟩
  · rw [hexpiry, reread_eq_some hpos hfits, emod_add_ttl hnumbers]
    exact hrange.whole

/-- When the check returns at all, and when what it accepts can be computed with. -/
theorem arithmetic_sound_iff (env : Surroundings) (raw : RawConfig) :
    ((validate env raw).isSome ↔ raw.jobRetentionDays.toInt ≤ 106751991167) ∧
    ∀ config, validate env raw = some (.ok config) → ∀ now : Present,
      Sound config now.nanos ↔ InRange raw now.nanos := by
  refine ⟨isSome_validate.trans chronoDays_isSome, fun config h now => ?_⟩
  have hnumbers := numbers_of_validate h
  exact ⟨inRange_of_sound hnumbers now.nonneg now.lt_end,
    sound_of_inRange hnumbers now.nonneg now.lt_end⟩

end Accepted

/-- The first second of the year 2026. -/
def newYear : Present := ⟨1767225600 * nanosPerSec, by decide, by decide⟩

theorem barebones_sound : ∃ config, validate outside barebones = some (.ok config) ∧
    Sound config newYear.nanos := by
  obtain ⟨bindAddr, haccepted⟩ := @validate_of_no_problems outside barebones
    (30 * 86400 * nanosPerSec) (by decide) (by decide)
  exact ⟨_, haccepted, ((arithmetic_sound_iff outside barebones).2 _ haccepted newYear).mpr
    ⟨by decide, by decide, by decide, by decide⟩⟩

/-- The check panics at too long a retention, and accepts a lifetime of 250 years, whose end does
not fit the nanoseconds. -/
theorem retention_panics : (¬ ∀ env raw, (validate env raw).isSome) ∧
    ¬ ∀ env raw config, validate env raw = some (.ok config) → ∀ now : Present,
      Sound config now.nanos := by
  constructor
  · intro h
    exact absurd (h outside { barebones with jobRetentionDays := 106751991168 }) (by decide)
  · intro h
    obtain ⟨bindAddr, haccepted⟩ := @validate_of_no_problems outside
      { barebones with sessionTtlHours := 2191500 } (30 * 86400 * nanosPerSec) (by decide)
      (by decide)
    have hrange := inRange_of_sound (numbers_of_validate haccepted) newYear.nonneg newYear.lt_end
      (h _ _ _ haccepted newYear)
    exact absurd hrange.expiry (by decide)

end Configuration
end Nyuka
