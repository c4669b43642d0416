import Nyuka.Domain.Library

/-! Where series come from: repositories, what they offer, and the sources installed from
them; and what a reader follows. -/
namespace Nyuka

inductive Capability where
  | net | html | defaults | std | jsContext | jsWebView | canvas
deriving DecidableEq, Repr

structure SourceRepo where
  id : SourceRepoId
  name : String
  url : String
  lastRefreshedAt : Option Time
  createdAt : Time
deriving DecidableEq, Repr

structure SourceEntry where
  repoId : SourceRepoId
  externalId : ExternalKey
  name : String
  version : UInt32
  downloadUrl : String
deriving DecidableEq, Repr

/-- A source's declared budget. -/
structure RateLimit where
  permits : UInt32
  periodSeconds : UInt32
deriving DecidableEq, Repr

/-- The seconds of a unit as the guest numbers it. -/
def secondsOfUnit : ℤ → Option ℕ
  | 0 => some 1
  | 1 => some 60
  | 2 => some 3600
  | _ => none

/-- Builds a limit from the `net::set_rate_limit` wire triple. -/
def RateLimit.fromWire (permits period unit : ℤ) : Option RateLimit :=
  if permits ≤ 0 ∨ period ≤ 0 then none
  else do
    let seconds ← secondsOfUnit unit
    if seconds * period.toNat < 2 ^ 32 then
      some ⟨.ofNat permits.toNat, .ofNat (seconds * period.toNat)⟩
    else none

/-- A limit as a source can declare it: one that lets something through. -/
structure DeclaredLimit extends RateLimit where
  positive : permits ≠ 0

/-- A limit of no permits is never declared. The triple is of three `i32`. -/
theorem RateLimit.permits_of_fromWire {permits period unit : ℤ} {limit : RateLimit}
    (hrange : permits < 2 ^ 31) (h : fromWire permits period unit = some limit) :
    limit.permits ≠ 0 := by
  unfold fromWire at h
  split at h
  · cases h
  · next hpositive =>
    obtain ⟨seconds, -, hlimit⟩ := Option.bind_eq_some_iff.mp h
    split at hlimit
    · cases hlimit
      intro hzero
      have hnat := congrArg UInt32.toNat hzero
      simp only [UInt32.toNat_ofNat', UInt32.toNat_zero] at hnat
      rw [Nat.mod_eq_of_lt (by omega)] at hnat
      omega
    · cases hlimit

structure InstalledSource where
  id : SourceId
  repoId : SourceRepoId
  externalId : ExternalKey
  name : String
  version : UInt32
  languages : List String
  requiredCapabilities : List Capability
  declaredRateLimit : Option RateLimit
deriving DecidableEq, Repr

inductive MangaStatus where
  | unknown | ongoing | completed | cancelled | hiatus
deriving DecidableEq, Repr

structure Follow where
  id : FollowId
  mangaId : MangaId
  checkIntervalSecs : ℤ
  lastCheckedAt : Option Time
  autoDownload : Bool
  createdAt : Time
deriving DecidableEq, Repr

end Nyuka
