import Nyuka.Domain.Library
import Nyuka.Foundation.Results

/-! The egress policy: which addresses a source's requests may reach. -/
namespace Nyuka.Runtime

structure Ipv4Addr where
  a : UInt8
  b : UInt8
  c : UInt8
  d : UInt8
deriving DecidableEq, Repr

namespace Ipv4Addr

def isLoopback (ip : Ipv4Addr) : Bool := ip.a == 127

def isPrivate (ip : Ipv4Addr) : Bool :=
  ip.a == 10 || ip.a == 172 && 16 ≤ ip.b && ip.b ≤ 31 || ip.a == 192 && ip.b == 168

def isLinkLocal (ip : Ipv4Addr) : Bool := ip.a == 169 && ip.b == 254

def isUnspecified (ip : Ipv4Addr) : Bool := ip == ⟨0, 0, 0, 0⟩

def isBroadcast (ip : Ipv4Addr) : Bool := ip == ⟨255, 255, 255, 255⟩

def isMulticast (ip : Ipv4Addr) : Bool := 224 ≤ ip.a && ip.a ≤ 239

end Ipv4Addr

/-- The eight segments of a v6 address. -/
structure Ipv6Addr where
  s0 : UInt16
  s1 : UInt16
  s2 : UInt16
  s3 : UInt16
  s4 : UInt16
  s5 : UInt16
  s6 : UInt16
  s7 : UInt16
deriving DecidableEq, Repr

namespace Ipv6Addr

def isLoopback (ip : Ipv6Addr) : Bool := ip == ⟨0, 0, 0, 0, 0, 0, 0, 1⟩

def isUnspecified (ip : Ipv6Addr) : Bool := ip == ⟨0, 0, 0, 0, 0, 0, 0, 0⟩

def isMulticast (ip : Ipv6Addr) : Bool := ip.s0 &&& 0xff00 == 0xff00

/-- The v4 address inside `::ffff:a.b.c.d`. -/
def toIpv4Mapped (ip : Ipv6Addr) : Option Ipv4Addr :=
  if [ip.s0, ip.s1, ip.s2, ip.s3, ip.s4, ip.s5] = [0, 0, 0, 0, 0, 0xffff] then
    some ⟨(ip.s6 >>> 8).toUInt8, ip.s6.toUInt8, (ip.s7 >>> 8).toUInt8, ip.s7.toUInt8⟩
  else none

end Ipv6Addr

inductive IpAddr where
  | v4 (ip : Ipv4Addr)
  | v6 (ip : Ipv6Addr)
deriving DecidableEq, Repr

structure SocketAddr where
  ip : IpAddr
  port : UInt16
deriving DecidableEq, Repr

/-- The category an address fell into. -/
inductive Blocked where
  | loopback | private_ | linkLocal | cloudMetadata | unspecified | reserved | multicast
deriving DecidableEq, Repr

inductive Denial where
  | scheme (scheme : String)
  | noHost
  | unresolved
  | blocked (host : String) (reason : Blocked)
deriving DecidableEq, Repr

def metadataV4 : List Ipv4Addr := [⟨169, 254, 169, 254⟩, ⟨169, 254, 169, 253⟩]

def classifyV4 (ip : Ipv4Addr) : Option Blocked :=
  if ip ∈ metadataV4 then some .cloudMetadata
  else if ip.isLoopback then some .loopback
  else if ip.isPrivate then some .private_
  else if ip.isLinkLocal then some .linkLocal
  else if ip.isUnspecified then some .unspecified
  else if ip.isBroadcast || ip.isMulticast then some .multicast
  else if ip.a == 100 && (64 ≤ ip.b && ip.b < 128) || [ip.a, ip.b, ip.c] == [192, 0, 0] then
    some .reserved
  else none

def classifyV6 (ip : Ipv6Addr) : Option Blocked :=
  if ip.isLoopback then some .loopback
  else if ip.isUnspecified then some .unspecified
  else if ip.isMulticast then some .multicast
  else if ip.s0 &&& 0xffc0 == 0xfe80 then some .linkLocal
  else if ip.s0 &&& 0xfe00 == 0xfc00 then some .private_
  else none

/-- Classifies an address, or `none` if it is safe to reach. -/
def classify : IpAddr → Option Blocked
  | .v4 ip => classifyV4 ip
  | .v6 ip => match ip.toIpv4Mapped with
    | some mapped => classifyV4 mapped
    | none => classifyV6 ip

/-- The address may be reached. -/
def Allowed (addr : SocketAddr) : Prop := classify addr.ip = none

instance (addr : SocketAddr) : Decidable (Allowed addr) := by unfold Allowed; infer_instance

inductive Host where
  | name (name : String)
  | ipv4 (ip : Ipv4Addr)
  | ipv6 (ip : Ipv6Addr)
deriving DecidableEq, Repr

/-- The address the host is a literal of. -/
def Host.literal : Host → Option IpAddr
  | name _ => none
  | ipv4 ip => some (.v4 ip)
  | ipv6 ip => some (.v6 ip)

/-- A parsed URL: its text, and the parts of it that are read. -/
structure Url where
  text : String
  scheme : String
  host : Option Host
  hostStr : String
  port : Option UInt16
deriving DecidableEq, Repr

namespace Url

/-- The scheme is one of the two that can be reached. -/
def Web (url : Url) : Prop := url.scheme = "http" ∨ url.scheme = "https"

instance (url : Url) : Decidable url.Web := by unfold Web; infer_instance

def portOrKnownDefault (url : Url) : UInt16 :=
  url.port.getD (if url.scheme = "http" then 80 else 443)

end Url

/-- What a lookup answers, `none` for an error. The first argument counts the lookups, as a
name need not resolve to the same addresses twice. -/
abbrev Resolver := ℕ → String → UInt16 → Option (List SocketAddr)

/-- Resolves and filters: one blocked address refuses the whole name. -/
def approve (resolver : Resolver) (lookup : ℕ) (host : String) (port : UInt16) :
    Except Denial (List SocketAddr) :=
  match resolver lookup host port with
  | none => .error .unresolved
  | some [] => .error .unresolved
  | some (addr :: addrs) =>
    match (addr :: addrs).findSome? fun a => classify a.ip with
    | some reason => .error (.blocked host reason)
    | none => .ok (addr :: addrs)

/-- Checks a URL and returns the addresses approved for it. -/
def vet (url : Url) (resolver : Resolver) (lookup : ℕ) : Except Denial (List SocketAddr) :=
  if url.Web then
    match url.host with
    | none => .error .noHost
    -- `host_str` brackets a v6 literal, so only a v4 literal parses as an address
    | some (.ipv4 ip) => match classify (.v4 ip) with
      | some reason => .error (.blocked url.hostStr reason)
      | none => .ok [⟨.v4 ip, url.portOrKnownDefault⟩]
    | some _ => approve resolver lookup url.hostStr url.portOrKnownDefault
  else .error (.scheme url.scheme)

theorem approve_eq_ok_iff {resolver : Resolver} {lookup : ℕ} {host : String} {port : UInt16}
    {addrs : List SocketAddr} : approve resolver lookup host port = .ok addrs ↔
      resolver lookup host port = some addrs ∧ addrs ≠ [] ∧ ∀ a ∈ addrs, Allowed a := by
  unfold approve
  cases hr : resolver lookup host port with
  | none => simp
  | some found =>
    cases found with
    | nil =>
      simp only [reduceCtorEq, Option.some.injEq, false_iff]
      rintro ⟨rfl, hne, -⟩
      exact hne rfl
    | cons a as =>
      cases hf : (a :: as).findSome? fun a => classify a.ip with
      | some reason =>
        obtain ⟨b, hb, hblocked⟩ := List.exists_of_findSome?_eq_some hf
        simp only [hf, reduceCtorEq, Option.some.injEq, false_iff]
        rintro ⟨rfl, -, hall⟩
        rw [hall b hb] at hblocked
        cases hblocked
      | none =>
        have hall : ∀ b ∈ a :: as, Allowed b := List.findSome?_eq_none_iff.mp hf
        simp only [hf, Except.ok.injEq, Option.some.injEq]
        constructor
        · rintro rfl
          exact ⟨rfl, by simp, hall⟩
        · exact fun h => h.1

/-- Whatever name, literal or answer it is given, the policy approves allowed addresses only. -/
theorem allowed_of_vet {url : Url} {resolver : Resolver} {lookup : ℕ} {addrs : List SocketAddr}
    (h : vet url resolver lookup = .ok addrs) : ∀ a ∈ addrs, Allowed a := by
  unfold vet at h
  split at h
  · split at h
    · cases h
    · next ip _ =>
      split at h
      · cases h
      · next hclass =>
        cases h
        simpa [Allowed] using hclass
    · exact (approve_eq_ok_iff.mp h).2.2
  · cases h

end Nyuka.Runtime
