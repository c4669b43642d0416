import Nyuka.Api.Config
import Nyuka.Api.Ranges
import Nyuka.Foundation.Octets

/-! Which addresses a trusted network contains: those of its family that share its first bits. -/
namespace Nyuka

namespace Runtime
namespace IpAddr

/-- How many bits the addresses of a family have. -/
def width : IpAddr → ℕ
  | .v4 _ => 32
  | .v6 _ => 128

/-- The address as a number. -/
def value : IpAddr → ℕ
  | .v4 ip => ip.toNat
  | .v6 ip => [ip.s0, ip.s1, ip.s2, ip.s3, ip.s4, ip.s5, ip.s6, ip.s7].foldl
    (fun n s => 65536 * n + s.toNat) 0

/-- A bit of the address, the most significant one first. -/
def bit (addr : IpAddr) (i : ℕ) : Bool := addr.value.testBit (addr.width - 1 - i)

def isV4 : IpAddr → Bool
  | .v4 _ => true
  | .v6 _ => false

end IpAddr
end Runtime

namespace Api
open Octets
open Nyuka.Runtime (IpAddr)

section Membership

/-- The addresses of a network: of its family, and with its first bits. -/
def Cidr.Member (net : Cidr) (addr : IpAddr) : Prop :=
  addr.isV4 = net.network.isV4 ∧ ∀ i < net.prefixLen.toNat, addr.bit i = net.network.bit i

/-- `masked` with the panics of its operations: a slice or an index past the end, a difference
below zero and a shift by the width or more. -/
def maskedChecked (network other : List UInt8) (prefixLen : UInt8) : Option Bool :=
  let full := (prefixLen / 8).toNat
  if network.length < full ∨ other.length < full then none
  else if network.take full ≠ other.take full then some false
  else
    let bits := prefixLen % 8
    if bits = 0 then some true
    else if 8 < bits then none
    else
      let shift := 8 - bits
      if 8 ≤ shift then none
      else
        let mask := (0xFF : UInt8) <<< shift
        network[full]?.bind fun n => other[full]?.map fun o => n &&& mask == o &&& mask

def Cidr.containsChecked (net : Cidr) (addr : IpAddr) : Option Bool :=
  match net.network, addr with
  | .v4 _, .v4 _ => maskedChecked (octets net.network) (octets addr) net.prefixLen
  | .v6 _, .v6 _ => maskedChecked (octets net.network) (octets addr) net.prefixLen
  | _, _ => some false

variable {network other : List UInt8} {prefixLen : UInt8}

@[simp] theorem toNat_div_eight (p : UInt8) : (p / 8).toNat = p.toNat / 8 := UInt8.toNat_div p 8

@[simp] theorem toNat_mod_eight (p : UInt8) : (p % 8).toNat = p.toNat % 8 := UInt8.toNat_mod p 8

theorem mod_eight_lt (p : UInt8) : p % 8 < 8 :=
  UInt8.lt_iff_toNat_lt.mpr (by rw [toNat_mod_eight]; exact Nat.mod_lt _ (by omega))

/-- Nothing panics on octets of one length that the prefix fits in: the shift is by one to seven
bits. -/
theorem maskedChecked_eq (hlength : network.length = other.length)
    (hfits : prefixLen.toNat ≤ 8 * network.length) :
    maskedChecked network other prefixLen = some (masked network other prefixLen) := by
  have hfull :
      ¬ (network.length < (prefixLen / 8).toNat ∨ other.length < (prefixLen / 8).toNat) := by
    rw [toNat_div_eight]
    omega
  unfold maskedChecked masked
  simp only [hfull, if_false]
  by_cases htake : network.take (prefixLen / 8).toNat ≠ other.take (prefixLen / 8).toNat
  · rw [if_pos htake, if_pos htake]
  rw [if_neg htake, if_neg htake]
  by_cases hbits : prefixLen % 8 = 0
  · rw [if_pos hbits, if_pos hbits]
  have hlt := mod_eight_lt prefixLen
  have hpos : 0 < (prefixLen % 8).toNat :=
    Nat.pos_of_ne_zero fun h => hbits (UInt8.toNat_inj.mp h)
  have hshift : ¬ 8 ≤ 8 - prefixLen % 8 := by
    rw [UInt8.le_iff_toNat_le, UInt8.toNat_sub_of_le _ _ (UInt8.le_of_lt hlt)]
    change ¬ 8 ≤ 8 - (prefixLen % 8).toNat
    omega
  have hindex : (prefixLen / 8).toNat < network.length := by
    rw [toNat_mod_eight] at hpos
    rw [toNat_div_eight]
    omega
  rw [if_neg hbits, if_neg hbits, if_neg (UInt8.not_lt.mpr (UInt8.le_of_lt hlt)), if_neg hshift,
    List.getElem?_eq_getElem hindex, List.getElem?_eq_getElem (hlength ▸ hindex),
    List.getD_eq_getElem _ _ hindex, List.getD_eq_getElem _ _ (hlength ▸ hindex)]
  rfl

/-- Whole octets and the bits of one more are compared: the first bits of the prefix's length. -/
theorem masked_iff (hlength : network.length = other.length)
    (hfits : prefixLen.toNat ≤ 8 * network.length) :
    masked network other prefixLen = true ↔ AgreeOn prefixLen.toNat network other := by
  have hfull : (prefixLen / 8).toNat ≤ network.length := by
    rw [toNat_div_eight]
    omega
  have hfront := take_eq_take_iff hfull (hlength ▸ hfull)
  have hsplit : prefixLen.toNat = 8 * (prefixLen / 8).toNat + (prefixLen % 8).toNat := by
    rw [toNat_div_eight, toNat_mod_eight]
    omega
  unfold masked
  dsimp only
  by_cases htake : network.take (prefixLen / 8).toNat = other.take (prefixLen / 8).toNat
  · have hagree := hfront.mp htake
    rw [if_neg (not_not.mpr htake)]
    by_cases hbits : prefixLen % 8 = 0
    · have hwhole : 8 * (prefixLen / 8).toNat = prefixLen.toNat := by
        rw [hsplit, hbits]
        rfl
      rw [if_pos hbits]
      exact iff_of_true rfl (hwhole ▸ hagree)
    · have hmask := @and_mask_eq_iff (network.getD (prefixLen / 8).toNat 0)
        (other.getD (prefixLen / 8).toNat 0) _ hbits (mod_eight_lt prefixLen)
      rw [if_neg hbits, beq_iff_eq, hmask]
      -- the bits of the octet after the whole ones
      have hbit : ∀ (s : List UInt8) (j : ℕ), j < (prefixLen % 8).toNat →
          bit s (8 * (prefixLen / 8).toNat + j) =
            (s.getD (prefixLen / 8).toNat 0).toNat.testBit (7 - j) := fun s j hj => by
        have hj8 : j < 8 := by
          rw [toNat_mod_eight] at hj
          omega
        rw [bit, show (8 * (prefixLen / 8).toNat + j) / 8 = (prefixLen / 8).toNat by omega,
          show (8 * (prefixLen / 8).toNat + j) % 8 = j by omega]
      constructor
      · intro h i hi
        by_cases hwhole : i < 8 * (prefixLen / 8).toNat
        · exact hagree i hwhole
        · have hj : i - 8 * (prefixLen / 8).toNat < (prefixLen % 8).toNat := by omega
          rw [show i = 8 * (prefixLen / 8).toNat + (i - 8 * (prefixLen / 8).toNat) by omega,
            hbit _ _ hj, hbit _ _ hj, h _ hj]
      · intro h j hj
        rw [← hbit _ _ hj, ← hbit _ _ hj, h _ (by omega)]
  · have hdiffer : ¬ AgreeOn prefixLen.toNat network other := fun h =>
      htake (hfront.mpr fun i hi => h i (by omega))
    rw [if_pos htake]
    exact iff_of_false Bool.false_ne_true hdiffer

end Membership

section Families

theorem length_octets (addr : IpAddr) : 8 * (octets addr).length = addr.width := by
  cases addr <;> rfl

theorem isV4_eq_iff {a b : IpAddr} : a.isV4 = b.isV4 ↔ a.width = b.width := by
  cases a <;> cases b <;> simp [IpAddr.isV4, IpAddr.width]

private theorem segment_octets (s : UInt16) :
    256 * (s >>> 8).toUInt8.toNat + s.toUInt8.toNat = s.toNat := by
  have hlt := s.toNat_lt
  have hhigh : (s >>> 8).toUInt8.toNat = s.toNat / 256 := by
    rw [UInt16.toNat_toUInt8, UInt16.toNat_shiftRight]
    change s.toNat >>> 8 % 256 = s.toNat / 256
    rw [Nat.shiftRight_eq_div_pow]
    omega
  rw [hhigh, UInt16.toNat_toUInt8]
  omega

/-- The octets of an address stand for its number. -/
@[simp] theorem value_octets (addr : IpAddr) : Octets.value (octets addr) = addr.value := by
  cases addr with
  | v4 ip =>
    simp only [Octets.value, octets, IpAddr.value, Runtime.Ipv4Addr.toNat, List.foldl_cons,
      List.foldl_nil]
    omega
  | v6 ip =>
    have hstep : ∀ (n : ℕ) (s : UInt16),
        256 * (256 * n + (s >>> 8).toUInt8.toNat) + s.toUInt8.toNat = 65536 * n + s.toNat :=
      fun n s => by
        have hs := segment_octets s
        omega
    simp only [Octets.value, octets, IpAddr.value, List.flatMap_cons, List.flatMap_nil,
      List.cons_append, List.nil_append, List.foldl_cons, List.foldl_nil, hstep]

theorem bit_octets (addr : IpAddr) {i : ℕ} (hi : i < addr.width) :
    Octets.bit (octets addr) i = addr.bit i := by
  rw [← length_octets] at hi
  rw [← testBit_value _ hi, value_octets, IpAddr.bit, length_octets]

/-- Where the families are the same, both addresses go through the comparison of octets. -/
theorem containsChecked_eq (net : Cidr) (addr : IpAddr) :
    net.containsChecked addr = if addr.isV4 = net.network.isV4 then
      maskedChecked (octets net.network) (octets addr) net.prefixLen else some false := by
  unfold Cidr.containsChecked
  cases net.network <;> cases addr <;> rfl

theorem contains_eq (net : Cidr) (addr : IpAddr) :
    net.contains addr = if addr.isV4 = net.network.isV4 then
      masked (octets net.network) (octets addr) net.prefixLen else false := by
  unfold Cidr.contains
  cases net.network <;> cases addr <;> rfl

@[simp] theorem containsChecked_eq_contains (net : Cidr) (addr : IpAddr) :
    net.containsChecked addr = some (net.contains addr) := by
  rw [containsChecked_eq, contains_eq]
  by_cases hfamily : addr.isV4 = net.network.isV4
  · have hlength : (octets net.network).length = (octets addr).length := by
      have := isV4_eq_iff.mp hfamily
      rw [← length_octets, ← length_octets] at this
      omega
    rw [if_pos hfamily, if_pos hfamily, maskedChecked_eq hlength net.fits]
  · rw [if_neg hfamily, if_neg hfamily]

theorem contains_iff_member (net : Cidr) (addr : IpAddr) :
    net.contains addr = true ↔ net.Member addr := by
  rw [contains_eq, Cidr.Member]
  by_cases hfamily : addr.isV4 = net.network.isV4
  · have hwidth := isV4_eq_iff.mp hfamily
    have hlength : (octets net.network).length = (octets addr).length := by
      rw [← length_octets, ← length_octets] at hwidth
      omega
    have hfits := net.fits
    rw [length_octets] at hfits
    rw [if_pos hfamily, masked_iff hlength net.fits]
    simp only [hfamily, true_and]
    refine forall₂_congr fun i hi => ?_
    rw [bit_octets _ (by omega), bit_octets _ (by omega)]
    exact eq_comm
  · simp [hfamily]

end Families

section Parsing
open Nyuka.Configuration

variable {text : List Char} {net : Cidr}

/-- What reads as a network: an address, a slash and a length that fits the address's family. -/
theorem parse_eq_ok : Cidr.parse text = .ok net ↔
    ∃ addr digits, text = addr ++ '/' :: digits ∧ '/' ∉ addr ∧
      IpAddr.parse addr = some net.network ∧ parseU8 digits = some net.prefixLen := by
  unfold Cidr.parse
  constructor
  · intro h
    cases hsplit : splitOnce '/' text with
    | none => simp [hsplit] at h
    | some parts =>
      obtain ⟨addr, digits⟩ := parts
      obtain ⟨htext, hslash⟩ := splitOnce_eq_some.mp hsplit
      refine ⟨addr, digits, htext, hslash, ?_⟩
      simp only [hsplit] at h
      cases hnetwork : IpAddr.parse addr with
      | none => simp [hnetwork] at h
      | some network =>
        cases hprefix : parseU8 digits with
        | none => simp [hnetwork, hprefix] at h
        | some prefixLen =>
          simp only [hnetwork, hprefix] at h
          split at h
          · obtain rfl := Except.ok.inj h
            exact ⟨rfl, rfl⟩
          · cases h
  · rintro ⟨addr, digits, htext, hslash, hnetwork, hprefix⟩
    simp [splitOnce_eq_some.mpr ⟨htext, hslash⟩, hnetwork, hprefix, net.fits]

private theorem parseU8_toDigits {n : ℕ} (hn : n < 256) :
    parseU8 (Nat.toDigits 10 n) = some n.toUInt8 := by
  have hparse : parseU64 (Nat.toDigits 10 n) = some n :=
    parseU64_eq_some.mpr ⟨[], _, rfl, Or.inl rfl, Digits.toDigits n, by omega⟩
  rw [parseU8, hparse]
  simp [hn]

/-- Behind an address every length up to the width of its family is read. -/
theorem parse_length {addr : List Char} {network : IpAddr} (hslash : '/' ∉ addr)
    (hnetwork : IpAddr.parse addr = some network) {n : ℕ} (hn : n ≤ network.width) :
    ∃ net, Cidr.parse (addr ++ '/' :: Nat.toDigits 10 n) = .ok net ∧
      net.network = network ∧ net.prefixLen.toNat = n := by
  have hwidth : network.width ≤ 128 := by cases network <;> simp [IpAddr.width]
  have htoNat : n.toUInt8.toNat = n := Nat.mod_eq_of_lt (by omega)
  have hfits : n.toUInt8.toNat ≤ 8 * (octets network).length := by
    rw [htoNat, length_octets]
    exact hn
  exact ⟨⟨network, n.toUInt8, hfits⟩, parse_eq_ok.mpr
    ⟨addr, _, rfl, hslash, hnetwork, parseU8_toDigits (by omega)⟩, rfl, htoNat⟩

/-- Of a text that reads as a network, an address is contained exactly when it is of the network's
family and has its first bits, as many as the length behind the slash; no operation of the test
panics. -/
theorem parsed_contains_iff (hparse : Cidr.parse text = .ok net) (addr : IpAddr) :
    (∃ network digits, text = network ++ '/' :: digits ∧ '/' ∉ network ∧
      IpAddr.parse network = some net.network ∧ parseU8 digits = some net.prefixLen ∧
      net.prefixLen.toNat ≤ net.network.width) ∧
    net.containsChecked addr = some (net.contains addr) ∧
    (net.contains addr = true ↔ addr.isV4 = net.network.isV4 ∧
      ∀ i < net.prefixLen.toNat, addr.bit i = net.network.bit i) := by
  refine ⟨?_, containsChecked_eq_contains net addr, contains_iff_member net addr⟩
  obtain ⟨network, digits, htext, hslash, hnetwork, hprefix⟩ := parse_eq_ok.mp hparse
  refine ⟨network, digits, htext, hslash, hnetwork, hprefix, ?_⟩
  rw [← length_octets]
  exact net.fits

/-- A network whose prefix ends inside an octet. -/
def proxies : Cidr := ⟨.v4 ⟨10, 1, 16, 0⟩, 20, by decide⟩

theorem proxies_contains_last : Cidr.parse "10.1.16.0/20".toList = .ok proxies ∧
    proxies.contains (.v4 ⟨10, 1, 31, 255⟩) = true ∧
    ∀ i < 20, (IpAddr.v4 ⟨10, 1, 31, 255⟩).bit i = proxies.network.bit i := by
  have hparse : Cidr.parse "10.1.16.0/20".toList = .ok proxies := by decide
  obtain ⟨-, -, hiff⟩ := parsed_contains_iff hparse (.v4 ⟨10, 1, 31, 255⟩)
  have hcontains : proxies.contains (.v4 ⟨10, 1, 31, 255⟩) = true := by decide
  exact ⟨hparse, hcontains, (hiff.mp hcontains).2⟩

end Parsing

end Api
end Nyuka
