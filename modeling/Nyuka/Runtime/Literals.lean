import Nyuka.Runtime.Addresses

/-! Which addresses are denied: the special-purpose blocks, the v6 addresses that carry a v4
address, and the literals in a URL. -/
namespace Nyuka.Runtime

def Ipv4Addr.toNat (ip : Ipv4Addr) : ℕ :=
  ((ip.a.toNat * 256 + ip.b.toNat) * 256 + ip.c.toNat) * 256 + ip.d.toNat

/-- A block of v4 addresses: those that share the first bits with its base. -/
structure Ipv4Block where
  base : Ipv4Addr
  bits : ℕ

def Ipv4Block.Contains (block : Ipv4Block) (ip : Ipv4Addr) : Prop :=
  ip.toNat / 2 ^ (32 - block.bits) = block.base.toNat / 2 ^ (32 - block.bits)

instance (block : Ipv4Block) (ip : Ipv4Addr) : Decidable (block.Contains ip) := by
  unfold Ipv4Block.Contains
  infer_instance

/-- The special-purpose blocks. The two metadata addresses are link-local. -/
def specialBlocks : List Ipv4Block :=
  [⟨⟨127, 0, 0, 0⟩, 8⟩, ⟨⟨10, 0, 0, 0⟩, 8⟩, ⟨⟨172, 16, 0, 0⟩, 12⟩, ⟨⟨192, 168, 0, 0⟩, 16⟩,
    ⟨⟨169, 254, 0, 0⟩, 16⟩, ⟨⟨0, 0, 0, 0⟩, 32⟩, ⟨⟨255, 255, 255, 255⟩, 32⟩, ⟨⟨224, 0, 0, 0⟩, 4⟩,
    ⟨⟨100, 64, 0, 0⟩, 10⟩, ⟨⟨192, 0, 0, 0⟩, 24⟩]

def Special (ip : Ipv4Addr) : Prop := ∃ block ∈ specialBlocks, block.Contains ip

instance (ip : Ipv4Addr) : Decidable (Special ip) := by unfold Special; infer_instance

namespace Ipv4Addr

theorem ext_iff_toNat {ip ip' : Ipv4Addr} : ip = ip' ↔
    ip.a.toNat = ip'.a.toNat ∧ ip.b.toNat = ip'.b.toNat ∧ ip.c.toNat = ip'.c.toNat ∧
      ip.d.toNat = ip'.d.toNat := by
  cases ip
  cases ip'
  simp only [mk.injEq, UInt8.toNat_inj]

theorem isLoopback_iff (ip : Ipv4Addr) : ip.isLoopback ↔ ip.a.toNat = 127 := by
  simp [isLoopback, ← UInt8.toNat_inj]

theorem isPrivate_iff (ip : Ipv4Addr) : ip.isPrivate ↔ ip.a.toNat = 10 ∨
    ip.a.toNat = 172 ∧ 16 ≤ ip.b.toNat ∧ ip.b.toNat ≤ 31 ∨
      ip.a.toNat = 192 ∧ ip.b.toNat = 168 := by
  simp [isPrivate, ← UInt8.toNat_inj, UInt8.le_iff_toNat_le, and_assoc, or_assoc]

theorem isLinkLocal_iff (ip : Ipv4Addr) :
    ip.isLinkLocal ↔ ip.a.toNat = 169 ∧ ip.b.toNat = 254 := by
  simp [isLinkLocal, ← UInt8.toNat_inj]

theorem isMulticast_iff (ip : Ipv4Addr) :
    ip.isMulticast ↔ 224 ≤ ip.a.toNat ∧ ip.a.toNat ≤ 239 := by
  simp [isMulticast, UInt8.le_iff_toNat_le]

end Ipv4Addr

/-- A chain of tests finds something if its first test does, or the tests behind it. -/
theorem isSome_ite_some {α : Type} {p : Prop} [Decidable p] (x : α) (o : Option α) :
    (if p then some x else o).isSome ↔ p ∨ o.isSome := by
  split <;> simp [*]

/-- What the octet tests say, with the octets as numbers. -/
theorem classifyV4_isSome_iff_octets (ip : Ipv4Addr) : (classifyV4 ip).isSome ↔
    ip.isLinkLocal ∨ ip.isLoopback ∨ ip.isPrivate ∨ ip = ⟨0, 0, 0, 0⟩ ∨
      ip = ⟨255, 255, 255, 255⟩ ∨ ip.isMulticast ∨
      (ip.a.toNat = 100 ∧ 64 ≤ ip.b.toNat ∧ ip.b.toNat < 128) ∨
      (ip.a.toNat = 192 ∧ ip.b.toNat = 0 ∧ ip.c.toNat = 0) := by
  have hmeta : ip ∈ metadataV4 → ip.isLinkLocal := by
    simp only [metadataV4, List.mem_cons, List.not_mem_nil, or_false]
    rintro (rfl | rfl) <;> decide
  have hshared : (ip.a == 100 && (decide (64 ≤ ip.b) && decide (ip.b < 128))) = true ↔
      ip.a.toNat = 100 ∧ 64 ≤ ip.b.toNat ∧ ip.b.toNat < 128 := by
    simp [← UInt8.toNat_inj, UInt8.le_iff_toNat_le, UInt8.lt_iff_toNat_lt]
  have hassigned : ([ip.a, ip.b, ip.c] == [192, 0, 0]) = true ↔
      ip.a.toNat = 192 ∧ ip.b.toNat = 0 ∧ ip.c.toNat = 0 := by
    simp [← UInt8.toNat_inj]
  simp only [classifyV4, isSome_ite_some, Bool.or_eq_true, hshared, hassigned,
    Ipv4Addr.isUnspecified, Ipv4Addr.isBroadcast, beq_iff_eq, Option.isSome_none,
    Bool.false_eq_true, or_false]
  constructor
  · rintro (h | h | h | h | h | (h | h) | h)
    · exact .inl (hmeta h)
    all_goals simp [h]
  · rintro (h | h | h | h | h | h | h) <;> simp [h]

namespace Ipv4Block

/-- A block of whole octets and the bits of one more, by the octets. -/
theorem contains_iff_first (a : UInt8) (bits : ℕ) (hbits : bits ≤ 8) (ip : Ipv4Addr) :
    Contains ⟨⟨a, 0, 0, 0⟩, bits⟩ ip ↔
      ip.a.toNat / 2 ^ (8 - bits) = a.toNat / 2 ^ (8 - bits) := by
  have hb := ip.b.toNat_lt
  have hc := ip.c.toNat_lt
  have hd := ip.d.toNat_lt
  have hpow : 2 ^ (32 - bits) = 16777216 * 2 ^ (8 - bits) := by
    rw [show 32 - bits = 24 + (8 - bits) by omega, pow_add]
    norm_num
  have hip : ip.toNat / 16777216 = ip.a.toNat := by unfold Ipv4Addr.toNat; omega
  have hbase : Ipv4Addr.toNat ⟨a, 0, 0, 0⟩ / 16777216 = a.toNat := by
    simp only [Ipv4Addr.toNat, UInt8.reduceToNat]
    omega
  rw [Contains, hpow, ← Nat.div_div_eq_div_mul, ← Nat.div_div_eq_div_mul, hip, hbase]

theorem contains_iff_second (a b : UInt8) (bits : ℕ) (hbits : bits ≤ 8) (ip : Ipv4Addr) :
    Contains ⟨⟨a, b, 0, 0⟩, 8 + bits⟩ ip ↔ ip.a.toNat = a.toNat ∧
      ip.b.toNat / 2 ^ (8 - bits) = b.toNat / 2 ^ (8 - bits) := by
  have hc := ip.c.toNat_lt
  have hd := ip.d.toNat_lt
  have hpow : 2 ^ (32 - (8 + bits)) = 65536 * 2 ^ (8 - bits) := by
    rw [show 32 - (8 + bits) = 16 + (8 - bits) by omega, pow_add]
    norm_num
  have hip : ip.toNat / 65536 = ip.a.toNat * 256 + ip.b.toNat := by
    unfold Ipv4Addr.toNat
    omega
  have hbase : Ipv4Addr.toNat ⟨a, b, 0, 0⟩ / 65536 = a.toNat * 256 + b.toNat := by
    simp only [Ipv4Addr.toNat, UInt8.reduceToNat]
    omega
  have hfull : 256 = 2 ^ bits * 2 ^ (8 - bits) := by
    rw [← pow_add, show bits + (8 - bits) = 8 by omega]
    norm_num
  have hpos : 0 < 2 ^ (8 - bits) := by positivity
  have hlt : ∀ x : UInt8, x.toNat / 2 ^ (8 - bits) < 2 ^ bits := fun x => by
    rw [Nat.div_lt_iff_lt_mul hpos, ← hfull]
    exact x.toNat_lt
  have hsplit : ∀ m n : ℕ, (m * 256 + n) / 2 ^ (8 - bits) =
      m * 2 ^ bits + n / 2 ^ (8 - bits) := fun m n => by
    conv_lhs => rw [hfull, ← mul_assoc, add_comm, Nat.add_mul_div_right _ _ hpos]
    rw [add_comm]
  rw [Contains, hpow, ← Nat.div_div_eq_div_mul, ← Nat.div_div_eq_div_mul, hip, hbase, hsplit,
    hsplit]
  have hfront : ∀ (m : ℕ) (x : UInt8),
      (m * 2 ^ bits + x.toNat / 2 ^ (8 - bits)) / 2 ^ bits = m := fun m x => by
    rw [add_comm, Nat.add_mul_div_right _ _ (by positivity), Nat.div_eq_of_lt (hlt x), zero_add]
  constructor
  · intro h
    have ha := congrArg (· / 2 ^ bits) h
    simp only [hfront] at ha
    exact ⟨ha, by rw [ha] at h; omega⟩
  · rintro ⟨ha, hb⟩
    rw [ha, hb]

theorem contains_iff_third (a b c : UInt8) (ip : Ipv4Addr) :
    Contains ⟨⟨a, b, c, 0⟩, 24⟩ ip ↔
      ip.a.toNat = a.toNat ∧ ip.b.toNat = b.toNat ∧ ip.c.toNat = c.toNat := by
  have hb := ip.b.toNat_lt
  have hc := ip.c.toNat_lt
  have hd := ip.d.toNat_lt
  have hb' := b.toNat_lt
  have hc' := c.toNat_lt
  have hip : ip.toNat / 2 ^ (32 - 24) =
      (ip.a.toNat * 256 + ip.b.toNat) * 256 + ip.c.toNat := by
    unfold Ipv4Addr.toNat
    omega
  have hbase : Ipv4Addr.toNat ⟨a, b, c, 0⟩ / 2 ^ (32 - 24) =
      (a.toNat * 256 + b.toNat) * 256 + c.toNat := by
    simp only [Ipv4Addr.toNat, UInt8.reduceToNat]
    omega
  rw [Contains, hip, hbase]
  omega

@[simp] theorem contains_iff_eq (base ip : Ipv4Addr) : Contains ⟨base, 32⟩ ip ↔ ip = base := by
  have hb := ip.b.toNat_lt
  have hc := ip.c.toNat_lt
  have hd := ip.d.toNat_lt
  have hb' := base.b.toNat_lt
  have hc' := base.c.toNat_lt
  have hd' := base.d.toNat_lt
  rw [Contains, Ipv4Addr.ext_iff_toNat]
  simp only [Ipv4Addr.toNat, Nat.sub_self, pow_zero, Nat.div_one]
  omega

end Ipv4Block

namespace Ipv4Addr

theorem isLoopback_iff_block (ip : Ipv4Addr) :
    ip.isLoopback ↔ Ipv4Block.Contains ⟨⟨127, 0, 0, 0⟩, 8⟩ ip := by
  rw [ip.isLoopback_iff, Ipv4Block.contains_iff_first 127 8 (by decide)]
  simp

theorem isPrivate_iff_blocks (ip : Ipv4Addr) : ip.isPrivate ↔
    Ipv4Block.Contains ⟨⟨10, 0, 0, 0⟩, 8⟩ ip ∨ Ipv4Block.Contains ⟨⟨172, 16, 0, 0⟩, 8 + 4⟩ ip ∨
      Ipv4Block.Contains ⟨⟨192, 168, 0, 0⟩, 8 + 8⟩ ip := by
  rw [ip.isPrivate_iff, Ipv4Block.contains_iff_first 10 8 (by decide),
    Ipv4Block.contains_iff_second 172 16 4 (by decide),
    Ipv4Block.contains_iff_second 192 168 8 (by decide)]
  simp only [UInt8.reduceToNat]
  omega

theorem isLinkLocal_iff_block (ip : Ipv4Addr) :
    ip.isLinkLocal ↔ Ipv4Block.Contains ⟨⟨169, 254, 0, 0⟩, 8 + 8⟩ ip := by
  rw [ip.isLinkLocal_iff, Ipv4Block.contains_iff_second 169 254 8 (by decide)]
  simp

private theorem isMulticast_iff_block (ip : Ipv4Addr) :
    ip.isMulticast ↔ Ipv4Block.Contains ⟨⟨224, 0, 0, 0⟩, 4⟩ ip := by
  have ha := ip.a.toNat_lt
  rw [ip.isMulticast_iff, Ipv4Block.contains_iff_first 224 4 (by decide)]
  simp only [UInt8.reduceToNat]
  omega

end Ipv4Addr

/-- The octet tests deny exactly the special-purpose blocks. -/
theorem isSome_classifyV4_iff (ip : Ipv4Addr) : (classifyV4 ip).isSome ↔ Special ip := by
  have hshared : Ipv4Block.Contains ⟨⟨100, 64, 0, 0⟩, 8 + 2⟩ ip ↔
      ip.a.toNat = 100 ∧ 64 ≤ ip.b.toNat ∧ ip.b.toNat < 128 := by
    rw [Ipv4Block.contains_iff_second 100 64 2 (by decide)]
    simp only [UInt8.reduceToNat]
    omega
  have hassigned : Ipv4Block.Contains ⟨⟨192, 0, 0, 0⟩, 24⟩ ip ↔
      ip.a.toNat = 192 ∧ ip.b.toNat = 0 ∧ ip.c.toNat = 0 :=
    Ipv4Block.contains_iff_third 192 0 0 ip
  rw [classifyV4_isSome_iff_octets, ip.isLinkLocal_iff_block, ip.isLoopback_iff_block,
    ip.isPrivate_iff_blocks, ip.isMulticast_iff_block, ← hshared,
    ← Ipv4Block.contains_iff_eq ⟨0, 0, 0, 0⟩, ← Ipv4Block.contains_iff_eq ⟨255, 255, 255, 255⟩,
    ← hassigned]
  simp only [Special, specialBlocks, List.mem_cons, List.not_mem_nil, or_false, exists_eq_or_imp,
    exists_eq_left, Nat.reduceAdd]
  constructor
  · rintro (h | h | (h | h | h) | h | h | h | h | h) <;> simp only [h, true_or, or_true]
  · rintro (h | h | h | h | h | h | h | h | h | h) <;> simp only [h, true_or, or_true]

/-- The ways a v6 address carries a v4 address. -/
inductive Embedding where
  | mapped | compatible | sixToFour | nat64
deriving DecidableEq, Repr

/-- The v4 address of two segments. -/
def Ipv4Addr.ofSegments (hi lo : UInt16) : Ipv4Addr :=
  ⟨(hi >>> 8).toUInt8, hi.toUInt8, (lo >>> 8).toUInt8, lo.toUInt8⟩

/-- The v4 address inside `::ffff:a.b.c.d`, `::a.b.c.d`, `2002:ab:cd::` or `64:ff9b::a.b.c.d`. -/
def Embedding.embedded : Embedding → Ipv6Addr → Option Ipv4Addr
  | mapped, ip => ip.toIpv4Mapped
  | compatible, ip =>
    if [ip.s0, ip.s1, ip.s2, ip.s3, ip.s4, ip.s5] = [0, 0, 0, 0, 0, 0] then
      some (.ofSegments ip.s6 ip.s7)
    else none
  | sixToFour, ip => if ip.s0 = 0x2002 then some (.ofSegments ip.s1 ip.s2) else none
  | nat64, ip =>
    if [ip.s0, ip.s1, ip.s2, ip.s3, ip.s4, ip.s5] = [0x64, 0xff9b, 0, 0, 0, 0] then
      some (.ofSegments ip.s6 ip.s7)
    else none

theorem isSome_classifyV6_iff (ip : Ipv6Addr) : (classifyV6 ip).isSome ↔
    ip = ⟨0, 0, 0, 0, 0, 0, 0, 1⟩ ∨ ip = ⟨0, 0, 0, 0, 0, 0, 0, 0⟩ ∨ ip.isMulticast ∨
      ip.s0 &&& 0xffc0 = 0xfe80 ∨ ip.s0 &&& 0xfe00 = 0xfc00 := by
  simp [classifyV6, isSome_ite_some, Ipv6Addr.isLoopback, Ipv6Addr.isUnspecified]

/-- Only an address that starts with zeros can be loopback or unspecified. -/
theorem classifyV6_eq_none {ip : Ipv6Addr} (h : ip.s0 = 0x2002 ∨ ip.s0 = 0x64) :
    classifyV6 ip = none := by
  have hs : ip.s0 ≠ 0 ∧ ip.s0 &&& 0xff00 ≠ 0xff00 ∧ ip.s0 &&& 0xffc0 ≠ 0xfe80 ∧
      ip.s0 &&& 0xfe00 ≠ 0xfc00 := by
    rcases h with h | h <;> rw [h] <;> decide
  obtain ⟨hzero, hmulticast, hlink, hunique⟩ := hs
  rw [← Option.not_isSome_iff_eq_none, isSome_classifyV6_iff]
  rintro (rfl | rfl | h | h | h)
  · exact hzero rfl
  · exact hzero rfl
  · exact hmulticast (by simpa [Ipv6Addr.isMulticast] using h)
  · exact hlink h
  · exact hunique h

theorem ofSegments_eq_zero_iff (hi lo : UInt16) :
    Ipv4Addr.ofSegments hi lo = ⟨0, 0, 0, 0⟩ ↔ hi = 0 ∧ lo = 0 := by
  have hhi := hi.toNat_lt
  have hlo := lo.toNat_lt
  have hhigh : ∀ s : UInt16, (s >>> 8).toUInt8.toNat = s.toNat / 256 % 256 := fun s => by
    simp [UInt16.toNat_shiftRight, Nat.shiftRight_eq_div_pow]
  simp only [Ipv4Addr.ofSegments, Ipv4Addr.mk.injEq, ← UInt8.toNat_inj, ← UInt16.toNat_inj,
    hhigh, UInt16.toNat_toUInt8, UInt16.toNat_zero, UInt8.toNat_zero]
  omega

theorem classify_eq_classifyV6 {ip : Ipv6Addr} (h : ip.s5 ≠ 0xffff ∨ ip.s0 ≠ 0) :
    classify (.v6 ip) = classifyV6 ip := by
  have hmapped : ip.toIpv4Mapped = none := by
    rw [Ipv6Addr.toIpv4Mapped, if_neg]
    simp only [List.cons.injEq, and_true]
    rintro ⟨h0, -, -, -, -, h5⟩
    exact h.elim (· h5) (· h0)
  simp only [classify, hmapped]

/-- Of the compatible addresses the unspecified one and loopback are denied. -/
theorem isSome_classifyV6_compatible_iff (hi lo : UInt16) :
    (classifyV6 ⟨0, 0, 0, 0, 0, 0, hi, lo⟩).isSome ↔ hi = 0 ∧ (lo = 0 ∨ lo = 1) := by
  have h0 : (0 : UInt16) &&& 0xffc0 ≠ 0xfe80 ∧ (0 : UInt16) &&& 0xfe00 ≠ 0xfc00 := by decide
  simp only [isSome_classifyV6_iff, Ipv6Addr.isMulticast, Ipv6Addr.mk.injEq, true_and, h0, or_false]
  constructor
  · rintro (⟨h, h'⟩ | ⟨h, h'⟩ | h)
    · exact ⟨h, .inr h'⟩
    · exact ⟨h, .inl h'⟩
    · contradiction
  · rintro ⟨h, h' | h'⟩
    · exact .inr (.inl ⟨h, h'⟩)
    · exact .inl ⟨h, h'⟩

/-- Where the carried address is denied, its carrier is denied in the mapped form, and in the
compatible form of the unspecified address. -/
theorem isSome_classify_embedding_iff {form : Embedding} {ip : Ipv6Addr} {carried : Ipv4Addr}
    (h : form.embedded ip = some carried) (hspecial : Special carried) :
    (classify (.v6 ip)).isSome ↔
      form = .mapped ∨ form = .compatible ∧ carried = ⟨0, 0, 0, 0⟩ := by
  cases form with
  | mapped =>
    have hmapped : ip.toIpv4Mapped = some carried := h
    simp only [classify, hmapped, isSome_classifyV4_iff, hspecial, true_or]
  | compatible =>
    obtain ⟨hzero, hcarried⟩ := Option.ite_none_right_eq_some.mp h
    obtain ⟨s0, s1, s2, s3, s4, s5, hi, lo⟩ := ip
    simp only [List.cons.injEq, and_true] at hzero
    obtain ⟨rfl, rfl, rfl, rfl, rfl, rfl⟩ := hzero
    obtain rfl := Option.some.inj hcarried
    have hs5 : (0 : UInt16) ≠ 0xffff := by decide
    rw [classify_eq_classifyV6 (.inl hs5), isSome_classifyV6_compatible_iff]
    simp only [reduceCtorEq, false_or, true_and, ofSegments_eq_zero_iff]
    refine and_congr_right fun hhi => or_iff_left fun hlo => ?_
    -- the address `::1` carries 0.0.0.1, which is not special
    subst hhi hlo
    exact absurd hspecial (by decide)
  | sixToFour =>
    obtain ⟨h0, -⟩ := Option.ite_none_right_eq_some.mp h
    rw [classify_eq_classifyV6 (.inr (by rw [h0]; decide)), classifyV6_eq_none (.inl h0)]
    simp
  | nat64 =>
    obtain ⟨hs, -⟩ := Option.ite_none_right_eq_some.mp h
    have h0 : ip.s0 = 0x64 := (List.cons.inj hs).1
    rw [classify_eq_classifyV6 (.inr (by rw [h0]; decide)), classifyV6_eq_none (.inr h0)]
    simp

/-- The same verdict: both deny, and for the same reason, or both allow. -/
def SameVerdict (vetted : Except Denial (List SocketAddr)) : Option Blocked → Prop
  | some reason => ∃ host, vetted = .error (.blocked host reason)
  | none => ∃ addrs, vetted = .ok addrs

/-- What the policy says of a resolved name is what it says of the first denied address. -/
theorem sameVerdict_approve_iff (resolver : Resolver) (lookup : ℕ) (host : String) (port : UInt16)
    (verdict : Option Blocked) :
    SameVerdict (approve resolver lookup host port) verdict ↔
      ∃ addrs, resolver lookup host port = some addrs ∧ addrs ≠ [] ∧
        (addrs.findSome? fun a => classify a.ip) = verdict := by
  unfold approve
  cases hr : resolver lookup host port with
  | none => cases verdict <;> simp [SameVerdict]
  | some addrs =>
    cases addrs with
    | nil => cases verdict <;> simp [SameVerdict]
    | cons a as =>
      simp only [Option.some.injEq, exists_eq_left', ne_eq, reduceCtorEq, not_false_eq_true,
        true_and]
      generalize (a :: as).findSome? (fun a => classify a.ip) = found
      cases found <;> cases verdict <;> simp [SameVerdict]

theorem sameVerdict_vet_iff {url : Url} {host : Host} {ip : IpAddr} (hhost : url.host = some host)
    (hip : host.literal = some ip) (resolver : Resolver) (lookup : ℕ) :
    SameVerdict (vet url resolver lookup) (classify ip) ↔ url.Web ∧
      ((∃ v4, host = .ipv4 v4) ∨ ∃ addrs,
        resolver lookup url.hostStr url.portOrKnownDefault = some addrs ∧ addrs ≠ [] ∧
          (addrs.findSome? fun a => classify a.ip) = classify ip) := by
  by_cases hweb : url.Web
  · cases host with
    | name name => cases hip
    | ipv4 v4 =>
      obtain rfl := Option.some.inj hip
      simp only [vet, hweb, hhost, ↓reduceIte]
      cases classify (.v4 v4) <;> simp [SameVerdict]
    | ipv6 v6 =>
      simp only [vet, hweb, hhost, ↓reduceIte, sameVerdict_approve_iff, reduceCtorEq, exists_false,
        false_or, true_and]
  · simp only [vet, hweb, ↓reduceIte, false_and, iff_false]
    cases classify ip <;> simp [SameVerdict]

/-- The decimals of the octets, with dots between them. -/
def Ipv4Addr.display (ip : Ipv4Addr) : String :=
  s!"{ip.a.toNat}.{ip.b.toNat}.{ip.c.toNat}.{ip.d.toNat}"

private theorem octet_toDigits {n : ℕ} (hn : n < 256) {rest : List Char}
    (hrest : ∀ c ∈ rest.head?, c.isDigit = false) :
    Reader.octet (Nat.toDigits 10 n ++ rest) = some (n, rest) := by
  have hdigits : ∀ c ∈ Nat.toDigits 10 n, (Reader.decimalDigit c).isSome = true := fun c hc => by
    simp [Reader.decimalDigit, Nat.isDigit_of_mem_toDigits (by decide) (by decide) hc]
  have hstop : rest.takeWhile (fun c => (Reader.decimalDigit c).isSome) = [] := by
    cases rest with
    | nil => rfl
    | cons c rest => simp [Reader.decimalDigit, hrest c rfl]
  -- the numbers below 256 have one to three digits and no leading zero
  have hshort : ∀ n < 256, ¬ ((Nat.toDigits 10 n).length = 0 ∨ 3 < (Nat.toDigits 10 n).length) ∧
      ¬ ((Nat.toDigits 10 n).head? = some '0' ∧ 1 < (Nat.toDigits 10 n).length) ∧
      (Nat.toDigits 10 n).foldl (fun n c => 10 * n + (Reader.decimalDigit c).getD 0) 0 = n := by
    decide +kernel
  obtain ⟨hlength, hzero, hvalue⟩ := hshort n hn
  simp only [Reader.octet, Reader.number, List.takeWhile_append_of_pos hdigits, hstop,
    List.append_nil, hlength, hzero, hvalue, hn, ↓reduceIte, true_and, List.drop_left]

/-- The text of a v4 address reads back as that address. -/
@[simp]
theorem IpAddr.parse_display (ip : Ipv4Addr) : IpAddr.parse ip.display.toList = some (.v4 ip) := by
  have hdot : ∀ (rest : List Char), ∀ c ∈ ('.' :: rest).head?, c.isDigit = false := by
    simp
  have htext : ip.display.toList = Nat.toDigits 10 ip.a.toNat ++ '.' ::
      (Nat.toDigits 10 ip.b.toNat ++ '.' :: (Nat.toDigits 10 ip.c.toNat ++ '.' ::
        (Nat.toDigits 10 ip.d.toNat ++ []))) := by
    simp [Ipv4Addr.display]
  have hlast : Reader.octet (Nat.toDigits 10 ip.d.toNat) = some (ip.d.toNat, []) := by
    simpa using @octet_toDigits _ ip.d.toNat_lt [] (by simp)
  have hread : Reader.ipv4Addr ip.display.toList = some (ip, []) := by
    simp [htext, Reader.ipv4Addr, Reader.separated, octet_toDigits ip.a.toNat_lt (hdot _),
      octet_toDigits ip.b.toNat_lt (hdot _), octet_toDigits ip.c.toNat_lt (hdot _), hlast]
  simp only [IpAddr.parse, Reader.ipAddr, hread]

/-- A text in brackets is no address: neither reader takes a bracket. -/
@[simp] theorem IpAddr.parse_bracket (inner : List Char) : IpAddr.parse ('[' :: inner) = none := by
  have hv4 : Reader.ipv4Addr ('[' :: inner) = none := by
    simp [Reader.ipv4Addr, Reader.octet, Reader.number, Reader.decimalDigit]
  have hgroup : Reader.number Text.hexDigit 16 4 true 65536 ('[' :: inner) = none := by
    simp [Reader.number, Text.hexDigit]
  have hgroups : Reader.groups 8 0 ('[' :: inner) = ([], false, '[' :: inner) := by
    simp [Reader.groups, Reader.separated, hv4, hgroup]
  simp [IpAddr.parse, Reader.ipAddr, hv4, Reader.ipv6Addr, hgroups]

/-- The text of a host in its URL. A name that reads as an address is a literal. -/
def Host.HasText (text : String) : Host → Prop
  | name _ => IpAddr.parse text.toList = none
  | ipv4 ip => text = ip.display
  | ipv6 _ => ∃ inner, text.toList = '[' :: inner

/-- Where the URL's text shows its host, the policy decides by whether the text parses as an
address. -/
theorem vet_eq_of_hasText {url : Url} {host : Host} (hhost : url.host = some host)
    (htext : host.HasText url.hostStr) (hweb : url.Web) (resolver : Resolver) (lookup : ℕ) :
    vet url resolver lookup = match IpAddr.parse url.hostStr.toList with
      | some ip => match classify ip with
        | some reason => .error (.blocked url.hostStr reason)
        | none => .ok [⟨ip, url.portOrKnownDefault⟩]
      | none => approve resolver lookup url.hostStr url.portOrKnownDefault := by
  cases host with
  | name name =>
    have hparse : IpAddr.parse url.hostStr.toList = none := htext
    simp only [vet, hweb, hhost, hparse, ↓reduceIte]
  | ipv4 ip =>
    have hparse : IpAddr.parse url.hostStr.toList = some (.v4 ip) := by
      rw [show url.hostStr = ip.display from htext, IpAddr.parse_display]
    cases hclass : classify (.v4 ip) with
    | none => simp only [vet, hweb, hhost, hparse, hclass, ↓reduceIte]
    | some reason => simp only [vet, hweb, hhost, hparse, hclass, ↓reduceIte]
  | ipv6 ip =>
    obtain ⟨inner, hinner⟩ := htext
    simp only [vet, hweb, hhost, hinner, IpAddr.parse_bracket, ↓reduceIte]

/-- What is denied, for addresses of the first family, for addresses that carry one of these, and
for URLs with a literal host. -/
theorem classify_covers_iff (resolver : Resolver) (lookup : ℕ) :
    (∀ ip, (classify (.v4 ip)).isSome ↔ Special ip) ∧
    (∀ (form : Embedding) (ip : Ipv6Addr) (carried : Ipv4Addr),
      form.embedded ip = some carried →
        (((classify (.v4 carried)).isSome → (classify (.v6 ip)).isSome) ↔
          ¬ Special carried ∨ form = .mapped ∨ form = .compatible ∧ carried = ⟨0, 0, 0, 0⟩)) ∧
    ∀ (url : Url) (host : Host) (ip : IpAddr), url.host = some host → host.literal = some ip →
        (SameVerdict (vet url resolver lookup) (classify ip) ↔ url.Web ∧
          ((∃ v4, host = .ipv4 v4) ∨ ∃ addrs,
            resolver lookup url.hostStr url.portOrKnownDefault = some addrs ∧ addrs ≠ [] ∧
              (addrs.findSome? fun a => classify a.ip) = classify ip)) := by
  refine ⟨isSome_classifyV4_iff, fun form ip carried h => ?_,
    fun url host ip hhost hip => sameVerdict_vet_iff hhost hip resolver lookup⟩
  have hv4 : (classify (.v4 carried)).isSome ↔ Special carried := isSome_classifyV4_iff carried
  by_cases hspecial : Special carried
  · simp only [hv4, hspecial, true_imp_iff, not_true_eq_false, false_or]
    exact isSome_classify_embedding_iff h hspecial
  · simp only [hv4, hspecial, false_imp_iff, not_false_eq_true, true_or]

/-- The URL `http://[2606:4700::1111]/`. -/
def publicLiteral : Url :=
  ⟨"http://[2606:4700::1111]/", "http", some (.ipv6 ⟨0x2606, 0x4700, 0, 0, 0, 0, 0, 0x1111⟩),
    "[2606:4700::1111]", none⟩

/-- Loopback behind the translation prefix is allowed, and a public literal is refused when a
resolver does not know the name it is asked for. -/
theorem translated_loopback_allowed :
    Embedding.nat64.embedded ⟨0x64, 0xff9b, 0, 0, 0, 0, 0x7f00, 1⟩ = some ⟨127, 0, 0, 1⟩ ∧
    ¬ ((classify (.v4 ⟨127, 0, 0, 1⟩)).isSome →
      (classify (.v6 ⟨0x64, 0xff9b, 0, 0, 0, 0, 0x7f00, 1⟩)).isSome) ∧
    ¬ SameVerdict (vet publicLiteral (fun _ _ _ => none) 0)
      (classify (.v6 ⟨0x2606, 0x4700, 0, 0, 0, 0, 0, 0x1111⟩)) := by
  refine ⟨by decide, by decide, ?_⟩
  have hvet : vet publicLiteral (fun _ _ _ => none) 0 = .error .unresolved := by decide
  have hclass : classify (.v6 ⟨0x2606, 0x4700, 0, 0, 0, 0, 0, 0x1111⟩) = none := by decide
  rw [hvet, hclass]
  rintro ⟨addrs, haddrs⟩
  cases haddrs

/-- A mapped loopback address, and a v4 literal. -/
theorem mapped_loopback_denied :
    ((classify (.v4 ⟨127, 0, 0, 1⟩)).isSome →
      (classify (.v6 ⟨0, 0, 0, 0, 0, 0xffff, 0x7f00, 1⟩)).isSome) ∧
    SameVerdict (vet ⟨"http://10.0.0.1/", "http", some (.ipv4 ⟨10, 0, 0, 1⟩), "10.0.0.1", none⟩
      (fun _ _ _ => none) 0) (classify (.v4 ⟨10, 0, 0, 1⟩)) :=
  ⟨((classify_covers_iff (fun _ _ _ => none) 0).2.1 .mapped ⟨0, 0, 0, 0, 0, 0xffff, 0x7f00, 1⟩
      ⟨127, 0, 0, 1⟩ (by decide)).mpr (.inr (.inl rfl)),
    ((classify_covers_iff _ 0).2.2 _ (.ipv4 ⟨10, 0, 0, 1⟩) _ rfl rfl).mpr
      ⟨by decide, .inl ⟨_, rfl⟩⟩⟩

end Nyuka.Runtime
