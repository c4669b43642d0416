import Mathlib.Algebra.Order.Group.Nat
import Mathlib.Data.List.Basic

/-! Numbers as bytes of seven bits each, the least significant first; every byte but the last has
its high bit set. A number has many such encodings, which differ in zeros at the end. -/
namespace Varints
variable {a b s t : List UInt8} {m n : ℕ}

/-- The bytes are an encoding of the number. -/
inductive Denotes : List UInt8 → ℕ → Prop where
  | last (byte : UInt8) (h : byte.toNat < 128) : Denotes [byte] byte.toNat
  | more (byte : UInt8) (h : 128 ≤ byte.toNat) {bytes : List UInt8} {n : ℕ}
      (rest : Denotes bytes n) : Denotes (byte :: bytes) (byte.toNat - 128 + 128 * n)

/-- The last of several bytes is zero: without it the number is the same. -/
def Overlong (bytes : List UInt8) : Prop := ∃ front, front ≠ [] ∧ bytes = front ++ [0]

theorem Denotes.ne_nil (h : Denotes a n) : a ≠ [] := by
  cases h <;> exact List.cons_ne_nil _ _

/-- No encoding begins another one. -/
theorem Denotes.append_inj (ha : Denotes a m) (hb : Denotes b n) (h : a ++ s = b ++ t) :
    a = b ∧ m = n ∧ s = t := by
  induction ha generalizing b n with
  | last byte hbyte =>
    cases hb with
    | last byte' _ =>
      obtain ⟨rfl, rfl⟩ := List.cons_eq_cons.mp h
      exact ⟨rfl, rfl, rfl⟩
    | more byte' hbyte' _ =>
      obtain ⟨rfl, -⟩ := List.cons_eq_cons.mp h
      exact absurd hbyte (Nat.not_lt.mpr hbyte')
  | more byte hbyte rest ih =>
    cases hb with
    | last byte' hbyte' =>
      obtain ⟨rfl, -⟩ := List.cons_eq_cons.mp h
      exact absurd hbyte' (Nat.not_lt.mpr hbyte)
    | more byte' _ rest' =>
      obtain ⟨rfl, htail⟩ := List.cons_eq_cons.mp h
      obtain ⟨rfl, rfl, rfl⟩ := ih rest' htail
      exact ⟨rfl, rfl, rfl⟩

theorem Denotes.unique (ha : Denotes a m) (hb : Denotes a n) : m = n :=
  (ha.append_inj hb (s := []) rfl).2.1

/-- So many bytes hold so large numbers. -/
theorem Denotes.lt (h : Denotes a n) : n < 128 ^ a.length := by
  induction h with
  | last byte hbyte => simpa using hbyte
  | more byte hbyte rest ih =>
    have hlt := byte.toNat_lt
    rw [List.length_cons, Nat.pow_succ]
    omega

theorem denotes_cons {byte : UInt8} : Denotes (byte :: a) n ↔
    byte.toNat < 128 ∧ a = [] ∧ n = byte.toNat ∨
    128 ≤ byte.toNat ∧ ∃ m, Denotes a m ∧ n = byte.toNat - 128 + 128 * m := by
  constructor
  · intro h
    cases h with
    | last _ hbyte => exact .inl ⟨hbyte, rfl, rfl⟩
    | more _ hbyte rest => exact .inr ⟨hbyte, _, rest, rfl⟩
  · rintro (⟨hbyte, rfl, rfl⟩ | ⟨hbyte, m, rest, rfl⟩)
    · exact .last byte hbyte
    · exact .more byte hbyte rest

theorem not_overlong_singleton (byte : UInt8) : ¬ Overlong [byte] := by
  rintro ⟨front, hne, h⟩
  obtain ⟨c, front, rfl⟩ := List.exists_cons_of_ne_nil hne
  simp at h

theorem overlong_cons {byte : UInt8} (hne : a ≠ []) :
    Overlong (byte :: a) ↔ a = [0] ∨ Overlong a := by
  constructor
  · rintro ⟨front, hfront, h⟩
    obtain ⟨c, front, rfl⟩ := List.exists_cons_of_ne_nil hfront
    obtain ⟨rfl, htail⟩ := List.cons_eq_cons.mp h
    by_cases hnil : front = []
    · subst hnil
      exact .inl htail
    · exact .inr ⟨front, hnil, htail⟩
  · rintro (rfl | ⟨front, -, rfl⟩)
    · exact ⟨[byte], List.cons_ne_nil _ _, rfl⟩
    · exact ⟨byte :: front, List.cons_ne_nil _ _, rfl⟩

/-- An encoding of zero has one byte or is overlong. -/
theorem Denotes.overlong_of_zero (h : Denotes a 0) : a = [0] ∨ Overlong a := by
  generalize hn : 0 = n at h
  induction h with
  | last byte hbyte => exact .inl (by rw [UInt8.toNat_inj.mp (hn.symm.trans UInt8.toNat_zero.symm)])
  | more byte hbyte rest ih => exact .inr ((overlong_cons rest.ne_nil).mpr (ih (by omega)))

/-- Of the encodings of a number one is not overlong. -/
theorem Denotes.eq_of_not_overlong (ha : Denotes a n) (hb : Denotes b n) (hla : ¬ Overlong a)
    (hlb : ¬ Overlong b) : a = b := by
  induction ha generalizing b with
  | last byte hbyte =>
    generalize hn : byte.toNat = n at hb
    cases hb with
    | last byte' _ => rw [UInt8.toNat_inj.mp hn]
    | @more byte' hbyte' bytes m rest' =>
      -- what the further bytes hold is zero
      obtain rfl : m = 0 := by omega
      exact absurd ((overlong_cons rest'.ne_nil).mpr rest'.overlong_of_zero) hlb
  | @more byte hbyte bytes n rest ih =>
    generalize hn : byte.toNat - 128 + 128 * n = n' at hb
    cases hb with
    | last byte' hbyte' =>
      obtain rfl : n = 0 := by omega
      exact absurd ((overlong_cons rest.ne_nil).mpr rest.overlong_of_zero) hla
    | @more byte' hbyte' bytes' m rest' =>
      have hlt := byte.toNat_lt
      have hlt' := byte'.toNat_lt
      obtain rfl : n = m := by omega
      obtain rfl : byte = byte' := UInt8.toNat_inj.mp (by omega)
      rw [overlong_cons rest.ne_nil, not_or] at hla
      rw [overlong_cons rest'.ne_nil, not_or] at hlb
      rw [ih rest' hla.2 hlb.2]

/-- An encoding that is not overlong has no more bytes than the number needs. -/
theorem Denotes.length_le (h : Denotes a n) (hlast : ¬ Overlong a) {k : ℕ}
    (hn : n < 128 ^ (k + 1)) : a.length ≤ k + 1 := by
  induction h generalizing k with
  | last byte hbyte => exact Nat.succ_le_succ (Nat.zero_le k)
  | @more byte hbyte bytes n rest ih =>
    rw [overlong_cons rest.ne_nil, not_or] at hlast
    rw [List.length_cons]
    cases k with
    | zero =>
      obtain rfl : n = 0 := by omega
      exact absurd rest.overlong_of_zero (not_or.mpr hlast)
    | succ k =>
      have hlt : n < 128 ^ (k + 1) := by
        rw [Nat.pow_succ] at hn
        omega
      exact Nat.succ_le_succ (ih hlast.2 hlt)

end Varints
