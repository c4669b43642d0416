import Mathlib.Algebra.Order.Group.Nat
import Mathlib.Data.List.GetD
import Mathlib.Data.List.Induction

/-! Octets in network order: the number they stand for, and its bits from the most significant one
on. -/
namespace Octets

/-- The number the octets stand for, the first octet the most significant. -/
def value (bs : List UInt8) : ℕ := bs.foldl (fun n b => 256 * n + b.toNat) 0

/-- A bit of the octets, counted from the front. -/
def bit (bs : List UInt8) (i : ℕ) : Bool := (bs.getD (i / 8) 0).toNat.testBit (7 - i % 8)

/-- Two octet strings have their first bits in common. -/
def AgreeOn (n : ℕ) (a b : List UInt8) : Prop := ∀ i < n, bit a i = bit b i

variable {a b : List UInt8}

@[simp] private theorem value_concat (bs : List UInt8) (b : UInt8) :
    value (bs ++ [b]) = 256 * value bs + b.toNat := by
  simp [value]

/-- The bits of the number, read from the most significant one on, are those of the octets. -/
theorem testBit_value (bs : List UInt8) {i : ℕ} (hi : i < 8 * bs.length) :
    (value bs).testBit (8 * bs.length - 1 - i) = bit bs i := by
  induction bs using List.reverseRecOn with
  | nil => simp at hi
  | append_singleton bs b ih =>
    rw [List.length_append, List.length_singleton] at hi ⊢
    rw [value_concat, show 256 = 2 ^ 8 from rfl, Nat.testBit_two_pow_mul_add _ b.toNat_lt]
    by_cases hlast : i < 8 * bs.length
    · have hlow : ¬ 8 * (bs.length + 1) - 1 - i < 8 := by omega
      have hindex : 8 * (bs.length + 1) - 1 - i - 8 = 8 * bs.length - 1 - i := by omega
      have hget : (bs ++ [b]).getD (i / 8) 0 = bs.getD (i / 8) 0 :=
        List.getD_append _ _ _ _ (by omega)
      rw [if_neg hlow, hindex, ih hlast, bit, bit, hget]
    · have hlow : 8 * (bs.length + 1) - 1 - i < 8 := by omega
      have hindex : 8 * (bs.length + 1) - 1 - i = 7 - i % 8 := by omega
      have hdiv : i / 8 = bs.length := by omega
      have hget : (bs ++ [b]).getD (i / 8) 0 = b := by
        rw [hdiv, List.getD_append_right _ _ _ _ (le_refl _)]
        simp
      rw [if_pos hlow, hindex, bit, hget]

theorem octet_eq_iff {x y : UInt8} :
    x = y ↔ ∀ j < 8, x.toNat.testBit (7 - j) = y.toNat.testBit (7 - j) := by
  refine ⟨fun h _ _ => h ▸ rfl, fun h => UInt8.toNat_inj.mp (Nat.eq_of_testBit_eq fun m => ?_)⟩
  by_cases hm : m < 8
  · have hj := h (7 - m) (by omega)
    rwa [show 7 - (7 - m) = m by omega] at hj
  · have hpow : 2 ^ 8 ≤ 2 ^ m := Nat.pow_le_pow_right (by omega) (by omega)
    have hzero : ∀ z : UInt8, z.toNat.testBit m = false := fun z =>
      Nat.testBit_lt_two_pow (lt_of_lt_of_le z.toNat_lt hpow)
    rw [hzero x, hzero y]

/-- The whole octets in front are equal exactly when their bits are. -/
theorem take_eq_take_iff {n : ℕ} (ha : n ≤ a.length) (hb : n ≤ b.length) :
    a.take n = b.take n ↔ AgreeOn (8 * n) a b := by
  constructor
  · intro h i hi
    have hlt : i / 8 < n := by omega
    have hget : ∀ s : List UInt8, (s.take n).getD (i / 8) 0 = s.getD (i / 8) 0 := fun s => by
      simp only [List.getD_eq_getElem?_getD, List.getElem?_take_of_lt hlt]
    rw [bit, bit, ← hget a, ← hget b, h]
  · intro h
    refine List.ext_getElem (by simp [ha, hb]) fun k hk _ => ?_
    have hkn : k < n := by
      rw [List.length_take] at hk
      omega
    rw [List.getElem_take, List.getElem_take]
    refine octet_eq_iff.mpr fun j hj => ?_
    have hbit := h (8 * k + j) (by omega)
    rw [bit, bit, show (8 * k + j) / 8 = k by omega, show (8 * k + j) % 8 = j by omega,
      List.getD_eq_getElem _ _ (by omega), List.getD_eq_getElem _ _ (by omega)] at hbit
    exact hbit

/-- The bits a mask keeps: those from `8 - k` on. -/
theorem testBit_mask (k m : ℕ) :
    (255 <<< (8 - k) % 2 ^ 8).testBit m = (decide (m < 8) && decide (8 - k ≤ m)) := by
  rw [Nat.testBit_mod_two_pow, Nat.testBit_shiftLeft]
  by_cases hm : m < 8
  · by_cases hlow : 8 - k ≤ m
    · have hones : Nat.testBit 255 (m - (8 - k)) = true := by
        have : ∀ i < 8, Nat.testBit 255 i = true := by decide
        exact this _ (by omega)
      simp [hm, hlow, hones]
    · simp [hlow]
  · simp [hm]

/-- Under the mask of the first `k` bits two octets are equal exactly when these bits are. -/
theorem and_mask_eq_iff {x y bits : UInt8} (hpos : bits ≠ 0) (hlt : bits < 8) :
    x &&& ((0xFF : UInt8) <<< (8 - bits)) = y &&& ((0xFF : UInt8) <<< (8 - bits)) ↔
      ∀ j < bits.toNat, x.toNat.testBit (7 - j) = y.toNat.testBit (7 - j) := by
  have hbits : bits.toNat < 8 := UInt8.lt_iff_toNat_lt.mp hlt
  have hzero : 0 < bits.toNat := Nat.pos_of_ne_zero fun h => hpos (UInt8.toNat_inj.mp h)
  have hshift : (8 - bits).toNat % 8 = 8 - bits.toNat := by
    rw [UInt8.toNat_sub_of_le _ _ (UInt8.le_of_lt hlt)]
    exact Nat.mod_eq_of_lt (show 8 - bits.toNat < 8 by omega)
  have hmasked : ∀ (z : UInt8) (j : ℕ), j < 8 →
      (z &&& ((0xFF : UInt8) <<< (8 - bits))).toNat.testBit (7 - j) =
        (z.toNat.testBit (7 - j) && decide (j < bits.toNat)) := fun z j hj => by
    rw [UInt8.toNat_and, UInt8.toNat_shiftLeft, hshift, show (0xFF : UInt8).toNat = 255 from rfl,
      Nat.testBit_and, testBit_mask]
    congr 1
    simp only [Bool.and_eq_decide, decide_eq_true_eq, decide_eq_decide]
    omega
  rw [octet_eq_iff]
  constructor
  · intro h j hj
    have hbit := h j (by omega)
    rw [hmasked x j (by omega), hmasked y j (by omega)] at hbit
    simpa [hj] using hbit
  · intro h j hj
    rw [hmasked x j hj, hmasked y j hj]
    by_cases hjk : j < bits.toNat
    · rw [h j hjk]
    · simp [hjk]

end Octets
