import Mathlib.Data.BitVec
import Nyuka.Foundation.Floats

/-! Binary32 numbers by their bits, and the decimal text a number is displayed as: the decimal
of the fewest digits that rounds back to it. Absolute values are counted in units of the least
positive number, so all of it is arithmetic of natural numbers. -/

/-- A 32-bit floating point number: the sign bit, 8 bits of exponent and 23 of mantissa. -/
abbrev Binary32 := BitVec 32

namespace Binary32
open Floats (scaled gap Rounds gap_pos gap_mono gap_dvd_scaled scaled_succ)

def isNegative (x : Binary32) : Bool := x.msb

/-- The bits below the sign bit, which are ordered as the absolute values are. -/
def magnitude (x : Binary32) : ℕ := x.toNat % 2 ^ 31

/-- The magnitude of the infinities. -/
def infinity : ℕ := 255 * 2 ^ 23

def isNan (x : Binary32) : Bool := infinity < magnitude x
def isFinite (x : Binary32) : Bool := magnitude x < infinity

/-- The number one, in units of the least positive number. -/
def unit : ℕ := 2 ^ 149

theorem unit_pos : 0 < unit := by decide

/-- `value.fract().abs() < f32::EPSILON` -/
def whole (x : Binary32) : Bool :=
  isFinite x && decide (scaled 23 (magnitude x) % unit < 2 ^ 126)

/-- `value as i64`: truncated towards zero, saturating, and zero for what is no number. -/
def toI64 (x : Binary32) : ℤ :=
  if isNan x then 0 else
    let n : ℤ := ((scaled 23 (magnitude x) / unit : ℕ) : ℤ)
    max (-2 ^ 63) (min (2 ^ 63 - 1) (if isNegative x then -n else n))

/-- The value of a finite number, in units of the least positive one. -/
def value (x : Binary32) : ℤ :=
  if isNegative x then -(scaled 23 (magnitude x) : ℤ) else scaled 23 (magnitude x)

/-- The exponents a decimal of such a number can have, the largest first. -/
def exponents : List ℤ := (List.range 188).map fun i => 38 - i

/-- The exponent of the decimal of fewest digits that rounds to the number. -/
def exponent (n : ℕ) : ℤ := Floats.exponent 23 unit exponents n

/-- The digits of that decimal. -/
def digits (n : ℕ) : ℕ := Floats.digits 23 unit exponents n

theorem rounds_digits (n : ℕ) : Rounds 23 unit n (exponent n) (digits n) := by
  have hplaces : (Floats.nearest 23 unit n (-(149 : ℕ))).isSome :=
    Floats.nearest_isSome unit_pos (by decide) n
  exact (Floats.rounds_digits ⟨_, by decide, hplaces⟩).2

-- What is known of the search is `rounds_digits`; unfolding it helps no later proof.
attribute [irreducible] exponent digits

/-- The text of `d * 10 ^ k`, with a point when it has places. -/
def decimalText (k : ℤ) (d : ℕ) : List Char :=
  if 0 ≤ k then Nat.toDigits 10 (d * 10 ^ k.toNat)
  else Nat.toDigits 10 (d / 10 ^ (-k).toNat) ++
    '.' :: Text.padded (-k).toNat (d % 10 ^ (-k).toNat)

/-- `format!("{value}")` -/
def display (x : Binary32) : List Char :=
  if isNan x then ['N', 'a', 'N'] else
    let absolute :=
      if isFinite x then decimalText (exponent (magnitude x)) (digits (magnitude x))
      else ['i', 'n', 'f']
    if isNegative x then '-' :: absolute else absolute

/-- The digits behind the point, where there is a point. -/
def fractionText (x : Binary32) : Option (List Char) := ((display x).splitOn '.')[1]?

section Fraction

/-- A number that is no integer is a step away from the integers on both its sides. -/
theorem between_integers {n : ℕ} (h : scaled 23 n % unit ≠ 0) :
    scaled 23 n / unit * unit + gap 23 n ≤ scaled 23 n ∧
      scaled 23 n + gap 23 n ≤ (scaled 23 n / unit + 1) * unit := by
  have hgap : gap 23 n ∣ unit := by
    refine pow_dvd_pow 2 (not_lt.mp fun hlarge => h ?_)
    have hunit : unit ∣ gap 23 n := pow_dvd_pow 2 (by omega)
    exact Nat.mod_eq_zero_of_dvd (hunit.trans (gap_dvd_scaled 23 n))
  have hlow : gap 23 n ≤ scaled 23 n % unit :=
    Nat.le_of_dvd (by omega) ((Nat.dvd_mod_iff hgap).mpr (gap_dvd_scaled 23 n))
  have hhigh : gap 23 n ≤ unit - scaled 23 n % unit := by
    refine Nat.le_of_dvd ?_ (Nat.dvd_sub hgap ((Nat.dvd_mod_iff hgap).mpr (gap_dvd_scaled 23 n)))
    have := Nat.mod_lt (scaled 23 n) unit_pos
    omega
  have hdiv := Nat.div_add_mod' (scaled 23 n) unit
  have hmod := Nat.mod_lt (scaled 23 n) unit_pos
  rw [Nat.succ_mul]
  omega

/-- A decimal that rounds to such a number has places, the number's integer part and a part
behind the point that is not zero. -/
theorem parts_of_rounds {n d : ℕ} {k : ℤ} (hr : Rounds 23 unit n k d) (h : scaled 23 n % unit ≠ 0) :
    k < 0 ∧ d / 10 ^ (-k).toNat = scaled 23 n / unit ∧ d % 10 ^ (-k).toNat ≠ 0 := by
  obtain ⟨hbelow, habove⟩ := between_integers h
  have hgap := gap_pos 23 n
  have hunit := unit_pos
  set q := scaled 23 n / unit with hq
  obtain ⟨m, rfl⟩ : ∃ m, n = m + 1 :=
    Nat.exists_eq_succ_of_ne_zero (by rintro rfl; simp [scaled] at h)
  have hstep : gap 23 m ≤ gap 23 (m + 1) := gap_mono 23 (by omega)
  have hprev := scaled_succ 23 m
  have hnext := scaled_succ 23 (m + 1)
  have hpos : 0 < 10 ^ (-k).toNat := Nat.pow_pos (by decide)
  have hlow : q * 10 ^ (-k).toNat < d * 10 ^ k.toNat := by
    refine Nat.lt_of_mul_lt_mul_left (a := 2 * unit) (lt_of_lt_of_le ?_ hr.low)
    rw [← Nat.mul_assoc]
    refine Nat.mul_lt_mul_of_pos_right ?_ hpos
    simp only [Nat.add_sub_cancel]
    nlinarith
  have hhigh : d * 10 ^ k.toNat < (q + 1) * 10 ^ (-k).toNat := by
    refine Nat.lt_of_mul_lt_mul_left (a := 2 * unit) (lt_of_le_of_lt hr.high ?_)
    rw [← Nat.mul_assoc]
    refine Nat.mul_lt_mul_of_pos_right ?_ hpos
    nlinarith
  have hk : k < 0 := by
    by_contra hk
    have hzero : (-k).toNat = 0 := by omega
    rw [hzero] at hlow hhigh
    omega
  have hzero : k.toNat = 0 := by omega
  rw [hzero, pow_zero, Nat.mul_one] at hlow hhigh
  have hdiv : d / 10 ^ (-k).toNat = q :=
    Nat.div_eq_of_lt_le hlow.le (by simpa using hhigh)
  refine ⟨hk, hdiv, fun hmod => ?_⟩
  have := Nat.div_add_mod' d (10 ^ (-k).toNat)
  rw [hdiv, hmod] at this
  omega

/-- How many digits such a number has behind the point. -/
def places (n : ℕ) : ℕ := (-exponent n).toNat

variable {n m : ℕ}

theorem exponent_neg (h : scaled 23 n % unit ≠ 0) : exponent n < 0 :=
  (parts_of_rounds (rounds_digits n) h).1

theorem places_pos (h : scaled 23 n % unit ≠ 0) : 0 < places n := by
  have hneg := exponent_neg h
  unfold places
  omega

theorem exponent_eq (h : scaled 23 n % unit ≠ 0) : exponent n = -(places n : ℤ) := by
  have hneg := exponent_neg h
  unfold places
  omega

theorem digits_div (h : scaled 23 n % unit ≠ 0) : digits n / 10 ^ places n = scaled 23 n / unit :=
  (parts_of_rounds (rounds_digits n) h).2.1

theorem digits_mod (h : scaled 23 n % unit ≠ 0) : digits n % 10 ^ places n ≠ 0 :=
  (parts_of_rounds (rounds_digits n) h).2.2

theorem point_notMem_toDigits (n : ℕ) : '.' ∉ Nat.toDigits 10 n := fun h => by
  have := Text.isDigit_of_mem_toDigits h
  contradiction

theorem point_notMem_padded (w n : ℕ) : '.' ∉ Text.padded w n := fun h => by
  have := Text.isDigit_of_mem_padded h
  contradiction

/-- What stands behind the point of such a number. -/
def fractionDigits (n : ℕ) : List Char := Text.padded (places n) (digits n % 10 ^ places n)

/-- The integer part and the digits behind the point tell the number. -/
theorem eq_of_fraction (hn : scaled 23 n % unit ≠ 0) (hm : scaled 23 m % unit ≠ 0)
    (hint : scaled 23 n / unit = scaled 23 m / unit) (htext : fractionDigits n = fractionDigits m) :
    n = m := by
  have hlt (k : ℕ) : digits k % 10 ^ places k < 10 ^ places k :=
    Nat.mod_lt _ (Nat.pow_pos (by decide))
  have hplaces : places n = places m := by
    have hlength := congrArg List.length htext
    rwa [fractionDigits, fractionDigits, Text.length_padded (places_pos hn) (hlt n),
      Text.length_padded (places_pos hm) (hlt m)] at hlength
  have hmod := Text.padded_value_inj htext
  have hdigits : digits n = digits m := by
    calc digits n = 10 ^ places n * (digits n / 10 ^ places n) + digits n % 10 ^ places n :=
          (Nat.div_add_mod _ _).symm
      _ = 10 ^ places m * (digits m / 10 ^ places m) + digits m % 10 ^ places m := by
          rw [digits_div hn, digits_div hm, hint, hmod, hplaces]
      _ = digits m := Nat.div_add_mod _ _
  have hk : exponent n = exponent m := by rw [exponent_eq hn, exponent_eq hm, hplaces]
  have hrounds := rounds_digits n
  rw [hk, hdigits] at hrounds
  exact hrounds.unique (rounds_digits m)

theorem decimalText_of_fraction (h : scaled 23 n % unit ≠ 0) :
    decimalText (exponent n) (digits n) =
      Nat.toDigits 10 (digits n / 10 ^ places n) ++ '.' :: fractionDigits n := by
  unfold decimalText fractionDigits places
  rw [if_neg (not_le.mpr (exponent_neg h))]

/-- Behind the first point of a text. -/
theorem splitOn_point {pre post : List Char} (hpre : '.' ∉ pre) (hpost : '.' ∉ post) :
    ((pre ++ '.' :: post).splitOn '.')[1]? = some post := by
  rw [List.splitOn_append_cons_self_of_not_mem hpre, List.splitOn_eq_singleton hpost]
  rfl

theorem fractionText_of_fraction {x : Binary32} (hfin : isFinite x = true)
    (h : scaled 23 (magnitude x) % unit ≠ 0) :
    fractionText x = some (fractionDigits (magnitude x)) := by
  have hnan : isNan x = false := by
    simp only [isFinite, isNan, decide_eq_true_eq, decide_eq_false_iff_not] at hfin ⊢
    omega
  have hpost : '.' ∉ fractionDigits (magnitude x) := point_notMem_padded _ _
  have hminus : '.' ∉ '-' :: Nat.toDigits 10
      (digits (magnitude x) / 10 ^ places (magnitude x)) := by
    simpa using point_notMem_toDigits _
  unfold fractionText display
  simp only [hnan, hfin, decimalText_of_fraction h, Bool.false_eq_true, if_false, if_true]
  split
  · rw [← List.cons_append]
    exact splitOn_point hminus hpost
  · exact splitOn_point (point_notMem_toDigits _) hpost

end Fraction

/-- A number is its sign and its magnitude. -/
theorem eq_of_sign_of_magnitude {x y : Binary32} (hsign : isNegative x = isNegative y)
    (hmag : magnitude x = magnitude y) : x = y := by
  apply BitVec.eq_of_toNat_eq
  simp only [isNegative, BitVec.msb_eq_decide, decide_eq_decide, magnitude] at hsign hmag
  have hx := x.isLt
  have hy := y.isLt
  omega

end Binary32
