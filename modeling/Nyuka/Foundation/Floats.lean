import Mathlib.Algebra.Order.Group.Nat
import Mathlib.Order.Monotone.Basic
import Mathlib.Tactic.Linarith
import Mathlib.Tactic.Ring
import Nyuka.Foundation.Text

/-! Binary floating point formats, by the magnitude of a number: its bits below the sign, which
are ordered as the absolute values are. A format has `p` bits of mantissa, and absolute values
are counted in units of the least positive number, of which `unit` make the number one. -/
namespace Floats

/-- The absolute value that belongs to a magnitude. -/
def scaled (p n : ℕ) : ℕ :=
  if n < 2 ^ p then n else (2 ^ p + n % 2 ^ p) * 2 ^ (n / 2 ^ p - 1)

/-- How far the next number is. -/
def gap (p n : ℕ) : ℕ := 2 ^ (n / 2 ^ p - 1)

variable {p unit n m d : ℕ} {k : ℤ}

theorem gap_pos (p n : ℕ) : 0 < gap p n := Nat.two_pow_pos _

theorem scaled_succ (p n : ℕ) : scaled p (n + 1) = scaled p n + gap p n := by
  unfold scaled gap
  have hpos : 0 < 2 ^ p := Nat.two_pow_pos p
  set N := 2 ^ p
  have hmod := Nat.mod_lt n hpos
  have hdiv := Nat.div_add_mod n N
  by_cases hn : n + 1 < N
  · have hzero : n / N = 0 := Nat.div_eq_of_lt (by omega)
    simp only [if_pos hn, if_pos (by omega : n < N), hzero]
    rfl
  rw [if_neg hn]
  by_cases hfirst : n < N
  · have hend : n + 1 = N := by omega
    simp only [if_pos hfirst, Nat.div_eq_of_lt hfirst, hend, Nat.mod_self, Nat.div_self hpos]
    omega
  rw [if_neg hfirst]
  have hone : 1 ≤ n / N := (Nat.one_le_div_iff hpos).mpr (by omega)
  by_cases hcarry : n % N + 1 < N
  · have hsucc : n + 1 = (n % N + 1) + N * (n / N) := by omega
    have hmod' : (n + 1) % N = n % N + 1 := by
      rw [hsucc, Nat.add_mul_mod_self_left, Nat.mod_eq_of_lt hcarry]
    have hdiv' : (n + 1) / N = n / N := by
      rw [hsucc, Nat.add_mul_div_left _ _ hpos, Nat.div_eq_of_lt hcarry, Nat.zero_add]
    rw [hmod', hdiv']
    ring
  · have hlast : n % N + 1 = N := by omega
    have hsucc : n + 1 = 0 + N * (n / N + 1) := by rw [Nat.mul_succ]; omega
    have hmod' : (n + 1) % N = 0 := by rw [hsucc, Nat.add_mul_mod_self_left, Nat.zero_mod]
    have hdiv' : (n + 1) / N - 1 = (n / N - 1) + 1 := by
      rw [hsucc, Nat.add_mul_div_left _ _ hpos, Nat.zero_div]
      omega
    calc (N + (n + 1) % N) * 2 ^ ((n + 1) / N - 1)
        = (N + N) * 2 ^ (n / N - 1) := by rw [hmod', hdiv']; ring
      _ = (N + (n % N + 1)) * 2 ^ (n / N - 1) := by rw [hlast]
      _ = _ := by ring

theorem scaled_strictMono (p : ℕ) : StrictMono (scaled p) :=
  strictMono_nat_of_lt_succ fun n => by
    have := gap_pos p n
    rw [scaled_succ]
    omega

theorem gap_mono (p : ℕ) (h : m ≤ n) : gap p m ≤ gap p n :=
  Nat.pow_le_pow_right (by decide) (by have := Nat.div_le_div_right (c := 2 ^ p) h; omega)

theorem gap_dvd_scaled (p n : ℕ) : gap p n ∣ scaled p n := by
  unfold scaled gap
  by_cases hn : n < 2 ^ p
  · simp only [Nat.div_eq_of_lt hn, Nat.zero_sub, pow_zero]
    exact one_dvd _
  · simp only [if_neg hn]
    exact Dvd.intro_left _ rfl

section Rounding

/-- The decimal `d * 10 ^ k` rounds to the number of magnitude `n`: it lies between the
midpoints to the two neighbours, and ties go to the even mantissa. -/
def Rounds (p unit n : ℕ) (k : ℤ) (d : ℕ) : Prop :=
  let x := 2 * unit * (d * 10 ^ k.toNat)
  let low := (scaled p (n - 1) + scaled p n) * 10 ^ (-k).toNat
  let high := (scaled p n + scaled p (n + 1)) * 10 ^ (-k).toNat
  (low < x ∨ n % 2 = 0 ∧ low = x) ∧ (x < high ∨ n % 2 = 0 ∧ x = high)

instance (p unit n : ℕ) (k : ℤ) (d : ℕ) : Decidable (Rounds p unit n k d) := by
  unfold Rounds; infer_instance

theorem Rounds.low (h : Rounds p unit n k d) :
    (scaled p (n - 1) + scaled p n) * 10 ^ (-k).toNat ≤ 2 * unit * (d * 10 ^ k.toNat) := by
  rcases h.1 with hlt | ⟨-, heq⟩
  · exact hlt.le
  · exact heq.le

theorem Rounds.high (h : Rounds p unit n k d) :
    2 * unit * (d * 10 ^ k.toNat) ≤ (scaled p n + scaled p (n + 1)) * 10 ^ (-k).toNat := by
  rcases h.2 with hlt | ⟨-, heq⟩
  · exact hlt.le
  · exact heq.le

/-- Decimals are in the order of the numbers they round to: where the intervals of neighbours
meet, one of the two is odd. -/
theorem Rounds.lt_of_lt {j : ℤ} {e : ℕ} (hn : Rounds p unit n k d) (hm : Rounds p unit m j e)
    (hlt : n < m) : d * 10 ^ k.toNat * 10 ^ (-j).toNat < e * 10 ^ j.toNat * 10 ^ (-k).toNat := by
  have hmono := scaled_strictMono p
  have hP : 0 < 10 ^ (-k).toNat := Nat.pow_pos (by decide)
  have hQ : 0 < 10 ^ (-j).toNat := Nat.pow_pos (by decide)
  have hn1 : scaled p n ≤ scaled p (m - 1) := hmono.monotone (by omega)
  have hm1 : scaled p (n + 1) ≤ scaled p m := hmono.monotone hlt
  have hhigh := hn.high
  have hlow := hm.low
  unfold Rounds at hn hm
  simp only at hn hm
  generalize 10 ^ (-k).toNat = P at *
  generalize 10 ^ (-j).toNat = Q at *
  generalize d * 10 ^ k.toNat = x at *
  generalize e * 10 ^ j.toNat = y at *
  by_contra hge
  have hchain : 2 * unit * y * P ≤ 2 * unit * x * Q := by
    have := Nat.mul_le_mul_left (2 * unit) (not_lt.mp hge)
    linarith
  have hx : 2 * unit * x * Q ≤ (scaled p n + scaled p (n + 1)) * P * Q :=
    Nat.mul_le_mul_right Q hhigh
  have hy : (scaled p (m - 1) + scaled p m) * Q * P ≤ 2 * unit * y * P :=
    Nat.mul_le_mul_right P hlow
  have hsum : scaled p (m - 1) + scaled p m ≤ scaled p n + scaled p (n + 1) := by
    apply Nat.le_of_mul_le_mul_right _ (Nat.mul_pos hP hQ)
    linarith
  have hm' : m = n + 1 := hmono.injective (by omega)
  subst hm'
  rw [Nat.add_sub_cancel] at hy hm
  have htop : (scaled p n + scaled p (n + 1)) * P ≤ 2 * unit * x :=
    Nat.le_of_mul_le_mul_right (by linarith) hQ
  have hbottom : 2 * unit * y ≤ (scaled p n + scaled p (n + 1)) * Q :=
    Nat.le_of_mul_le_mul_right (by linarith) hP
  have heven : n % 2 = 0 := by
    rcases hn.2 with h | ⟨h, -⟩
    · omega
    · exact h
  have heven' : (n + 1) % 2 = 0 := by
    rcases hm.1 with h | ⟨h, -⟩
    · omega
    · exact h
  omega

/-- A decimal rounds to no two numbers. -/
theorem Rounds.unique (hn : Rounds p unit n k d) (hm : Rounds p unit m k d) : n = m :=
  Nat.le_antisymm (Nat.not_lt.mp fun hlt => lt_irrefl _ (hm.lt_of_lt hn hlt))
    (Nat.not_lt.mp fun hlt => lt_irrefl _ (hn.lt_of_lt hm hlt))

end Rounding

section Search

/-- The decimal of exponent `k` to display, if one rounds to the number: of the two next to the
number the closer one, the upper one when both are as close. -/
def nearest (p unit n : ℕ) (k : ℤ) : Option ℕ :=
  let digits := scaled p n * 10 ^ (-k).toNat / (unit * 10 ^ k.toNat)
  let rest := scaled p n * 10 ^ (-k).toNat % (unit * 10 ^ k.toNat)
  if Rounds p unit n k digits then
    if Rounds p unit n k (digits + 1) ∧ unit * 10 ^ k.toNat ≤ 2 * rest then some (digits + 1)
    else some digits
  else if Rounds p unit n k (digits + 1) then some (digits + 1)
  else none

/-- The first exponent of a list that has such a decimal. -/
def exponent (p unit : ℕ) (exponents : List ℤ) (n : ℕ) : ℤ :=
  (exponents.find? fun k => (nearest p unit n k).isSome).getD 0

/-- The digits of that decimal. -/
def digits (p unit : ℕ) (exponents : List ℤ) (n : ℕ) : ℕ :=
  (nearest p unit n (exponent p unit exponents n)).getD 0

theorem rounds_of_nearest (h : nearest p unit n k = some d) : Rounds p unit n k d := by
  unfold nearest at h
  grind

/-- Decimals that lie closer than the numbers do leave none of them out. -/
theorem nearest_isSome {j : ℕ} (hunit : 0 < unit) (hj : 2 * unit ≤ 10 ^ j) (n : ℕ) :
    (nearest p unit n (-j)).isSome := by
  have hmono := scaled_strictMono p
  have hnat : (-(-(j : ℤ))).toNat = j := by omega
  have hzero : (-(j : ℤ)).toNat = 0 := by omega
  have hnext : scaled p n < scaled p (n + 1) := hmono (by omega)
  have hround : Rounds p unit n (-j) (scaled p n * 10 ^ j / unit) := by
    have hlow := Nat.div_mul_le_self (scaled p n * 10 ^ j) unit
    have hhigh := Nat.lt_div_mul_add hunit (a := scaled p n * 10 ^ j)
    unfold Rounds
    simp only [hnat, hzero, pow_zero, mul_one]
    set d := scaled p n * 10 ^ j / unit
    refine ⟨?_, Or.inl (by nlinarith)⟩
    cases n with
    | zero =>
      have hd : d = 0 := by simp [d, scaled]
      exact Or.inr ⟨rfl, by simp [hd, scaled]⟩
    | succ n =>
      have hprev : scaled p n < scaled p (n + 1) := hmono (by omega)
      simp only [Nat.add_sub_cancel]
      exact Or.inl (by nlinarith)
  unfold nearest
  simp only [hnat, hzero, pow_zero, mul_one] at hround ⊢
  rw [if_pos hround]
  split <;> rfl

/-- The search finds a decimal that rounds to the number, when one of its exponents has one. -/
theorem rounds_digits {exponents : List ℤ}
    (h : ∃ k ∈ exponents, (nearest p unit n k).isSome) :
    exponent p unit exponents n ∈ exponents ∧
      Rounds p unit n (exponent p unit exponents n) (digits p unit exponents n) := by
  have hsome : (exponents.find? fun k => (nearest p unit n k).isSome).isSome := by
    rw [List.find?_isSome]
    exact h
  obtain ⟨k, hfound⟩ := Option.isSome_iff_exists.mp hsome
  have hexponent : exponent p unit exponents n = k := by simp [exponent, hfound]
  have htest : (nearest p unit n k).isSome = true := by
    simpa using List.find?_some (p := fun k => (nearest p unit n k).isSome) hfound
  obtain ⟨d, hd⟩ := Option.isSome_iff_exists.mp htest
  have hdigits : digits p unit exponents n = d := by simp [digits, hexponent, hd]
  rw [hexponent, hdigits]
  exact ⟨List.mem_of_find?_eq_some hfound, rounds_of_nearest hd⟩

end Search

end Floats
