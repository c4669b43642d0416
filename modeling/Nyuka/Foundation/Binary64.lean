import Nyuka.Foundation.Binary32

/-! Binary64 numbers by their bits, and the decimal text a number is displayed as. -/

/-- A 64-bit floating point number: the sign bit, 11 bits of exponent and 52 of mantissa. -/
abbrev Binary64 := BitVec 64

namespace Binary64

def isNegative (x : Binary64) : Bool := x.msb

/-- The bits below the sign bit, which are ordered as the absolute values are. -/
def magnitude (x : Binary64) : ℕ := x.toNat % 2 ^ 63

/-- The magnitude of the infinities. -/
def infinity : ℕ := 2047 * 2 ^ 52

def isNan (x : Binary64) : Bool := infinity < magnitude x
def isFinite (x : Binary64) : Bool := magnitude x < infinity

/-- The number one, in units of the least positive number. -/
def unit : ℕ := 2 ^ 1074

theorem unit_pos : 0 < unit := by
  unfold unit
  positivity

/-- The exponents a decimal of such a number can have, the largest first. -/
def exponents : List ℤ := (List.range 633).map fun i => 308 - i

/-- The exponent of the decimal of fewest digits that rounds to the number. -/
def exponent (n : ℕ) : ℤ := Floats.exponent 52 unit exponents n

/-- The digits of that decimal. -/
def digits (n : ℕ) : ℕ := Floats.digits 52 unit exponents n

theorem rounds_digits (n : ℕ) :
    exponent n ∈ exponents ∧ Floats.Rounds 52 unit n (exponent n) (digits n) := by
  have hplaces : (Floats.nearest 52 unit n (-(324 : ℕ))).isSome :=
    Floats.nearest_isSome unit_pos (by decide +kernel) n
  exact Floats.rounds_digits ⟨_, by decide +kernel, hplaces⟩

-- What is known of the search is `rounds_digits`; unfolding it helps no later proof.
attribute [irreducible] exponent digits

/-- `format!("{value}")` -/
def display (x : Binary64) : List Char :=
  if isNan x then ['N', 'a', 'N'] else
    let absolute :=
      if isFinite x then Binary32.decimalText (exponent (magnitude x)) (digits (magnitude x))
      else ['i', 'n', 'f']
    if isNegative x then '-' :: absolute else absolute

section Length
variable {n d : ℕ} {k : ℤ}

/-- A decimal that rounds to a finite number is not above the least power of two that is
too large. -/
theorem floor_le_of_rounds (hr : Floats.Rounds 52 unit n k d) (hn : n < infinity) :
    d * 10 ^ k.toNat / 10 ^ (-k).toNat ≤ 2 ^ 1024 := by
  have hmono := Floats.scaled_strictMono 52
  have hunit := unit_pos
  have htop : Floats.scaled 52 infinity = 2 ^ 1024 * unit := by decide +kernel
  have hnext : Floats.scaled 52 (n + 1) ≤ 2 ^ 1024 * unit := htop ▸ hmono.monotone hn
  have hself : Floats.scaled 52 n ≤ Floats.scaled 52 (n + 1) := hmono.monotone (by omega)
  have hle : d * 10 ^ k.toNat ≤ 10 ^ (-k).toNat * 2 ^ 1024 := by
    refine Nat.le_of_mul_le_mul_left (c := 2 * unit) ?_ (by omega)
    calc 2 * unit * (d * 10 ^ k.toNat)
        ≤ (Floats.scaled 52 n + Floats.scaled 52 (n + 1)) * 10 ^ (-k).toNat := hr.high
      _ ≤ (2 * (2 ^ 1024 * unit)) * 10 ^ (-k).toNat := Nat.mul_le_mul_right _ (by omega)
      _ = 2 * unit * (10 ^ (-k).toNat * 2 ^ 1024) := by ring
  exact Nat.div_le_of_le_mul hle

private theorem length_toDigits_le {m : ℕ} (hm : m ≤ 2 ^ 1024) :
    (Nat.toDigits 10 m).length ≤ 309 := by
  have hpow : 2 ^ 1024 < 10 ^ 309 := by decide +kernel
  have hlt := hm.trans_lt hpow
  rwa [← Nat.length_toDigits_le_iff (by decide) (by decide)] at hlt

private theorem length_decimalText (hr : Floats.Rounds 52 unit n k d) (hn : n < infinity)
    (hk : -324 ≤ k) : (Binary32.decimalText k d).length ≤ 634 := by
  have hfloor := floor_le_of_rounds hr hn
  unfold Binary32.decimalText
  by_cases hsign : 0 ≤ k
  · have hzero : (-k).toNat = 0 := by omega
    rw [hzero, pow_zero, Nat.div_one] at hfloor
    rw [if_pos hsign]
    exact (length_toDigits_le hfloor).trans (by decide)
  · have hzero : k.toNat = 0 := by omega
    have hplaces : 0 < (-k).toNat := by omega
    rw [hzero, pow_zero, Nat.mul_one] at hfloor
    have hfront := length_toDigits_le hfloor
    have hback : (Text.padded (-k).toNat (d % 10 ^ (-k).toNat)).length = (-k).toNat :=
      Text.length_padded hplaces (Nat.mod_lt _ (Nat.pow_pos (by decide)))
    rw [if_neg hsign, List.length_append, List.length_cons, hback]
    omega

/-- No number takes more than 635 characters. -/
theorem length_display (x : Binary64) : (display x).length ≤ 635 := by
  obtain ⟨hmem, hr⟩ := rounds_digits (magnitude x)
  have hk : -324 ≤ exponent (magnitude x) := by
    obtain ⟨i, hi, hk⟩ : ∃ i : ℕ, i < 633 ∧ 308 - (i : ℤ) = exponent (magnitude x) := by
      simpa [exponents] using hmem
    omega
  unfold display
  by_cases hnan : isNan x
  · simp [hnan]
  by_cases hfin : isFinite x
  · have := length_decimalText hr (by simpa [isFinite] using hfin) hk
    simp only [hnan, hfin, if_true, Bool.false_eq_true, if_false]
    split
    · rw [List.length_cons]
      omega
    · omega
  · simp only [hnan, hfin, Bool.false_eq_true, if_false]
    split <;> simp

private theorem ascii_of_mem_decimalText {c : Char} (h : c ∈ Binary32.decimalText k d) :
    c.toNat < 128 := by
  have hdigit {c : Char} (hc : c.isDigit = true) : c.toNat < 128 := by
    have := Text.isDigit_bounds hc
    omega
  unfold Binary32.decimalText at h
  split at h
  · exact hdigit (Text.isDigit_of_mem_toDigits h)
  · rcases List.mem_append.mp h with h | h
    · exact hdigit (Text.isDigit_of_mem_toDigits h)
    · rcases List.mem_cons.mp h with rfl | h
      · decide
      · exact hdigit (Text.isDigit_of_mem_padded h)

theorem ascii_of_mem_display {x : Binary64} {c : Char} (h : c ∈ display x) : c.toNat < 128 := by
  have hnan : ∀ c ∈ ['N', 'a', 'N'], c.toNat < 128 := by simp
  have hinf : ∀ c ∈ ['i', 'n', 'f'], c.toNat < 128 := by simp
  have habsolute : ∀ c ∈ (if isFinite x then
      Binary32.decimalText (exponent (magnitude x)) (digits (magnitude x))
      else ['i', 'n', 'f']), c.toNat < 128 := by
    intro c hc
    split at hc
    · exact ascii_of_mem_decimalText hc
    · exact hinf c hc
  unfold display at h
  split at h
  · exact hnan c h
  · dsimp only at h
    split at h
    · rcases List.mem_cons.mp h with rfl | h
      · decide
      · exact habsolute c h
    · exact habsolute c h

end Length

end Binary64
