import Nyuka.Packaging.Paths

/-! What a padded number still tells. Two numbers get the same text when both are whole as far
as the code looks and truncate to the same integer, or when they differ in nothing but a sign
that the integer part, being zero, does not show. -/
namespace Nyuka
namespace Packaging
open Text Binary32
open Floats (scaled gap gap_dvd_scaled scaled_strictMono)

/-- The magnitude of the number one. -/
def one : ℕ := 127 * 2 ^ 23

/-- The two numbers are written the same. -/
def Alike (x y : Binary32) : Prop :=
  if x.whole then y.whole = true ∧ x.toI64 = y.toI64
  else y.whole = false ∧
    (x = y ∨ (x.isNan = true ∧ y.isNan = true) ∨ (x.magnitude = y.magnitude ∧ x.magnitude < one))

instance (x y : Binary32) : Decidable (Alike x y) := by unfold Alike; infer_instance

/-- The integer part as the sign has it. -/
def signedPart (x : Binary32) : ℤ :=
  if x.isNegative then -((scaled 23 x.magnitude / unit : ℕ) : ℤ)
  else ((scaled 23 x.magnitude / unit : ℕ) : ℤ)

/-- A number whose text has a point, sorted by what stands behind it. -/
inductive Pointed (x : Binary32) : Prop where
  | nan (hnan : x.isNan = true) (hint : x.toI64 = 0) (htext : x.fractionText = none)
  | infinite (hmag : x.magnitude = infinity)
      (hint : x.toI64 = if x.isNegative then -2 ^ 63 else 2 ^ 63 - 1)
      (htext : x.fractionText = none)
  | fraction (hfrac : scaled 23 x.magnitude % unit ≠ 0) (hint : x.toI64 = signedPart x)
      (htext : x.fractionText = some (fractionDigits x.magnitude))

@[simp] theorem integerPart_infinity : scaled 23 infinity / unit = 2 ^ 128 := by decide

/-- A number with a fraction is below 2^24, so its integer part does not saturate. -/
theorem integerPart_lt {n : ℕ} (h : scaled 23 n % unit ≠ 0) : scaled 23 n / unit < 2 ^ 24 := by
  have hgap : gap 23 n < unit := by
    by_contra hlarge
    have hdvd : unit ∣ gap 23 n := by
      unfold gap unit at *
      exact pow_dvd_pow 2 ((Nat.pow_le_pow_iff_right (by decide)).mp (not_lt.mp hlarge))
    exact h (Nat.mod_eq_zero_of_dvd (hdvd.trans (gap_dvd_scaled 23 n)))
  have hscaled : scaled 23 n < 2 ^ 24 * gap 23 n := by
    unfold scaled gap
    have hmod := Nat.mod_lt n (show 0 < 2 ^ 23 by decide)
    split
    · have := Nat.one_le_two_pow (n := n / 2 ^ 23 - 1)
      nlinarith
    · exact Nat.mul_lt_mul_of_pos_right (by omega) (Nat.two_pow_pos _)
  exact Nat.div_lt_of_lt_mul (by nlinarith)

theorem toI64_of_nan {x : Binary32} (h : x.isNan = true) : x.toI64 = 0 := by simp [toI64, h]

theorem fractionText_of_nan {x : Binary32} (h : x.isNan = true) : x.fractionText = none := by
  have hdisplay : x.display = ['N', 'a', 'N'] := by simp [display, h]
  rw [fractionText, hdisplay]
  rfl

theorem pointed_of_not_whole {x : Binary32} (h : x.whole = false) : Pointed x := by
  by_cases hnan : x.isNan = true
  · exact .nan hnan (toI64_of_nan hnan) (fractionText_of_nan hnan)
  have hmag : ¬ infinity < x.magnitude := by simpa [isNan] using hnan
  by_cases hfin : x.isFinite = true
  · have hfrac : scaled 23 x.magnitude % unit ≠ 0 := fun hzero => by
      simp [whole, hfin, hzero] at h
    refine .fraction hfrac ?_ (fractionText_of_fraction hfin hfrac)
    have hlt := integerPart_lt hfrac
    simp only [toI64, hnan, signedPart]
    generalize scaled 23 x.magnitude / unit = q at hlt
    cases x.isNegative <;> simp <;> omega
  · have hinf : x.magnitude = infinity := by
      simp only [isFinite, decide_eq_true_eq] at hfin
      omega
    refine .infinite hinf ?_ ?_
    · have hq : scaled 23 x.magnitude / unit = 2 ^ 128 := by rw [hinf, integerPart_infinity]
      simp only [toI64, hnan, hq]
      cases x.isNegative <;> decide
    · have hdisplay : x.display =
          if x.isNegative then ['-', 'i', 'n', 'f'] else ['i', 'n', 'f'] := by
        simp [display, hnan, hfin]
      rw [fractionText, hdisplay]
      cases x.isNegative <;> rfl

/-- Behind the point of a finite number there is more than zeros. -/
theorem fractionDigits_ne_zero {n : ℕ} (h : scaled 23 n % unit ≠ 0) : fractionDigits n ≠ ['0'] := by
  intro hzero
  have hvalue := congrArg (Nat.ofDigitChars 10 · 0) hzero
  simp only [fractionDigits, ofDigitChars_padded] at hvalue
  exact digits_mod h hvalue

/-- Below one only numbers with a fraction are written with a point. -/
theorem Pointed.fraction_of_lt {x : Binary32} (hx : Pointed x) (hlt : x.magnitude < one) :
    scaled 23 x.magnitude % unit ≠ 0 ∧ x.toI64 = signedPart x ∧
      x.fractionText = some (fractionDigits x.magnitude) := by
  have hone : one < infinity := by decide
  cases hx with
  | nan hnan =>
    simp only [isNan, decide_eq_true_eq] at hnan
    omega
  | infinite hmag => omega
  | fraction hfrac hint htext => exact ⟨hfrac, hint, htext⟩

theorem padNumber_of_whole {x : Binary32} (h : x.whole = true) (width : ℕ) :
    padNumber x width = paddedInt width x.toI64 := by simp [padNumber, h]

theorem padNumber_of_not_whole {x : Binary32} (h : x.whole = false) (width : ℕ) :
    padNumber x width = paddedInt width x.toI64 ++ '.' :: x.fractionText.getD ['0'] := by
  simp [padNumber, h]

theorem point_notMem_paddedInt (width : ℕ) (n : ℤ) : '.' ∉ paddedInt width n := fun h => by
  rcases isDigit_or_minus_of_mem_paddedInt h with h | h <;> contradiction

/-- The text is split at its point. -/
theorem append_point_inj {a b c d : List Char} (ha : '.' ∉ a) (hc : '.' ∉ c)
    (h : a ++ '.' :: b = c ++ '.' :: d) : a = c ∧ b = d := by
  have hsplit := congrArg (List.splitOn '.') h
  rw [List.splitOn_append_cons_self_of_not_mem ha, List.splitOn_append_cons_self_of_not_mem hc]
    at hsplit
  obtain rfl := (List.cons.inj hsplit).1
  exact ⟨rfl, by simpa using h⟩

/-- Texts with a point agree when both their halves do. -/
theorem padNumber_pointed_iff {x y : Binary32} (hx : x.whole = false) (hy : y.whole = false)
    (width : ℕ) : padNumber x width = padNumber y width ↔
      x.toI64 = y.toI64 ∧ x.fractionText.getD ['0'] = y.fractionText.getD ['0'] := by
  rw [padNumber_of_not_whole hx, padNumber_of_not_whole hy]
  constructor
  · intro h
    obtain ⟨hint, htext⟩ := append_point_inj (point_notMem_paddedInt _ _)
      (point_notMem_paddedInt _ _) h
    exact ⟨paddedInt_inj hint, htext⟩
  · rintro ⟨hint, htext⟩
    rw [hint, htext]

/-- Below one the integer part is zero, and nowhere else. -/
theorem integerPart_eq_zero_iff {n : ℕ} : scaled 23 n / unit = 0 ↔ n < one := by
  have hone : scaled 23 one = unit := by decide
  rw [Nat.div_eq_zero_iff_lt unit_pos, ← hone, (scaled_strictMono 23).lt_iff_lt]

/-- Two numbers with a fraction have the same halves when they are equal, or differ in a sign
that the integer part does not show. -/
theorem fraction_halves_iff {x y : Binary32} (hx : scaled 23 x.magnitude % unit ≠ 0)
    (hy : scaled 23 y.magnitude % unit ≠ 0)
    (hintx : x.toI64 = signedPart x) (hinty : y.toI64 = signedPart y) :
    x.toI64 = y.toI64 ∧ fractionDigits x.magnitude = fractionDigits y.magnitude ↔
      x = y ∨ (x.magnitude = y.magnitude ∧ x.magnitude < one) := by
  constructor
  · rintro ⟨hint, htext⟩
    simp only [hintx, hinty, signedPart] at hint
    have hparts : scaled 23 x.magnitude / unit = scaled 23 y.magnitude / unit := by
      generalize scaled 23 x.magnitude / unit = p at hint ⊢
      generalize scaled 23 y.magnitude / unit = q at hint ⊢
      split at hint <;> split at hint <;> omega
    have hmag := eq_of_fraction hx hy hparts htext
    by_cases hsign : x.isNegative = y.isNegative
    · exact Or.inl (eq_of_sign_of_magnitude hsign hmag)
    · refine Or.inr ⟨hmag, integerPart_eq_zero_iff.mp ?_⟩
      rw [hparts] at hint ⊢
      generalize scaled 23 y.magnitude / unit = q at hint ⊢
      cases hnx : x.isNegative <;> cases hny : y.isNegative <;> simp [hnx, hny] at hint hsign <;>
        omega
  · rintro (rfl | ⟨hmag, hlt⟩)
    · exact ⟨rfl, rfl⟩
    · have hzero := integerPart_eq_zero_iff.mpr hlt
      simp [hintx, hinty, signedPart, ← hmag, hzero]

/-- The halves of two numbers with a point, whatever kind they are of. -/
theorem halves_iff {x y : Binary32} (hx : Pointed x) (hy : Pointed y) :
    x.toI64 = y.toI64 ∧ x.fractionText.getD ['0'] = y.fractionText.getD ['0'] ↔
      x = y ∨ (x.isNan = true ∧ y.isNan = true) ∨
        (x.magnitude = y.magnitude ∧ x.magnitude < one) := by
  constructor
  · rintro ⟨hint, htext⟩
    cases hx with
    | nan hnanx hintx htextx =>
      cases hy with
      | nan hnany => exact Or.inr (Or.inl ⟨hnanx, hnany⟩)
      | infinite _ hinty =>
        rw [hintx, hinty] at hint
        split at hint <;> omega
      | fraction hfrac _ htexty =>
        rw [htextx, htexty, Option.getD_none, Option.getD_some] at htext
        exact absurd htext.symm (fractionDigits_ne_zero hfrac)
    | infinite hmagx hintx htextx =>
      cases hy with
      | nan _ hinty =>
        rw [hintx, hinty] at hint
        split at hint <;> omega
      | infinite hmagy hinty =>
        refine Or.inl (eq_of_sign_of_magnitude ?_ (hmagx.trans hmagy.symm))
        rw [hintx, hinty] at hint
        cases hnx : x.isNegative <;> cases hny : y.isNegative <;> simp [hnx, hny] at hint ⊢
      | fraction hfrac _ htexty =>
        rw [htextx, htexty, Option.getD_none, Option.getD_some] at htext
        exact absurd htext.symm (fractionDigits_ne_zero hfrac)
    | fraction hfracx hintx htextx =>
      cases hy with
      | nan _ _ htexty | infinite _ _ htexty =>
        rw [htextx, htexty, Option.getD_some, Option.getD_none] at htext
        exact absurd htext (fractionDigits_ne_zero hfracx)
      | fraction hfracy hinty htexty =>
        rw [htextx, htexty, Option.getD_some, Option.getD_some] at htext
        rcases (fraction_halves_iff hfracx hfracy hintx hinty).mp ⟨hint, htext⟩ with h | h
        · exact Or.inl h
        · exact Or.inr (Or.inr h)
  · rintro (rfl | ⟨hnanx, hnany⟩ | ⟨hmag, hlt⟩)
    · exact ⟨rfl, rfl⟩
    · rw [toI64_of_nan hnanx, toI64_of_nan hnany, fractionText_of_nan hnanx,
        fractionText_of_nan hnany]
      exact ⟨rfl, rfl⟩
    · obtain ⟨hfracx, hintx, htextx⟩ := hx.fraction_of_lt hlt
      have hlty : y.magnitude < one := by rw [← hmag]; exact hlt
      obtain ⟨hfracy, hinty, htexty⟩ := hy.fraction_of_lt hlty
      rw [htextx, htexty, Option.getD_some, Option.getD_some]
      exact (fraction_halves_iff hfracx hfracy hintx hinty).mpr (Or.inr ⟨hmag, hlt⟩)

/-- Which numbers a padded text confuses. -/
theorem padNumber_eq_iff {x y : Binary32} {width : ℕ} :
    padNumber x width = padNumber y width ↔ Alike x y := by
  cases hx : x.whole with
  | true =>
    simp only [Alike, hx, if_true]
    cases hy : y.whole with
    | true =>
      rw [padNumber_of_whole hx, padNumber_of_whole hy]
      exact ⟨fun h => ⟨rfl, paddedInt_inj h⟩, fun h => by rw [h.2]⟩
    | false =>
      rw [padNumber_of_whole hx, padNumber_of_not_whole hy]
      refine ⟨fun h => absurd ?_ (point_notMem_paddedInt width x.toI64), fun h => by simp at h⟩
      rw [h]
      simp
  | false =>
    cases hy : y.whole with
    | true =>
      rw [padNumber_of_not_whole hx, padNumber_of_whole hy]
      refine ⟨fun h => absurd ?_ (point_notMem_paddedInt width y.toI64),
        fun h => by simp [Alike, hx, hy] at h⟩
      rw [← h]
      simp
    | false =>
      rw [padNumber_pointed_iff hx hy]
      simp only [Alike, hx, hy, Bool.false_eq_true, if_false, true_and]
      exact halves_iff (pointed_of_not_whole hx) (pointed_of_not_whole hy)

end Packaging
end Nyuka
