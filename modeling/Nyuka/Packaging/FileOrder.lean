import Nyuka.Foundation.Decimals
import Nyuka.Foundation.Utf8
import Nyuka.Packaging.FileNames

/-! The order of the file names of one series. Numbers are filled up to three digits, so names
are in the order of the numbers as long as three digits suffice and no whole number stands before
a decimal of the same integer part: the point of the extension is followed by a letter there. -/
namespace Nyuka
namespace Packaging
open Text Binary32
open Floats (scaled scaled_strictMono)

section Numbers
variable {x m n : Binary32}

/-- What stands behind the first point of a file name. -/
def behindPoint (x : Binary32) : List Char :=
  if x.whole then ['c', 'b', 'z'] else fractionDigits x.magnitude ++ ['.', 'c', 'b', 'z']

/-- How many digits a chapter's integer part is written with. -/
def digitCount (n : ℕ) : ℕ := max 3 (Nat.toDigits 10 n).length

/-- The names are in the order of the numbers: of two numbers with one integer part the first is
a decimal, and a lower integer part is at most what the first digits of the greater one are. -/
def InOrder (m n : Binary32) : Prop :=
  if m.toI64 = n.toI64 then m.whole = false
  else m.toI64.natAbs ≤
    n.toI64.natAbs / 10 ^ (digitCount n.toI64.natAbs - digitCount m.toI64.natAbs)

instance (m n : Binary32) : Decidable (InOrder m n) := by unfold InOrder; infer_instance

@[simp] theorem length_padded_three (n : ℕ) : (padded 3 n).length = digitCount n := by
  rw [padded, List.length_leftpad, digitCount]

theorem scaled_of_nonneg (h : 0 ≤ value x) : value x = scaled 23 x.magnitude := by
  unfold value at *
  split at h
  · rw [if_pos ‹_›]
    omega
  · rw [if_neg ‹_›]

theorem toI64_of_nonneg (hfin : isFinite x = true) (h : 0 ≤ value x) :
    x.toI64 = min (2 ^ 63 - 1) ((scaled 23 x.magnitude / unit : ℕ) : ℤ) := by
  have hnan : isNan x = false := by
    simp only [isFinite, isNan, decide_eq_true_eq, decide_eq_false_iff_not] at hfin ⊢
    omega
  have hsign : (if isNegative x then -((scaled 23 x.magnitude / unit : ℕ) : ℤ)
      else ((scaled 23 x.magnitude / unit : ℕ) : ℤ)) =
        ((scaled 23 x.magnitude / unit : ℕ) : ℤ) := by
    have hvalue := scaled_of_nonneg h
    unfold value at hvalue
    split at hvalue
    · have hzero : scaled 23 x.magnitude = 0 := by omega
      simp [hzero]
    · rw [if_neg ‹_›]
  unfold toI64
  rw [hnan]
  simp only [hsign, Bool.false_eq_true, if_false]
  generalize scaled 23 x.magnitude / unit = q
  omega

theorem natAbs_toI64 (hfin : isFinite x = true) (h : 0 ≤ value x) :
    paddedInt 3 x.toI64 = padded 3 x.toI64.natAbs := by
  have hnonneg : ¬ x.toI64 < 0 := by
    rw [toI64_of_nonneg hfin h]
    generalize scaled 23 x.magnitude / unit = q
    omega
  rw [paddedInt, if_neg hnonneg]

theorem fraction_of_not_whole (hfin : isFinite x = true) (hx : x.whole = false) :
    scaled 23 x.magnitude % unit ≠ 0 := by
  intro hzero
  simp [whole, hfin, hzero] at hx

/-- A number's part of the file name: the digits of its integer part and, behind a point, the
rest. -/
theorem padNumber_extension (hfin : isFinite x = true) (h : 0 ≤ value x) :
    padNumber x 3 ++ ['.', 'c', 'b', 'z'] = padded 3 x.toI64.natAbs ++ '.' :: behindPoint x := by
  rw [← natAbs_toI64 hfin h, behindPoint]
  cases hx : x.whole with
  | true => rw [padNumber_of_whole hx, if_pos rfl]
  | false =>
    rw [padNumber_of_not_whole hx, fractionText_of_fraction hfin (fraction_of_not_whole hfin hx),
      Option.getD_some, List.append_assoc, List.cons_append, if_neg Bool.false_ne_true]

/-- Of two decimals with one integer part the less has the lesser digits behind the point. -/
theorem fraction_before {m n : ℕ} (hm : scaled 23 m % unit ≠ 0) (hn : scaled 23 n % unit ≠ 0)
    (hint : scaled 23 m / unit = scaled 23 n / unit) (hlt : m < n) :
    Before (fractionDigits m) (fractionDigits n) := by
  have hmod (k : ℕ) : digits k % 10 ^ places k < 10 ^ places k :=
    Nat.mod_lt _ (Nat.pow_pos (by decide))
  have horder := (rounds_digits m).lt_of_lt (rounds_digits n) hlt
  have hzero {k : ℕ} (hk : scaled 23 k % unit ≠ 0) : (exponent k).toNat = 0 := by
    have hneg := exponent_neg hk
    omega
  rw [hzero hm, hzero hn, pow_zero, Nat.mul_one, Nat.mul_one] at horder
  have hdigits (k : ℕ) (hk : scaled 23 k % unit ≠ 0) :
      digits k = 10 ^ places k * (scaled 23 k / unit) + digits k % 10 ^ places k := by
    rw [← digits_div hk]
    exact (Nat.div_add_mod _ _).symm
  rw [hdigits m hm, hdigits n hn, hint] at horder
  refine Or.inl ?_
  rw [fractionDigits, fractionDigits, ofDigitChars_padded, ofDigitChars_padded,
    length_padded (places_pos hm) (hmod m), length_padded (places_pos hn) (hmod n)]
  unfold places at *
  generalize 10 ^ (-exponent m).toNat = P at *
  generalize 10 ^ (-exponent n).toNat = Q at *
  generalize scaled 23 n / unit = q at *
  have hsame : P * q * Q + digits m % P * Q < P * q * Q + digits n % Q * P := by
    calc P * q * Q + digits m % P * Q = (P * q + digits m % P) * Q := by ring
      _ < (Q * q + digits n % Q) * P := horder
      _ = P * q * Q + digits n % Q * P := by ring
  exact Nat.lt_of_add_lt_add_left hsame

theorem letter_not_lt_digit {d : Char} (hd : d.isDigit = true) : ¬ 'c' < d := by
  have hbounds := isDigit_bounds hd
  have hletter : 'c'.toNat = 99 := rfl
  rw [Char.lt_def, UInt32.lt_iff_toNat_lt]
  show ¬ 'c'.toNat < d.toNat
  omega

theorem digit_lt_letter {d : Char} (hd : d.isDigit = true) : d < 'c' := by
  have hbounds := isDigit_bounds hd
  have hletter : 'c'.toNat = 99 := rfl
  rw [Char.lt_def, UInt32.lt_iff_toNat_lt]
  show d.toNat < 'c'.toNat
  omega

theorem digits_of_fraction (n : ℕ) : ∃ d rest, fractionDigits n = d :: rest ∧ d.isDigit = true := by
  obtain ⟨d, rest, hrest⟩ :=
    List.exists_cons_of_ne_nil (padded_ne_nil (places n) (digits n % 10 ^ places n))
  have hmem : d ∈ padded (places n) (digits n % 10 ^ places n) := by
    rw [hrest]
    exact List.mem_cons_self
  exact ⟨d, rest, hrest, isDigit_of_mem_padded hmem⟩

theorem magnitude_lt (hm : 0 ≤ value m) (hlt : value m < value n) : m.magnitude < n.magnitude := by
  have hn := hm.trans hlt.le
  rw [scaled_of_nonneg hm, scaled_of_nonneg hn] at hlt
  exact (scaled_strictMono 23).lt_iff_lt.mp (by exact_mod_cast hlt)

theorem toI64_mono (hfin : isFinite m = true) (hfin' : isFinite n = true) (hm : 0 ≤ value m)
    (hlt : value m < value n) : 0 ≤ m.toI64 ∧ m.toI64 ≤ n.toI64 := by
  have hscaled := (scaled_strictMono 23).monotone (magnitude_lt hm hlt).le
  have hquotient := Nat.div_le_div_right (c := unit) hscaled
  rw [toI64_of_nonneg hfin hm, toI64_of_nonneg hfin' (hm.trans hlt.le)]
  generalize scaled 23 m.magnitude / unit = p at *
  generalize scaled 23 n.magnitude / unit = q at *
  omega

/-- A decimal is below 2^24, so its integer part is what is written. -/
theorem integerPart_of_fraction (hfin : isFinite x = true) (h : 0 ≤ value x)
    (hx : x.whole = false) :
    x.toI64 = ((scaled 23 x.magnitude / unit : ℕ) : ℤ) := by
  have hsmall := integerPart_lt (fraction_of_not_whole hfin hx)
  rw [toI64_of_nonneg hfin h]
  generalize scaled 23 x.magnitude / unit = q at *
  omega

/-- With one integer part the names are told by what stands behind the point. -/
theorem behindPoint_lt_iff (hfin : isFinite m = true) (hfin' : isFinite n = true)
    (hm : 0 ≤ value m) (hlt : value m < value n) (hint : m.toI64 = n.toI64) :
    behindPoint m < behindPoint n ↔ m.whole = false := by
  unfold behindPoint
  cases hwhole : m.whole with
  | true =>
    rw [if_pos rfl]
    constructor
    · intro h
      cases hwhole' : n.whole with
      | true =>
        rw [hwhole', if_pos rfl] at h
        exact absurd h (List.lt_irrefl _)
      | false =>
        obtain ⟨d, rest, hdigits, hd⟩ := digits_of_fraction n.magnitude
        rw [hwhole', if_neg Bool.false_ne_true, hdigits, List.cons_append,
          List.cons_lt_cons_iff] at h
        rcases h with h | ⟨rfl, -⟩
        · exact absurd h (letter_not_lt_digit hd)
        · contradiction
    · intro h
      cases h
  | false =>
    rw [if_neg Bool.false_ne_true]
    refine iff_of_true ?_ rfl
    cases hwhole' : n.whole with
    | true =>
      obtain ⟨d, rest, hdigits, hd⟩ := digits_of_fraction m.magnitude
      rw [if_pos rfl, hdigits, List.cons_append]
      exact List.cons_lt_cons_iff.mpr (Or.inl (digit_lt_letter hd))
    | false =>
      rw [if_neg Bool.false_ne_true]
      have hparts : scaled 23 m.magnitude / unit = scaled 23 n.magnitude / unit := by
        rw [integerPart_of_fraction hfin hm hwhole,
          integerPart_of_fraction hfin' (hm.trans hlt.le) hwhole'] at hint
        exact_mod_cast hint
      exact append_point_lt_of_before (fun c => isDigit_of_mem_padded)
        (fun c => isDigit_of_mem_padded)
        (fraction_before (fraction_of_not_whole hfin hwhole) (fraction_of_not_whole hfin' hwhole')
          hparts (magnitude_lt hm hlt))

/-- The numbers' parts of the file names are in order. -/
theorem padNumber_lt_iff (hfin : isFinite m = true) (hfin' : isFinite n = true)
    (hm : 0 ≤ value m) (hlt : value m < value n) :
    padNumber m 3 ++ ['.', 'c', 'b', 'z'] < padNumber n 3 ++ ['.', 'c', 'b', 'z'] ↔
      InOrder m n := by
  obtain ⟨hnonneg, hle⟩ := toI64_mono hfin hfin' hm hlt
  rw [padNumber_extension hfin hm, padNumber_extension hfin' (hm.trans hlt.le)]
  unfold InOrder
  by_cases hint : m.toI64 = n.toI64
  · rw [if_pos hint, ← behindPoint_lt_iff hfin hfin' hm hlt hint, hint, append_lt_append_iff,
      List.cons_lt_cons_iff]
    constructor
    · rintro (h | ⟨-, h⟩)
      · exact absurd h (lt_irrefl _)
      · exact h
    · intro h
      exact Or.inr ⟨rfl, h⟩
  · have hless : m.toI64.natAbs < n.toI64.natAbs := by omega
    have hdiffer : padded 3 m.toI64.natAbs ≠ padded 3 n.toI64.natAbs := by
      intro heq
      have hvalue := padded_value_inj heq
      omega
    rw [if_neg hint, append_point_lt_iff (fun c => isDigit_of_mem_padded)
      (fun c => isDigit_of_mem_padded) hdiffer, padded_before_iff hless, length_padded_three,
      length_padded_three]

end Numbers

section Sorted
variable {nfc : List Char → List Char} {title dir stem stem' : List Char} {m n : Binary32}

private theorem fileName_of_number (hnfc : AsciiAppends nfc) (dir : List Char) (x : Binary32) :
    fileName (fullName nfc dir none (some x)) = underscore nfc dir ++ opening nfc dir ++ ['c'] ++
      (padNumber x 3 ++ ['.', 'c', 'b', 'z']) := by
  have hmarkers : markers none (some x) = ['c' :: padNumber x 3] := rfl
  rw [fullName_of_markers hnfc dir (by rw [hmarkers]; exact List.cons_ne_nil _ _), hmarkers,
    List.intercalate_singleton, fileName]
  simp

/-- Of two chapters of a series without volumes, whose names are not cut, the file name of the
less is before that of the greater exactly when the numbers are in order as they are written. -/
theorem fileNames_sorted_iff (hnfc : AsciiAppends nfc)
    (hdir : sanitizeComponent nfc title = .ok dir)
    (hstem : chapterStem nfc title none (some m) = .ok stem)
    (hstem' : chapterStem nfc title none (some n) = .ok stem')
    (hfits : ¬ TooLong nfc dir none (some m)) (hfits' : ¬ TooLong nfc dir none (some n))
    (hfin : isFinite m = true) (hfin' : isFinite n = true) (hm : 0 ≤ value m)
    (hlt : value m < value n) :
    utf8 (fileName stem) < utf8 (fileName stem') ↔ InOrder m n := by
  obtain ⟨d, hd, rfl⟩ := eq_cut_of_chapterStem hstem
  obtain ⟨d', hd', rfl⟩ := eq_cut_of_chapterStem hstem'
  obtain rfl : dir = d := Except.ok.inj (hdir.symm.trans hd)
  obtain rfl : dir = d' := Except.ok.inj (hdir.symm.trans hd')
  rw [cut_of_fits hfits, cut_of_fits hfits', utf8_lt_iff, fileName_of_number hnfc,
    fileName_of_number hnfc, append_lt_append_iff]
  exact padNumber_lt_iff hfin hfin' hm hlt

theorem one_before_two_iff :
    utf8 (fileName "Series c001".toList) < utf8 (fileName "Series c002".toList) ↔
      InOrder 0x3F800000 0x40000000 :=
  @fileNames_sorted_iff id "Series".toList "Series".toList _ _ _ _ asciiAppends_id (by decide)
    (by decide) (by decide) (by decide) (by decide)
    (by decide) (by decide) (by decide) (by decide)

/-- Chapter 5.5 is before chapter 5. -/
theorem half_before_whole : ¬ ∀ nfc, AsciiAppends nfc → ∀ title dir stem stem' m n,
    sanitizeComponent nfc title = .ok dir →
    chapterStem nfc title none (some m) = .ok stem →
    chapterStem nfc title none (some n) = .ok stem' →
    ¬ TooLong nfc dir none (some m) → ¬ TooLong nfc dir none (some n) →
    isFinite m = true → isFinite n = true → 0 ≤ value m → value m < value n →
      utf8 (fileName stem) < utf8 (fileName stem') := by
  intro h
  have hsorted := h id asciiAppends_id "Series".toList "Series".toList "Series c005".toList
    "Series c005.5".toList 0x40A00000 0x40B00000 (by decide) (by decide)
    (by decide +kernel) (by decide +kernel) (by decide +kernel) (by decide +kernel)
    (by decide) (by decide) (by decide)
  revert hsorted
  decide

end Sorted

end Packaging
end Nyuka
