import Mathlib.Tactic.Linarith
import Mathlib.Tactic.Ring
import Nyuka.Foundation.Text

/-! The order of rows of digits that end with a point. The point is below the digits, so the
rows are in the order of the decimals that have them behind the point, and of two rows of one
value the shorter comes first. -/
namespace Text

/-- The one row of digits is before the other. -/
def Before (l m : List Char) : Prop :=
  Nat.ofDigitChars 10 l 0 * 10 ^ m.length < Nat.ofDigitChars 10 m 0 * 10 ^ l.length ∨
    (Nat.ofDigitChars 10 l 0 * 10 ^ m.length = Nat.ofDigitChars 10 m 0 * 10 ^ l.length ∧
      l.length < m.length)

variable {l m s t : List Char} {c d : Char}

/-- The value of a row by its first digit. -/
theorem ofDigitChars_head (c : Char) (l : List Char) :
    Nat.ofDigitChars 10 (c :: l) 0 = 10 ^ l.length * (c.toNat - 48) + Nat.ofDigitChars 10 l 0 := by
  have hzero : '0'.toNat = 48 := rfl
  rw [Nat.ofDigitChars_cons, Nat.ofDigitChars_eq_ofDigitChars_zero, hzero]
  ring

/-- The greater first digit outweighs all that follow. -/
theorem value_lt_of_head (hc : c.isDigit = true) (hlt : c.toNat < d.toNat)
    (hl : ∀ c ∈ l, c.isDigit = true) :
    Nat.ofDigitChars 10 (c :: l) 0 * 10 ^ (d :: m).length <
      Nat.ofDigitChars 10 (d :: m) 0 * 10 ^ (c :: l).length := by
  have hbounds := isDigit_bounds hc
  have hvalue := ofDigitChars_lt hl
  rw [ofDigitChars_head, ofDigitChars_head, List.length_cons, List.length_cons,
    pow_succ 10 l.length]
  have hpos : 0 < 10 ^ m.length := Nat.pow_pos (by decide)
  obtain ⟨x, hx⟩ : ∃ x, c.toNat - 48 = x := ⟨_, rfl⟩
  obtain ⟨y, hy⟩ : ∃ y, d.toNat - 48 = x + 1 + y := ⟨d.toNat - 48 - (x + 1), by omega⟩
  rw [hx, hy]
  generalize 10 ^ l.length = L at *
  generalize Nat.ofDigitChars 10 l 0 = v at *
  calc (L * x + v) * 10 ^ (m.length + 1)
      < (L * x + L) * 10 ^ (m.length + 1) :=
        Nat.mul_lt_mul_of_pos_right (by omega) (Nat.pow_pos (by decide))
    _ ≤ (10 ^ m.length * (x + 1 + y) + Nat.ofDigitChars 10 m 0) * (L * 10) := by
        rw [pow_succ]
        have hterms : 0 ≤ 10 ^ m.length * y * L + Nat.ofDigitChars 10 m 0 * L := Nat.zero_le _
        nlinarith

@[simp] theorem before_cons (c : Char) : Before (c :: l) (c :: m) ↔ Before l m := by
  unfold Before
  rw [ofDigitChars_head, ofDigitChars_head, List.length_cons, List.length_cons, pow_succ, pow_succ]
  have hhead : 10 ^ l.length * (c.toNat - 48) * (10 ^ m.length * 10) =
      10 ^ m.length * (c.toNat - 48) * (10 ^ l.length * 10) := by ring
  rw [add_mul, add_mul, hhead]
  constructor
  · rintro (hlt | ⟨heq, hlength⟩)
    · exact Or.inl (by linarith)
    · exact Or.inr ⟨by linarith, by omega⟩
  · rintro (hlt | ⟨heq, hlength⟩)
    · exact Or.inl (by linarith)
    · exact Or.inr ⟨by linarith, by omega⟩

theorem point_lt_of_digit (hc : c.isDigit = true) : '.' < c := by
  have hbounds := isDigit_bounds hc
  have hpoint : '.'.toNat = 46 := rfl
  rw [Char.lt_def, UInt32.lt_iff_toNat_lt]
  show '.'.toNat < c.toNat
  omega

@[simp] theorem append_lt_append_iff (u : List Char) : u ++ s < u ++ t ↔ s < t := by
  induction u with
  | nil => rfl
  | cons c u ih =>
    rw [List.cons_append, List.cons_append, List.cons_lt_cons_iff, ih]
    constructor
    · rintro (h | ⟨-, h⟩)
      · exact absurd h (Char.lt_irrefl c)
      · exact h
    · intro h
      exact Or.inr ⟨rfl, h⟩

/-- Rows are in the order of their decimals, whatever comes after the points. -/
theorem append_point_lt_of_before (hl : ∀ c ∈ l, c.isDigit = true)
    (hm : ∀ c ∈ m, c.isDigit = true) (h : Before l m) : l ++ '.' :: s < m ++ '.' :: t := by
  induction l generalizing m with
  | nil =>
    cases m with
    | nil => simp [Before] at h
    | cons d m =>
      exact List.cons_lt_cons_iff.mpr (Or.inl (point_lt_of_digit (hm d List.mem_cons_self)))
  | cons c l ih =>
    cases m with
    | nil => simp [Before] at h
    | cons d m =>
      have hl' : ∀ c ∈ l, c.isDigit = true := fun e he => hl e (List.mem_cons_of_mem c he)
      have hm' : ∀ c ∈ m, c.isDigit = true := fun e he => hm e (List.mem_cons_of_mem d he)
      rw [List.cons_append, List.cons_append, List.cons_lt_cons_iff]
      rcases Nat.lt_trichotomy c.toNat d.toNat with hlt | heq | hgt
      · exact Or.inl (Char.lt_def.mpr (UInt32.lt_iff_toNat_lt.mpr hlt))
      · obtain rfl : c = d := Char.toNat_inj.mp heq
        exact Or.inr ⟨rfl, ih hl' hm' ((before_cons c).mp h)⟩
      · have hvalue := @value_lt_of_head m l d c (hm d List.mem_cons_self) hgt hm'
        rcases h with hlt | ⟨heq, -⟩
        · omega
        · omega

/-- Rows of one length with one value are the same. -/
theorem eq_of_value (hl : ∀ c ∈ l, c.isDigit = true) (hm : ∀ c ∈ m, c.isDigit = true)
    (hlength : l.length = m.length)
    (hvalue : Nat.ofDigitChars 10 l 0 = Nat.ofDigitChars 10 m 0) : l = m := by
  induction l generalizing m with
  | nil => exact (List.length_eq_zero_iff.mp hlength.symm).symm
  | cons c l ih =>
    cases m with
    | nil => cases hlength
    | cons d m =>
      have hl' : ∀ c ∈ l, c.isDigit = true := fun e he => hl e (List.mem_cons_of_mem c he)
      have hm' : ∀ c ∈ m, c.isDigit = true := fun e he => hm e (List.mem_cons_of_mem d he)
      have hsize : l.length = m.length := Nat.succ.inj hlength
      rcases Nat.lt_trichotomy c.toNat d.toNat with hlt | heq | hgt
      · have hless := @value_lt_of_head l m c d (hl c List.mem_cons_self) hlt hl'
        rw [hvalue, hlength] at hless
        exact absurd hless (Nat.lt_irrefl _)
      · obtain rfl : c = d := Char.toNat_inj.mp heq
        rw [ofDigitChars_head, ofDigitChars_head, hsize] at hvalue
        rw [ih hl' hm' hsize (by omega)]
      · have hless := @value_lt_of_head m l d c (hm d List.mem_cons_self) hgt hm'
        rw [hvalue, hlength] at hless
        exact absurd hless (Nat.lt_irrefl _)

private theorem before_total (hl : ∀ c ∈ l, c.isDigit = true) (hm : ∀ c ∈ m, c.isDigit = true)
    (hne : l ≠ m) : Before l m ∨ Before m l := by
  rcases Nat.lt_trichotomy (Nat.ofDigitChars 10 l 0 * 10 ^ m.length)
    (Nat.ofDigitChars 10 m 0 * 10 ^ l.length) with hlt | heq | hgt
  · exact Or.inl (Or.inl hlt)
  · rcases Nat.lt_trichotomy l.length m.length with hshort | hsame | hlong
    · exact Or.inl (Or.inr ⟨heq, hshort⟩)
    · rw [hsame] at heq
      exact absurd (eq_of_value hl hm hsame
        (Nat.eq_of_mul_eq_mul_right (Nat.pow_pos (by decide)) heq)) hne
    · exact Or.inr (Or.inr ⟨heq.symm, hlong⟩)
  · exact Or.inr (Or.inl hgt)

theorem append_point_lt_iff (hl : ∀ c ∈ l, c.isDigit = true) (hm : ∀ c ∈ m, c.isDigit = true)
    (hne : l ≠ m) : l ++ '.' :: s < m ++ '.' :: t ↔ Before l m := by
  constructor
  · intro hlt
    rcases before_total hl hm hne with h | h
    · exact h
    · exact absurd hlt (List.lt_asymm (append_point_lt_of_before hm hl h))
  · exact append_point_lt_of_before hl hm

private theorem length_padded_mono {w a b : ℕ} (h : a ≤ b) :
    (padded w a).length ≤ (padded w b).length := by
  have hpos : 0 < (Nat.toDigits 10 b).length := List.length_pos_of_ne_nil Nat.toDigits_ne_nil
  have hb : b < 10 ^ (Nat.toDigits 10 b).length :=
    (Nat.length_toDigits_le_iff (by decide) hpos).mp (Nat.le_refl _)
  have ha : (Nat.toDigits 10 a).length ≤ (Nat.toDigits 10 b).length :=
    (Nat.length_toDigits_le_iff (by decide) hpos).mpr (lt_of_le_of_lt h hb)
  simp only [padded, List.length_leftpad]
  omega

/-- Of two integers of at least `w` digits the less comes first as long as it is no more than
the leading digits of the other. -/
theorem padded_before_iff {w a b : ℕ} (hlt : a < b) :
    Before (padded w a) (padded w b) ↔
      a ≤ b / 10 ^ ((padded w b).length - (padded w a).length) := by
  obtain ⟨k, hk⟩ := Nat.exists_eq_add_of_le (length_padded_mono (w := w) hlt.le)
  have hpos : 0 < 10 ^ (padded w a).length := Nat.pow_pos (by decide)
  unfold Before
  rw [ofDigitChars_padded, ofDigitChars_padded, hk, Nat.add_sub_cancel_left,
    Nat.le_div_iff_mul_le (Nat.pow_pos (by decide)), Nat.add_comm, pow_add, ← Nat.mul_assoc]
  constructor
  · rintro (h | ⟨h, -⟩)
    · exact (Nat.lt_of_mul_lt_mul_right h).le
    · exact (Nat.eq_of_mul_eq_mul_right hpos h).le
  · intro h
    rcases Nat.lt_or_eq_of_le h with hless | heq
    · exact Or.inl (Nat.mul_lt_mul_of_pos_right hless hpos)
    · refine Or.inr ⟨by rw [heq], ?_⟩
      rcases Nat.eq_zero_or_pos k with rfl | hk
      · rw [pow_zero, Nat.mul_one] at heq
        omega
      · omega

end Text
