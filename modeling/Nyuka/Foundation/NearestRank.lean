import Mathlib.Order.Bounds.Basic
import Mathlib.Data.List.Basic

/-! Nearest-rank percentiles over a linear order: which sample of a sorted list has a rank, and how
much of the list is not above it. -/
namespace NearestRank

section Ranks

/-- The rank of a percentage among `n` samples, counted from 1. -/
def rank (p n : ℕ) : ℕ := max ((p * n + 99) / 100) 1

variable {p q n : ℕ}

@[simp] theorem rank_pos : 0 < rank p n := lt_of_lt_of_le Nat.one_pos (le_max_right _ _)

theorem rank_mono (h : p ≤ q) : rank p n ≤ rank q n := by
  have := Nat.mul_le_mul_right n h
  unfold rank
  omega

/-- A rank is reached where so much of the whole is. -/
theorem rank_le_iff {c : ℕ} (hc : 0 < c) : rank p n ≤ c ↔ p * n ≤ 100 * c := by
  unfold rank
  omega

theorem rank_le (hp : p ≤ 100) (hn : 0 < n) : rank p n ≤ n :=
  (rank_le_iff hn).mpr (Nat.mul_le_mul_right n hp)

end Ranks

section Samples
variable {α : Type*} [LinearOrder α] {l : List α} {p : ℕ} {x : α}

/-- At least that percentage of the samples are not above `x`. -/
def Covers (p : ℕ) (l : List α) (x : α) : Prop :=
  p * l.length ≤ 100 * l.countP fun y => decide (y ≤ x)

/-- In a sorted list the samples not above `x` are in front. -/
theorem lt_countP_iff (hsorted : l.Pairwise (· ≤ ·)) {k : ℕ} (hk : k < l.length) :
    k < l.countP (fun y => decide (y ≤ x)) ↔ l[k] ≤ x := by
  induction l generalizing k with
  | nil => exact absurd hk (Nat.not_lt_zero _)
  | cons a l ih =>
    obtain ⟨hhead, htail⟩ := List.pairwise_cons.mp hsorted
    by_cases ha : a ≤ x
    · have hcount : (a :: l).countP (fun y => decide (y ≤ x)) =
          l.countP (fun y => decide (y ≤ x)) + 1 := List.countP_cons_of_pos (decide_eq_true ha)
      rw [hcount]
      cases k with
      | zero => exact iff_of_true (Nat.succ_pos _) ha
      | succ k => exact Nat.succ_lt_succ_iff.trans (ih htail (Nat.lt_of_succ_lt_succ hk))
    · have habove : ∀ y ∈ a :: l, ¬ y ≤ x := fun y hy hyx =>
        ha (((List.mem_cons.mp hy).elim (fun h => h ▸ le_refl _) (hhead y)).trans hyx)
      have hnone : (a :: l).countP (fun y => decide (y ≤ x)) = 0 :=
        List.countP_eq_zero.mpr fun y hy => by simpa using habove y hy
      rw [hnone]
      exact iff_of_false (Nat.not_lt_zero _) (habove _ (List.getElem_mem hk))

/-- A sample covers a percentage exactly when it is not below the one with its rank. -/
theorem covers_iff (hsorted : l.Pairwise (· ≤ ·)) (hrank : rank p l.length - 1 < l.length)
    (hx : x ∈ l) : Covers p l x ↔ l[rank p l.length - 1] ≤ x := by
  have hpos : 0 < l.countP fun y => decide (y ≤ x) :=
    List.countP_pos_iff.mpr ⟨x, hx, decide_eq_true (le_refl x)⟩
  have hfirst := @rank_pos p l.length
  rw [Covers, ← rank_le_iff hpos, ← lt_countP_iff hsorted hrank]
  omega

/-- The sample with the rank is the least that covers the percentage. -/
theorem isLeast_covers (hsorted : l.Pairwise (· ≤ ·)) (hrank : rank p l.length - 1 < l.length) :
    IsLeast {x | x ∈ l ∧ Covers p l x} l[rank p l.length - 1] :=
  ⟨⟨List.getElem_mem hrank, (covers_iff hsorted hrank (List.getElem_mem hrank)).mpr (le_refl _)⟩,
    fun _ hx => (covers_iff hsorted hrank hx.1).mp hx.2⟩

theorem getElem_le_getElem (hsorted : l.Pairwise (· ≤ ·)) {i j : ℕ} (hij : i ≤ j)
    (hj : j < l.length) : l[i] ≤ l[j] := by
  rcases Nat.lt_or_eq_of_le hij with h | rfl
  · exact List.pairwise_iff_getElem.mp hsorted i j (by omega) hj h
  · exact le_refl _

end Samples

end NearestRank
