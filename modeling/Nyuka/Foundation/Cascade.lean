import Mathlib.Logic.Relation
import Mathlib.Data.Set.Basic

/-! Deletion that cascades. Rows refer to the keys of other rows; deleting some of them takes
every row away that leads to one of them, and nothing else. -/
namespace Cascade

variable {ρ κ : Type*} {key : ρ → Option κ} {refers : ρ → Option κ}

/-- The row holds a key that the other row refers to. -/
def Parent (key refers : ρ → Option κ) (child parent : ρ) : Prop :=
  ∃ k, refers child = some k ∧ key parent = some k

/-- Every key a row refers to is held by some row. -/
def Linked (key refers : ρ → Option κ) (rows : Set ρ) : Prop :=
  ∀ r ∈ rows, ∀ k, refers r = some k → ∃ p ∈ rows, key p = some k

/-- The rows that a deletion of `target` takes away: those that lead to it through rows that
are there. -/
inductive Doomed (key refers : ρ → Option κ) (rows target : Set ρ) : ρ → Prop
  | target {r : ρ} : r ∈ rows → r ∈ target → Doomed key refers rows target r
  | child {r p : ρ} : r ∈ rows → Parent key refers r p → Doomed key refers rows target p →
      Doomed key refers rows target r

/-- What a cascading deletion leaves. -/
def remaining (key refers : ρ → Option κ) (rows target : Set ρ) : Set ρ :=
  {r | r ∈ rows ∧ ¬ Doomed key refers rows target r}

variable {rows target : Set ρ}

theorem Doomed.mem {r : ρ} (h : Doomed key refers rows target r) : r ∈ rows := by
  cases h with
  | target hr => exact hr
  | child hr => exact hr

/-- A doomed row is in the target, or its parent is doomed. -/
theorem doomed_iff {r : ρ} (hr : r ∈ rows) : Doomed key refers rows target r ↔
    r ∈ target ∨ ∃ p, Parent key refers r p ∧ Doomed key refers rows target p := by
  constructor
  · intro h
    cases h with
    | target _ ht => exact .inl ht
    | child _ hp hd => exact .inr ⟨_, hp, hd⟩
  · rintro (ht | ⟨p, hp, hd⟩)
    · exact .target hr ht
    · exact .child hr hp hd

/-- The deletion leaves no reference dangling. -/
theorem Linked.remaining (hl : Linked key refers rows) :
    Linked key refers (remaining key refers rows target) := by
  rintro r ⟨hr, halive⟩ k hk
  obtain ⟨p, hp, hpk⟩ := hl r hr k hk
  exact ⟨p, ⟨hp, fun hd => halive (.child hr ⟨k, hk, hpk⟩ hd)⟩, hpk⟩

end Cascade
