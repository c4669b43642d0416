import Mathlib.Data.List.Basic
import Mathlib.Tactic.TypeStar

/-! Lines of a text that comes in pieces. A line ends with a separator; what follows the last one
waits for more. However the text is cut into pieces, the lines are the same. -/
namespace Lines

variable {α : Type*} [DecidableEq α] {sep : α}

/-- The lines of a text, and what follows the last separator. -/
def split (sep : α) : List α → List (List α) × List α
  | [] => ([], [])
  | a :: text =>
    if a = sep then ([] :: (split sep text).1, (split sep text).2)
    else match (split sep text).1 with
      | [] => ([], a :: (split sep text).2)
      | line :: lines => ((a :: line) :: lines, (split sep text).2)

/-- A text without a separator waits for more. -/
theorem split_of_notMem {text : List α} (h : sep ∉ text) : split sep text = ([], text) := by
  induction text with
  | nil => rfl
  | cons a text ih =>
    obtain ⟨hne, htext⟩ := not_or.mp (List.mem_cons.not.mp h)
    rw [split, if_neg (Ne.symm hne), ih htext]

/-- The first separator ends the first line. -/
theorem split_line_append {line : List α} (h : sep ∉ line) (text : List α) :
    split sep (line ++ sep :: text) = (line :: (split sep text).1, (split sep text).2) := by
  induction line with
  | nil => rw [List.nil_append, split, if_pos rfl]
  | cons a line ih =>
    obtain ⟨hne, hline⟩ := not_or.mp (List.mem_cons.not.mp h)
    rw [List.cons_append, split, if_neg (Ne.symm hne), ih hline]

/-- Texts are built from a rest without separators by putting lines in front. -/
theorem lines_induction (sep : α) {P : List α → Prop} (rest : ∀ text, sep ∉ text → P text)
    (line : ∀ line text, sep ∉ line → P text → P (line ++ sep :: text)) (text : List α) :
    P text := by
  induction hn : text.length using Nat.strongRecOn generalizing text with
  | ind n ih =>
    by_cases hmem : sep ∈ text
    · obtain ⟨front, behind, rfl, hfront⟩ := List.eq_append_cons_of_mem hmem
      refine line front behind hfront (ih behind.length ?_ behind rfl)
      simp only [List.length_append, List.length_cons] at hn
      omega
    · exact rest text hmem

/-- More text goes on behind what waits. -/
theorem split_append (text more : List α) :
    split sep (text ++ more) =
      ((split sep text).1 ++ (split sep ((split sep text).2 ++ more)).1,
        (split sep ((split sep text).2 ++ more)).2) := by
  induction text using lines_induction sep with
  | rest text h => rw [split_of_notMem h, List.nil_append]
  | line line text h ih =>
    rw [List.append_assoc, List.cons_append, split_line_append h, split_line_append h, ih,
      List.cons_append]

/-- Lines that are written out are read back. -/
theorem split_lines {lines : List (List α)} (h : ∀ line ∈ lines, sep ∉ line) {rest : List α}
    (hrest : sep ∉ rest) :
    split sep ((lines.flatMap fun line => line ++ [sep]) ++ rest) = (lines, rest) := by
  induction lines with
  | nil => exact split_of_notMem hrest
  | cons line lines ih =>
    rw [List.flatMap_cons, List.append_assoc, List.append_assoc, List.singleton_append,
      split_line_append (h line List.mem_cons_self),
      ih fun line hline => h line (List.mem_cons_of_mem _ hline)]

end Lines
