import Mathlib.Data.List.Basic
import Mathlib.Data.Nat.Init

/-! Patterns of letters and quoted text, as Unicode has them for dates: a run of one letter is a
field, an apostrophe opens or closes a quoted text, and two of them are one. -/
namespace UnicodePatterns

def apostrophe : Char := Char.ofNat 39

/-- Letters are fields outside of quotes. -/
def isLetter (c : Char) : Bool :=
  (65 ≤ c.toNat && c.toNat ≤ 90) || (97 ≤ c.toNat && c.toNat ≤ 122)

inductive Item where
  | field (letter : Char) (count : ℕ)
  | literal (c : Char)
deriving DecidableEq, Repr

/-- One more letter in front. -/
def addLetter (c : Char) : List Item → List Item
  | .field d n :: its => if d = c then .field c (n + 1) :: its else .field c 1 :: .field d n :: its
  | its => .field c 1 :: its

/-- The items of a pattern from inside or outside of a quoted text on, perhaps behind an apostrophe
of which it is open yet whether another one follows. -/
def items (inside pending : Bool) : List Char → Option (List Item)
  | [] => if inside != pending then none else some []
  | c :: s =>
    if c = apostrophe then
      if pending then (items inside false s).map fun its => .literal apostrophe :: its
      else items inside true s
    else if !(inside != pending) && isLetter c then (items false false s).map (addLetter c)
    else (items (inside != pending) false s).map fun its => .literal c :: its

/-- Whether a quoted text goes on behind an apostrophe that it has two of. -/
def goesOn (inside pending escaped : Bool) : List Char → Bool
  | [] => false
  | c :: s =>
    if c = apostrophe then
      if pending then goesOn inside false inside s else goesOn inside true false s
    else ((inside != pending) && !pending && escaped) || goesOn (inside != pending) false false s

/-- A pattern by its pieces. -/
inductive Pieces : List Char → Prop
  | nil : Pieces []
  | escaped {s : List Char} : Pieces s → Pieces (apostrophe :: apostrophe :: s)
  | quoted {t s : List Char} : t ≠ [] → apostrophe ∉ t → Pieces s →
      Pieces (apostrophe :: (t ++ apostrophe :: s))
  | opened {t : List Char} : apostrophe ∉ t → Pieces (apostrophe :: t)
  | run {c : Char} {n : ℕ} {s : List Char} : isLetter c = true → 0 < n → s.head? ≠ some c →
      Pieces s → Pieces (List.replicate n c ++ s)
  | other {c : Char} {s : List Char} : isLetter c = false → c ≠ apostrophe → Pieces s →
      Pieces (c :: s)

section Splitting

/-- A text that begins with a letter, split behind its run. -/
theorem exists_run (c : Char) (s : List Char) :
    ∃ n rest, s = List.replicate n c ++ rest ∧ rest.head? ≠ some c := by
  induction s with
  | nil => exact ⟨0, [], rfl, by simp⟩
  | cons d s ih =>
    by_cases hd : d = c
    · obtain ⟨n, rest, rfl, hrest⟩ := ih
      exact ⟨n + 1, rest, by rw [hd, List.replicate_succ, List.cons_append], hrest⟩
    · exact ⟨0, d :: s, rfl, by simpa using hd⟩

theorem pieces (s : List Char) : Pieces s := by
  induction hlength : s.length using Nat.strong_induction_on generalizing s with
  | _ n ih =>
    cases s with
    | nil => exact .nil
    | cons c s =>
      subst hlength
      by_cases hc : c = apostrophe
      · subst hc
        by_cases hmem : apostrophe ∈ s
        · obtain ⟨t, rest, rfl, ht⟩ := List.eq_append_cons_of_mem hmem
          cases t with
          | nil =>
            have hshort : rest.length < (apostrophe :: ([] ++ apostrophe :: rest)).length := by
              simp only [List.length_cons, List.nil_append]
              omega
            exact .escaped (ih _ hshort rest rfl)
          | cons d t =>
            have hshort :
                rest.length < (apostrophe :: (d :: t ++ apostrophe :: rest)).length := by
              simp only [List.length_cons, List.length_append]
              omega
            exact .quoted (by simp) ht (ih _ hshort rest rfl)
        · exact .opened hmem
      · cases hletter : isLetter c with
        | false => exact .other hletter hc (ih _ (by simp) s rfl)
        | true =>
          obtain ⟨n, rest, rfl, hrest⟩ := exists_run c s
          have hshort : rest.length < (c :: (List.replicate n c ++ rest)).length := by
            simp only [List.length_cons, List.length_append]
            omega
          have hpiece := ih rest.length hshort rest rfl
          exact .run (n := n + 1) hletter n.succ_pos hrest hpiece

end Splitting

section Reading
variable {s t : List Char} {c : Char}

theorem of_notMem_cons {d : Char} (h : c ∉ d :: s) : d ≠ c ∧ c ∉ s :=
  ⟨fun heq => h (heq ▸ List.mem_cons_self), fun hmem => h (List.mem_cons_of_mem d hmem)⟩

private theorem addLetter_head {d : Char} {n : ℕ} {its rest : List Item}
    (h : addLetter d its = .field c n :: rest) : c = d := by
  unfold addLetter at h
  split at h
  · split at h
    · exact (Item.field.inj (List.cons.inj h).1).1.symm
    · exact (Item.field.inj (List.cons.inj h).1).1.symm
  · exact (Item.field.inj (List.cons.inj h).1).1.symm

/-- The first item is a field only where its letter comes first. -/
theorem head_of_field {n : ℕ} {its : List Item}
    (h : items false false s = some (.field c n :: its)) : s.head? = some c := by
  cases s with
  | nil => simp [items] at h
  | cons d s =>
    by_cases hd : d = apostrophe
    · cases s with
      | nil => simp [items, hd] at h
      | cons e s =>
        by_cases he : e = apostrophe
        · simp [items, hd, he] at h
        · simp [items, hd, he] at h
    · cases hletter : isLetter d with
      | false => simp [items, hd, hletter] at h
      | true =>
        simp only [items, hd, hletter, if_false, bne_self_eq_false, Bool.not_false, Bool.and_self,
          if_true, Option.map_eq_some_iff] at h
        obtain ⟨its', -, heq⟩ := h
        rw [addLetter_head heq, List.head?_cons]

theorem items_escaped (closed : Bool) (s : List Char) :
    items closed closed (apostrophe :: apostrophe :: s) =
      (items closed closed s).map fun its => .literal apostrophe :: its := by
  cases closed with
  | false => simp [items]
  | true => simp [items]

theorem items_text {d : Char} (hd : d ≠ apostrophe) (s : List Char) :
    items true false (d :: s) = (items true false s).map fun its => .literal d :: its := by
  simp [items, hd]

theorem items_inside (ht : apostrophe ∉ t) (s : List Char) :
    items true false (t ++ apostrophe :: s) =
      (items true true s).map fun its => t.map .literal ++ its := by
  induction t with
  | nil => simp [items]
  | cons d t ih =>
    obtain ⟨hd, ht⟩ := of_notMem_cons ht
    rw [List.cons_append, items_text hd, ih ht, Option.map_map]
    rfl

theorem items_inside_opened (ht : apostrophe ∉ t) : items true false t = none := by
  induction t with
  | nil => rfl
  | cons d t ih =>
    obtain ⟨hd, ht⟩ := of_notMem_cons ht
    rw [items_text hd, ih ht]
    rfl

/-- Behind a quoted text its end and the beginning of another one are two apostrophes. -/
theorem items_quoted (closed : Bool) (hne : t ≠ []) (ht : apostrophe ∉ t) (s : List Char) :
    items closed closed (apostrophe :: (t ++ apostrophe :: s)) =
      (items true true s).map fun its =>
        (if closed then [.literal apostrophe] else []) ++ t.map .literal ++ its := by
  cases closed with
  | false =>
    obtain ⟨d, t, rfl⟩ := List.exists_cons_of_ne_nil hne
    obtain ⟨hd, ht⟩ := of_notMem_cons ht
    simp [items, hd, items_inside ht, Function.comp_def]
  | true => simp [items, items_inside ht, Function.comp_def]

theorem items_opened (closed : Bool) (ht : apostrophe ∉ t) :
    items closed closed (apostrophe :: t) = none := by
  cases closed with
  | false =>
    cases t with
    | nil => rfl
    | cons d t =>
      obtain ⟨hd, ht⟩ := of_notMem_cons ht
      simp [items, hd, items_inside_opened ht]
  | true => simp [items, items_inside_opened ht]

theorem items_closed (closed : Bool) (hc : c ≠ apostrophe) (s : List Char) :
    items closed closed (c :: s) = items false false (c :: s) := by
  simp [items, hc]

theorem items_other (hletter : isLetter c = false) (hc : c ≠ apostrophe) (s : List Char) :
    items false false (c :: s) = (items false false s).map fun its => .literal c :: its := by
  simp [items, hc, hletter]

theorem notApostrophe_of_letter (h : isLetter c = true) : c ≠ apostrophe := by
  rintro rfl
  exact absurd h (by decide)

theorem items_run {n : ℕ} (hletter : isLetter c = true) (hn : 0 < n) (hs : s.head? ≠ some c) :
    items false false (List.replicate n c ++ s) =
      (items false false s).map fun its => .field c n :: its := by
  have hc := notApostrophe_of_letter hletter
  have hcons (s : List Char) : items false false (c :: s) =
      (items false false s).map (addLetter c) := by
    simp [items, hc, hletter]
  obtain ⟨n, rfl⟩ := Nat.exists_eq_succ_of_ne_zero (Nat.pos_iff_ne_zero.mp hn)
  clear hn
  induction n with
  | zero =>
    rw [List.replicate_one, List.singleton_append, hcons]
    cases hrest : items false false s with
    | none => rfl
    | some its =>
      -- What follows is no field of the same letter.
      rw [Option.map_some, Option.map_some]
      unfold addLetter
      split
      · next d m rest =>
        rw [if_neg]
        rintro rfl
        exact hs (head_of_field hrest)
      · rfl
  | succ n ih =>
    rw [List.replicate_succ, List.cons_append, hcons, ih, Option.map_map]
    congr 1
    funext its
    simp [addLetter]

theorem goesOn_escaped (closed : Bool) (s : List Char) :
    goesOn closed closed false (apostrophe :: apostrophe :: s) = goesOn closed closed false s := by
  cases closed with
  | false => simp [goesOn]
  | true => simp [goesOn]

private theorem goesOn_inside (ht : apostrophe ∉ t) (s : List Char) :
    goesOn true false false (t ++ apostrophe :: s) = goesOn true true false s := by
  induction t with
  | nil => simp [goesOn]
  | cons d t ih =>
    obtain ⟨hd, ht⟩ := of_notMem_cons ht
    rw [List.cons_append, goesOn, if_neg hd]
    simp [ih ht]

theorem goesOn_quoted (closed : Bool) (hne : t ≠ []) (ht : apostrophe ∉ t) (s : List Char) :
    goesOn closed closed false (apostrophe :: (t ++ apostrophe :: s)) =
      (closed || goesOn true true false s) := by
  obtain ⟨d, t, rfl⟩ := List.exists_cons_of_ne_nil hne
  obtain ⟨hd, ht⟩ := of_notMem_cons ht
  cases closed with
  | false => simp [goesOn, hd, goesOn_inside ht]
  | true => simp [goesOn, hd]

theorem goesOn_closed (closed : Bool) (hc : c ≠ apostrophe) (s : List Char) :
    goesOn closed closed false (c :: s) = goesOn false false false s := by
  simp [goesOn, hc]

theorem goesOn_run {n : ℕ} (closed : Bool) (hletter : isLetter c = true) (hn : 0 < n)
    (s : List Char) :
    goesOn closed closed false (List.replicate n c ++ s) = goesOn false false false s := by
  have hc := notApostrophe_of_letter hletter
  obtain ⟨n, rfl⟩ := Nat.exists_eq_succ_of_ne_zero (Nat.pos_iff_ne_zero.mp hn)
  clear hn
  induction n generalizing closed with
  | zero => exact goesOn_closed closed hc s
  | succ n ih =>
    rw [List.replicate_succ, List.cons_append, goesOn_closed closed hc]
    exact ih false

end Reading

end UnicodePatterns
