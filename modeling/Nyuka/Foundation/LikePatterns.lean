import Mathlib.Data.List.Forall2
import Mathlib.Data.List.Infix
import Mathlib.Tactic.TypeStar

/-! Patterns with wildcards and an escape character, as `LIKE` reads them, over any alphabet. -/
namespace Like
variable {α β : Type*}

/-- The characters a pattern gives meaning to. -/
structure Wildcards (α : Type*) where
  any : α
  one : α
  escape : α
  any_ne_one : any ≠ one
  any_ne_escape : any ≠ escape
  one_ne_escape : one ≠ escape

/-- Any text, any one character, or the character itself. -/
inductive Item (α : Type*) where
  | any
  | one
  | lit (c : α)

def Wildcards.IsSpecial (w : Wildcards α) (c : α) : Prop := c = w.escape ∨ c = w.any ∨ c = w.one

section Patterns
variable [DecidableEq α] (w : Wildcards α)

instance (c : α) : Decidable (w.IsSpecial c) := by
  unfold Wildcards.IsSpecial
  infer_instance

/-- What a character stands for that is not escaped. -/
def Wildcards.item (c : α) : Item α :=
  if c = w.any then .any else if c = w.one then .one else .lit c

/-- The items of a pattern. The character behind an escape stands for itself; an escape at the end
is an error. -/
def items : List α → Option (List (Item α))
  | [] => some []
  | [c] => if c = w.escape then none else some [w.item c]
  | c :: d :: p =>
    if c = w.escape then (items p).map fun is => .lit d :: is
    else (items (d :: p)).map fun is => w.item c :: is

/-- A text with an escape in front of each character that has a meaning. -/
def escape (s : List α) : List α := s.flatMap fun c => if w.IsSpecial c then [w.escape, c] else [c]

theorem item_of_not_special {c : α} (h : ¬ w.IsSpecial c) : w.item c = .lit c := by
  unfold Wildcards.IsSpecial at h
  push Not at h
  rw [Wildcards.item, if_neg h.2.1, if_neg h.2.2]

theorem items_cons {c : α} (hc : c ≠ w.escape) (p : List α) :
    items w (c :: p) = (items w p).map fun is => w.item c :: is := by
  cases p with
  | nil => simp [items, hc]
  | cons d p => rw [items, if_neg hc]

theorem items_escaped (c : α) (p : List α) :
    items w (w.escape :: c :: p) = (items w p).map fun is => .lit c :: is := by
  rw [items, if_pos rfl]

/-- An escaped text stands for its characters. -/
theorem items_escape_append (s p : List α) :
    items w (escape w s ++ p) = (items w p).map fun is => s.map Item.lit ++ is := by
  induction s with
  | nil => simp [escape]
  | cons c s ih =>
    have hcons : escape w (c :: s) ++ p =
        (if w.IsSpecial c then [w.escape, c] else [c]) ++ (escape w s ++ p) := by
      simp [escape]
    rw [hcons]
    by_cases hc : w.IsSpecial c
    · rw [if_pos hc, List.cons_append, List.singleton_append, items_escaped, ih, Option.map_map]
      rfl
    · rw [if_neg hc, List.singleton_append, items_cons w fun h => hc (.inl h), ih, Option.map_map,
        item_of_not_special w hc]
      rfl

end Patterns

section Matching
variable (same : α → β → Prop)

/-- A text matches items, its characters the literal ones up to `same`. -/
def Matches : List (Item α) → List β → Prop
  | [], t => t = []
  | .any :: p, t => ∃ rest ∈ t.tails, Matches p rest
  | .one :: _, [] => False
  | .one :: p, _ :: t => Matches p t
  | .lit _ :: _, [] => False
  | .lit c :: p, d :: t => same c d ∧ Matches p t

def decMatches [∀ c d, Decidable (same c d)] : ∀ p t, Decidable (Matches same p t)
  | [], t => decidable_of_iff (t.isEmpty = true) List.isEmpty_iff
  | .any :: p, t =>
    have := decMatches p
    inferInstanceAs (Decidable (∃ rest ∈ t.tails, Matches same p rest))
  | .one :: _, [] => .isFalse id
  | .one :: p, _ :: t => decMatches p t
  | .lit _ :: _, [] => .isFalse id
  | .lit c :: p, d :: t =>
    have := decMatches p t
    inferInstanceAs (Decidable (same c d ∧ Matches same p t))

instance [∀ c d, Decidable (same c d)] (p : List (Item α)) (t : List β) :
    Decidable (Matches same p t) := decMatches same p t

variable {same}

@[simp] theorem matches_any (t : List β) : Matches same [.any] t :=
  ⟨[], (List.mem_tails _ _).mpr t.nil_suffix, rfl⟩

/-- Literals take a text of their own in front of what the rest matches. -/
theorem matches_lits_append {s : List α} {p : List (Item α)} {t : List β} :
    Matches same (s.map Item.lit ++ p) t ↔
      ∃ front rest, t = front ++ rest ∧ List.Forall₂ same s front ∧ Matches same p rest := by
  induction s generalizing t with
  | nil =>
    constructor
    · exact fun h => ⟨[], t, rfl, .nil, h⟩
    · rintro ⟨front, rest, rfl, hfront, h⟩
      obtain rfl := List.forall₂_nil_left_iff.mp hfront
      exact h
  | cons c s ih =>
    cases t with
    | nil =>
      refine iff_of_false id ?_
      rintro ⟨front, rest, ht, hfront, -⟩
      obtain ⟨rfl, -⟩ := List.append_eq_nil_iff.mp ht.symm
      cases hfront
    | cons d t =>
      change same c d ∧ Matches same (s.map Item.lit ++ p) t ↔ _
      rw [ih]
      constructor
      · rintro ⟨hcd, front, rest, rfl, hfront, h⟩
        exact ⟨d :: front, rest, rfl, .cons hcd hfront, h⟩
      · rintro ⟨front, rest, ht, hfront, h⟩
        cases hfront with
        | cons hcd hfront =>
          obtain ⟨rfl, rfl⟩ := List.cons.inj ht
          exact ⟨hcd, _, rest, rfl, hfront, h⟩

/-- Literals between wildcards match the texts that contain them. -/
theorem matches_between {s : List α} {t : List β} :
    Matches same (.any :: (s.map Item.lit ++ [.any])) t ↔
      ∃ part, part <:+: t ∧ List.Forall₂ same s part := by
  rw [Matches]
  constructor
  · rintro ⟨rest, hrest, h⟩
    obtain ⟨part, last, rfl, hpart, -⟩ := matches_lits_append.mp h
    obtain ⟨front, rfl⟩ := (List.mem_tails _ _).mp hrest
    exact ⟨part, ⟨front, last, by simp⟩, hpart⟩
  · rintro ⟨part, ⟨front, last, rfl⟩, hpart⟩
    refine ⟨part ++ last, (List.mem_tails _ _).mpr ⟨front, by simp⟩, ?_⟩
    exact matches_lits_append.mpr ⟨part, last, rfl, hpart, matches_any last⟩

end Matching

section Reading
variable [DecidableEq α] (w : Wildcards α)

/-- The text matches the pattern, if the pattern is one. -/
def Likes (same : α → β → Prop) (pattern : List α) (t : List β) : Prop :=
  ∃ is ∈ items w pattern, Matches same is t

instance (same : α → β → Prop) [∀ c d, Decidable (same c d)] (pattern : List α) (t : List β) :
    Decidable (Likes w same pattern t) :=
  decidable_of_iff ((items w pattern).any (fun is => decide (Matches same is t)) = true) (by
    unfold Likes
    cases items w pattern <;> simp)

private theorem items_between (s : List α) :
    items w (w.any :: (escape w s ++ [w.any])) = some (.any :: (s.map Item.lit ++ [.any])) := by
  have hlast : items w [w.any] = some [.any] := by
    simp [items, Wildcards.item, w.any_ne_escape]
  rw [items_cons w w.any_ne_escape, items_escape_append, hlast]
  simp [Wildcards.item]

/-- An escaped text between wildcards is looked for as it stands. -/
theorem likes_between {same : α → β → Prop} {s : List α} {t : List β} :
    Likes w same (w.any :: (escape w s ++ [w.any])) t ↔
      ∃ part, part <:+: t ∧ List.Forall₂ same s part := by
  rw [Likes, items_between]
  constructor
  · rintro ⟨is, his, h⟩
    obtain rfl := Option.some.inj his
    exact matches_between.mp h
  · exact fun h => ⟨_, rfl, matches_between.mpr h⟩

/-- What the characters are folded to before they are compared. The ones with a meaning are left
alone, and nothing else becomes one of them. -/
structure Folding where
  fold : α → List α
  special : ∀ c, w.IsSpecial c → fold c = [c]
  plain : ∀ c, ¬ w.IsSpecial c → ∀ d ∈ fold c, ¬ w.IsSpecial d

def Folding.apply {w : Wildcards α} (F : Folding w) (s : List α) : List α := s.flatMap F.fold

/-- The pattern and the text are folded, then matched. -/
def Folding.Likes {w : Wildcards α} (F : Folding w) (pattern t : List α) : Prop :=
  Like.Likes w Eq (F.apply pattern) (F.apply t)

instance {w : Wildcards α} (F : Folding w) (pattern t : List α) :
    Decidable (F.Likes pattern t) := inferInstanceAs (Decidable (Like.Likes _ _ _ _))

variable {w} (F : Folding w)

private theorem escape_plain {s : List α} (h : ∀ c ∈ s, ¬ w.IsSpecial c) : escape w s = s := by
  induction s with
  | nil => rfl
  | cons c s ih =>
    have htail := ih fun d hd => h d (List.mem_cons_of_mem _ hd)
    unfold escape at htail ⊢
    rw [List.flatMap_cons, if_neg (h c List.mem_cons_self), htail]
    rfl

/-- A text may be folded before it is escaped or after. -/
@[simp]
theorem Folding.apply_escape (s : List α) : F.apply (escape w s) = escape w (F.apply s) := by
  have hflat : F.apply (escape w s) =
      s.flatMap fun c => F.apply (if w.IsSpecial c then [w.escape, c] else [c]) :=
    List.flatMap_assoc
  have hflat' : escape w (F.apply s) = s.flatMap fun c => escape w (F.fold c) := List.flatMap_assoc
  rw [hflat, hflat']
  refine List.flatMap_congr fun c _ => ?_
  by_cases hc : w.IsSpecial c
  · simp [Folding.apply, F.special c hc, F.special w.escape (.inl rfl), escape, hc]
  · rw [if_neg hc, escape_plain (F.plain c hc)]
    simp [Folding.apply]

theorem Folding.likes_between {s t : List α} :
    F.Likes (w.any :: (escape w s ++ [w.any])) t ↔ F.apply s <:+: F.apply t := by
  have hpattern : F.apply (w.any :: (escape w s ++ [w.any])) =
      w.any :: (escape w (F.apply s) ++ [w.any]) := by
    rw [← F.apply_escape]
    simp [Folding.apply, F.special w.any (.inr (.inl rfl))]
  rw [Folding.Likes, hpattern, Like.likes_between]
  simp

/-- Characters are compared as they are. -/
def Folding.exact : Folding w where
  fold c := [c]
  special _ _ := rfl
  plain c hc d hd := by
    rw [List.mem_singleton] at hd
    exact hd ▸ hc

end Reading

end Like
