import Mathlib.Data.List.Pairwise
import Mathlib.Data.Fintype.Basic
import Mathlib.Data.Fintype.Defs

/-! Relational tables with unique indexes. A table carries the proof that its indexes are
unique, so a lookup by an index finds at most one row, and every statement keeps that. -/
namespace Tables

/-- No two rows share a value of the index. A row without a value is exempt. -/
def UniqueOn {ρ κ : Type*} (index : ρ → Option κ) (rows : List ρ) : Prop :=
  rows.Pairwise fun a b => ∀ k, index a = some k → index b ≠ some k

section UniqueOn
variable {ρ κ : Type*} {index : ρ → Option κ} {rows : List ρ}

theorem UniqueOn.eq_of_mem (h : UniqueOn index rows) {a b : ρ} (ha : a ∈ rows) (hb : b ∈ rows)
    {k : κ} (hak : index a = some k) (hbk : index b = some k) : a = b := by
  by_contra hab
  have hsymm : Std.Symm fun a b : ρ => ∀ k, index a = some k → index b ≠ some k :=
    ⟨fun a b h k hb ha => h k ha hb⟩
  exact h.forall ha hb hab k hak hbk

theorem UniqueOn.filter (h : UniqueOn index rows) (p : ρ → Bool) :
    UniqueOn index (rows.filter p) := List.Pairwise.filter p h

theorem UniqueOn.map (h : UniqueOn index rows) {f : ρ → ρ} (hf : ∀ r, index (f r) = index r) :
    UniqueOn index (rows.map f) := by
  refine List.pairwise_map.mpr (h.imp ?_)
  intro a b hab k ha hb
  exact hab k (hf a ▸ ha) (hf b ▸ hb)

theorem UniqueOn.of_nodup {key : ρ → κ} (h : (rows.map key).Nodup) :
    UniqueOn (fun r => some (key r)) rows := by
  refine (List.pairwise_map.mp h).imp fun {a b} hne k ha hb => hne ?_
  exact Option.some.inj (ha.trans hb.symm)

end UniqueOn

variable {ρ ι : Type*} {κ : ι → Type*}

/-- Rows in no particular order, with the proof that every index is unique. -/
structure Table (index : (i : ι) → ρ → Option (κ i)) where
  rows : List ρ
  unique : ∀ i, UniqueOn (index i) rows

namespace Table
variable {index : (i : ι) → ρ → Option (κ i)}

def empty : Table index := ⟨[], fun _ => List.Pairwise.nil⟩

/-- No row of the table holds an index value of the new row. -/
def Free (t : Table index) (row : ρ) : Prop :=
  ∀ i, ∀ r ∈ t.rows, index i row = none ∨ index i r ≠ index i row

instance [Fintype ι] [∀ i, DecidableEq (κ i)] (t : Table index) (row : ρ) :
    Decidable (t.Free row) := by unfold Free; infer_instance

/-- `INSERT` of one row whose index values are all unused. -/
def insert (t : Table index) (row : ρ) (h : t.Free row) : Table index where
  rows := row :: t.rows
  unique i := by
    refine List.Pairwise.cons (fun r hr k hk => ?_) (t.unique i)
    rcases h i r hr with hn | hn
    · simp [hn] at hk
    · rwa [hk] at hn

/-- `UPDATE .. SET f WHERE p`, for assignments that touch no index. -/
def updateWhere (t : Table index) (p : ρ → Bool) (f : ρ → ρ)
    (hf : ∀ i r, index i (f r) = index i r) : Table index where
  rows := t.rows.map fun r => if p r then f r else r
  unique i := (t.unique i).map fun r => by split <;> simp [hf]

/-- `DELETE .. WHERE p`. -/
def deleteWhere (t : Table index) (p : ρ → Bool) : Table index where
  rows := t.rows.filter fun r => !p r
  unique i := (t.unique i).filter _

/-- The row that holds the value of a unique index, if there is one. -/
def lookup (t : Table index) (i : ι) [DecidableEq (κ i)] (k : κ i) : Option ρ :=
  t.rows.find? fun r => decide (index i r = some k)

@[simp] theorem rows_empty : (empty : Table index).rows = [] := rfl

@[simp] theorem mem_insert {t : Table index} {row r : ρ} {h : t.Free row} :
    r ∈ (t.insert row h).rows ↔ r = row ∨ r ∈ t.rows := List.mem_cons

@[simp] theorem mem_deleteWhere {t : Table index} {p : ρ → Bool} {r : ρ} :
    r ∈ (t.deleteWhere p).rows ↔ r ∈ t.rows ∧ p r = false := by
  simp [deleteWhere]

theorem mem_updateWhere {t : Table index} {p : ρ → Bool} {f : ρ → ρ}
    {hf : ∀ i r, index i (f r) = index i r} {r' : ρ} :
    r' ∈ (t.updateWhere p f hf).rows ↔ ∃ r ∈ t.rows, (if p r then f r else r) = r' := by
  simp [updateWhere]

theorem lookup_eq_some_iff {t : Table index} {i : ι} [DecidableEq (κ i)] {k : κ i} {r : ρ} :
    t.lookup i k = some r ↔ r ∈ t.rows ∧ index i r = some k := by
  constructor
  · intro h
    exact ⟨List.mem_of_find?_eq_some h, by simpa using List.find?_some h⟩
  · rintro ⟨hr, hk⟩
    cases h : t.lookup i k with
    | none =>
      have := List.find?_eq_none.mp h r hr
      simp [hk] at this
    | some r' =>
      have hr' := List.mem_of_find?_eq_some h
      have hk' : index i r' = some k := by simpa using List.find?_some h
      rw [(t.unique i).eq_of_mem hr hr' hk hk']

theorem lookup_eq_none_iff {t : Table index} {i : ι} [DecidableEq (κ i)] {k : κ i} :
    t.lookup i k = none ↔ ∀ r ∈ t.rows, index i r ≠ some k := by
  simp [lookup, List.find?_eq_none]

section Keyed
variable {κ : Type*} {key : ρ → κ}

/-- The index of a table with a primary key and no other unique index. -/
def keyedBy (key : ρ → κ) : Unit → ρ → Option κ := fun _ r => some (key r)

theorem key_inj {t : Table (keyedBy key)} {a b : ρ} (ha : a ∈ t.rows) (hb : b ∈ t.rows)
    (h : key a = key b) : a = b :=
  (t.unique ()).eq_of_mem ha hb (k := key a) rfl (congrArg some h.symm)

theorem free_iff {t : Table (keyedBy key)} {row : ρ} :
    t.Free row ↔ ∀ r ∈ t.rows, key r ≠ key row := by
  constructor
  · intro h r hr
    rcases h () r hr with hnone | hne
    · cases hnone
    · exact fun hkey => hne (congrArg some hkey)
  · exact fun h _ r hr => .inr fun hkey => h r hr (Option.some.inj hkey)

variable [DecidableEq κ]

private theorem free_deleteWhere (t : Table (keyedBy key)) (row : ρ) :
    (t.deleteWhere fun r => decide (key r = key row)).Free row := by
  intro _ r hr
  have hother := (mem_deleteWhere.mp hr).2
  simp only [decide_eq_false_iff_not] at hother
  exact Or.inr fun h => hother (Option.some.inj h)

/-- `INSERT .. ON CONFLICT (key) DO UPDATE` of every other column. -/
def upsert (t : Table (keyedBy key)) (row : ρ) : Table (keyedBy key) :=
  (t.deleteWhere fun r => decide (key r = key row)).insert row (free_deleteWhere t row)

@[simp] theorem mem_upsert {t : Table (keyedBy key)} {row r : ρ} :
    r ∈ (t.upsert row).rows ↔ r = row ∨ r ∈ t.rows ∧ key r ≠ key row := by
  rw [upsert, mem_insert, mem_deleteWhere, decide_eq_false_iff_not]

/-- The row of a key. -/
def get (t : Table (keyedBy key)) (k : κ) : Option ρ := t.rows.find? fun r => decide (key r = k)

theorem get_eq_some_iff {t : Table (keyedBy key)} {k : κ} {r : ρ} :
    t.get k = some r ↔ r ∈ t.rows ∧ key r = k := by
  constructor
  · intro h
    exact ⟨List.mem_of_find?_eq_some h, by simpa using List.find?_some h⟩
  · rintro ⟨hr, hk⟩
    cases h : t.get k with
    | none =>
      have hnone := List.find?_eq_none.mp h r hr
      simp [hk] at hnone
    | some r' =>
      have hr' := List.mem_of_find?_eq_some h
      have hk' : key r' = k := by simpa using List.find?_some h
      rw [key_inj hr hr' (hk.trans hk'.symm)]

theorem get_eq_none_iff {t : Table (keyedBy key)} {k : κ} :
    t.get k = none ↔ ∀ r ∈ t.rows, key r ≠ k := by
  simp [get, List.find?_eq_none]

theorem get_upsert {t : Table (keyedBy key)} {row : ρ} {k : κ} :
    (t.upsert row).get k = if k = key row then some row else t.get k := by
  split
  · next h => exact get_eq_some_iff.mpr ⟨mem_upsert.mpr (.inl rfl), h.symm⟩
  · next h =>
    cases hget : t.get k with
    | none =>
      rw [get_eq_none_iff] at hget ⊢
      intro r hr hk
      rcases mem_upsert.mp hr with rfl | ⟨hr, -⟩
      · exact h hk.symm
      · exact hget r hr hk
    | some r =>
      obtain ⟨hr, hk⟩ := get_eq_some_iff.mp hget
      exact get_eq_some_iff.mpr ⟨mem_upsert.mpr (.inr ⟨hr, by rw [hk]; exact h⟩), hk⟩

end Keyed

section KeyedByTwo
variable {κ₁ κ₂ : Type} {key : ρ → κ₁} {alt : ρ → κ₂}

/-- The key types of a primary key and a further unique index. -/
abbrev TwoKeys (κ₁ κ₂ : Type) : Bool → Type
  | true => κ₁
  | false => κ₂

/-- The indexes of a table with a primary key and one further unique index. -/
def keyedByTwo (key : ρ → κ₁) (alt : ρ → κ₂) : (b : Bool) → ρ → Option (TwoKeys κ₁ κ₂ b)
  | true, r => some (key r)
  | false, r => some (alt r)

instance [DecidableEq κ₁] [DecidableEq κ₂] (b : Bool) : DecidableEq (TwoKeys κ₁ κ₂ b) :=
  match b with
  | true => inferInstanceAs (DecidableEq κ₁)
  | false => inferInstanceAs (DecidableEq κ₂)

theorem primary_inj {t : Table (keyedByTwo key alt)} {a b : ρ} (ha : a ∈ t.rows)
    (hb : b ∈ t.rows) (h : key a = key b) : a = b :=
  (t.unique true).eq_of_mem ha hb (k := key a) rfl (congrArg some h.symm)

end KeyedByTwo

theorem deleteWhere_congr {t : Table index} {p q : ρ → Bool} (h : ∀ r ∈ t.rows, p r = q r) :
    t.deleteWhere p = t.deleteWhere q := by
  have hrows : t.rows.filter (fun r => !p r) = t.rows.filter (fun r => !q r) :=
    List.filter_congr fun r hr => by rw [h r hr]
  simp only [deleteWhere, hrows]

theorem deleteWhere_deleteWhere (t : Table index) (p q : ρ → Bool) :
    (t.deleteWhere p).deleteWhere q = t.deleteWhere fun r => p r || q r := by
  have hrows : (t.rows.filter fun r => !p r).filter (fun r => !q r) =
      t.rows.filter fun r => !(p r || q r) := by
    rw [List.filter_filter]
    exact List.filter_congr fun r _ => by simp [Bool.and_comm]
  simp only [deleteWhere, hrows]

/-- A deletion that finds nothing changes nothing. -/
theorem deleteWhere_eq_self {t : Table index} {p : ρ → Bool} (h : ∀ r ∈ t.rows, p r = false) :
    t.deleteWhere p = t := by
  obtain ⟨rows, unique⟩ := t
  have hrows : rows.filter (fun r => !p r) = rows :=
    List.filter_eq_self.mpr fun r hr => by simp [h r hr]
  simp only [deleteWhere, hrows]

end Table
end Tables
