import Mathlib.Data.List.TakeDrop
import Mathlib.Logic.Function.Basic

/-! A directory of files. A name stands for a file; whoever has a file open goes on writing to it,
whatever becomes of its name. -/
namespace Directories

abbrev Content := List UInt8

structure Directory (ν : Type*) where
  entry : ν → Option ℕ
  content : ℕ → Content
  /-- Files from this one on are new. -/
  next : ℕ

/-- What a file holds after bytes are written at an offset. A gap is filled with zeros. -/
def overlay (old : Content) (offset : ℕ) (bytes : Content) : Content :=
  (old ++ List.replicate (offset - old.length) 0).take offset ++ bytes ++
    old.drop (offset + bytes.length)

@[simp]
theorem overlay_end (old bytes : Content) : overlay old old.length bytes = old ++ bytes := by
  rw [overlay, Nat.sub_self, List.replicate_zero, List.append_nil, List.take_length,
    List.drop_of_length_le (Nat.le_add_right _ _), List.append_nil]

namespace Directory
variable {ν : Type*} (d : Directory ν)

/-- What is read under a name. -/
def read (n : ν) : Option Content := (d.entry n).map d.content

def writeAt (file offset : ℕ) (bytes : Content) : Directory ν :=
  { d with content := Function.update d.content file (overlay (d.content file) offset bytes) }

/-- Removes all names of a kind. -/
def sweep (drop : ν → Bool) : Directory ν :=
  { d with entry := fun n => if drop n then none else d.entry n }

/-- A file has one name at most. -/
structure Sound : Prop where
  lt_next : ∀ n file, d.entry n = some file → file < d.next
  inj : ∀ n m file, d.entry n = some file → d.entry m = some file → n = m

section Laws
variable {d} {n m : ν} {file offset : ℕ} {bytes : Content} {d' : Directory ν}

theorem Sound.of_entry (h : d.Sound) (hnext : d'.next = d.next)
    (hentry : ∀ n file, d'.entry n = some file → d.entry n = some file) : d'.Sound where
  lt_next n file hn := hnext ▸ h.lt_next n file (hentry n file hn)
  inj n m file hn hm := h.inj n m file (hentry n file hn) (hentry m file hm)

theorem sound_writeAt (h : d.Sound) : (d.writeAt file offset bytes).Sound :=
  h.of_entry rfl fun _ _ h => h

theorem sound_sweep (h : d.Sound) {drop : ν → Bool} : (d.sweep drop).Sound := by
  refine h.of_entry rfl fun m file hm => ?_
  change (if drop m then none else d.entry m) = some file at hm
  split_ifs at hm
  exact hm

theorem read_writeAt_of_ne (h : d.Sound) (hn : d.entry n = some file) (hne : m ≠ n) :
    (d.writeAt file offset bytes).read m = d.read m := by
  change (d.entry m).map _ = (d.entry m).map _
  cases hm : d.entry m with
  | none => rfl
  | some other =>
    refine congrArg some (Function.update_of_ne (fun heq => ?_) _ _)
    subst heq
    exact hne (h.inj m n other hm hn)

theorem read_sweep {drop : ν → Bool} (h : drop n = false) : (d.sweep drop).read n = d.read n := by
  change (if drop n then none else d.entry n).map d.content = _
  rw [h]
  rfl

end Laws

variable [DecidableEq ν]

/-- Opens a file that is to be written: that of the name, emptied, or a new one. -/
def create (n : ν) : Directory ν × ℕ :=
  match d.entry n with
  | some file => ({ d with content := Function.update d.content file [] }, file)
  | none => (⟨Function.update d.entry n (some d.next), Function.update d.content d.next [],
      d.next + 1⟩, d.next)

/-- Gives a file another name, instead of the file that had it. -/
def rename (n m : ν) : Option (Directory ν) :=
  (d.entry n).map fun file =>
    { d with entry := Function.update (Function.update d.entry n none) m (some file) }

def unlink (n : ν) : Directory ν := { d with entry := Function.update d.entry n none }

section Names
variable {d} {n m : ν} {file : ℕ} {d' : Directory ν}

theorem sound_create (h : d.Sound) (n : ν) : (d.create n).1.Sound := by
  unfold create
  split
  · exact h.of_entry rfl fun _ _ h => h
  · refine ⟨fun m file hm => ?_, fun m k file hm hk => ?_⟩
    · by_cases heq : m = n
      · subst heq
        cases (Function.update_self m _ _).symm.trans hm
        exact Nat.lt_add_one _
      · exact Nat.lt_succ_of_lt (h.lt_next m file ((Function.update_of_ne heq _ _).symm.trans hm))
    · -- the new file has only the new name
      have hold (x : ν) (hx : x ≠ n)
          (hfile : Function.update d.entry n (some d.next) x = some file) : file < d.next :=
        h.lt_next x file ((Function.update_of_ne hx _ _).symm.trans hfile)
      by_cases hmn : m = n
      · by_cases hkn : k = n
        · rw [hmn, hkn]
        · subst hmn
          cases (Function.update_self m _ _).symm.trans hm
          exact absurd (hold k hkn hk) (Nat.lt_irrefl _)
      · by_cases hkn : k = n
        · subst hkn
          cases (Function.update_self k _ _).symm.trans hk
          exact absurd (hold m hmn hm) (Nat.lt_irrefl _)
        · exact h.inj m k file ((Function.update_of_ne hmn _ _).symm.trans hm)
            ((Function.update_of_ne hkn _ _).symm.trans hk)

theorem sound_unlink (h : d.Sound) : (d.unlink n).Sound := by
  refine h.of_entry rfl fun m file hm => ?_
  by_cases heq : m = n
  · subst heq
    cases (Function.update_self m _ _).symm.trans hm
  · exact (Function.update_of_ne heq _ _).symm.trans hm

theorem sound_rename (h : d.Sound) (hrename : d.rename n m = some d') : d'.Sound := by
  obtain ⟨moved, hmoved, rfl⟩ := Option.map_eq_some_iff.mp hrename
  -- a name but the new one is an old name, and not that of the file
  have hold (x : ν) (file : ℕ) (hx : x ≠ m)
      (hfile : Function.update (Function.update d.entry n none) m (some moved) x = some file) :
      d.entry x = some file ∧ x ≠ n := by
    rw [Function.update_of_ne hx] at hfile
    by_cases hxn : x = n
    · subst hxn
      cases (Function.update_self x _ _).symm.trans hfile
    · exact ⟨(Function.update_of_ne hxn _ _).symm.trans hfile, hxn⟩
  refine ⟨fun x file hx => ?_, fun x y file hx hy => ?_⟩
  · by_cases heq : x = m
    · subst heq
      cases (Function.update_self x _ _).symm.trans hx
      exact h.lt_next n moved hmoved
    · exact h.lt_next x file (hold x file heq hx).1
  · by_cases hxm : x = m
    · by_cases hym : y = m
      · rw [hxm, hym]
      · subst hxm
        cases (Function.update_self x _ _).symm.trans hx
        obtain ⟨hentry, hne⟩ := hold y moved hym hy
        exact absurd (h.inj y n moved hentry hmoved) hne
    · by_cases hym : y = m
      · subst hym
        cases (Function.update_self y _ _).symm.trans hy
        obtain ⟨hentry, hne⟩ := hold x moved hxm hx
        exact absurd (h.inj x n moved hentry hmoved) hne
      · exact h.inj x y file (hold x file hxm hx).1 (hold y file hym hy).1

/-- A file that is created stands under its name, empty. -/
theorem create_spec (d : Directory ν) (n : ν) :
    (d.create n).1.entry n = some (d.create n).2 ∧ (d.create n).1.content (d.create n).2 = [] := by
  unfold create
  split
  · next file hfile => exact ⟨hfile, Function.update_self _ _ _⟩
  · exact ⟨Function.update_self _ _ _, Function.update_self _ _ _⟩

theorem create_of_ne (h : d.Sound) (hne : m ≠ n) {file : ℕ} :
    (d.create n).1.entry m = d.entry m ∧
      (d.entry m = some file → (d.create n).1.content file = d.content file) := by
  unfold create
  split
  · next old hold =>
    refine ⟨rfl, fun hm => Function.update_of_ne (fun heq => ?_) _ _⟩
    subst heq
    exact hne (h.inj m n file hm hold)
  · refine ⟨Function.update_of_ne hne _ _, fun hm => Function.update_of_ne ?_ _ _⟩
    exact Nat.ne_of_lt (h.lt_next m file hm)

theorem read_create_of_ne (h : d.Sound) (hne : m ≠ n) : (d.create n).1.read m = d.read m := by
  rw [read, read, (@create_of_ne _ _ _ n m h hne 0).1]
  cases hm : d.entry m with
  | none => rfl
  | some file => exact congrArg some ((create_of_ne h hne).2 hm)

theorem read_rename (hn : d.entry n = some file) :
    ∃ d', d.rename n m = some d' ∧ d'.read m = some (d.content file) ∧
      ∀ k, k ≠ n → k ≠ m → d'.entry k = d.entry k ∧ d'.read k = d.read k := by
  refine ⟨_, by rw [rename, hn, Option.map_some], ?_, fun k hkn hkm => ?_⟩
  · simp only [read, Function.update_self, Option.map_some]
  · have hentry : Function.update (Function.update d.entry n none) m (some file) k = d.entry k := by
      rw [Function.update_of_ne hkm, Function.update_of_ne hkn]
    exact ⟨hentry, by simp only [read, hentry]⟩

@[simp] theorem read_unlink_self : (d.unlink n).read n = none := by
  simp only [read, unlink, Function.update_self, Option.map_none]

theorem unlink_of_ne (h : m ≠ n) :
    (d.unlink n).entry m = d.entry m ∧ (d.unlink n).read m = d.read m := by
  have hentry : (d.unlink n).entry m = d.entry m := Function.update_of_ne h _ _
  refine ⟨hentry, ?_⟩
  rw [read, read, hentry]
  rfl

end Names

end Directory

end Directories
