import Nyuka.Runtime.Blocks
import Nyuka.Runtime.Resources

/-! `defaults`: a source's key-value namespace, the store that keeps it in memory, and the imports
that a guest reaches either store through. -/
namespace Nyuka
namespace Runtime

/-- Where a source's key-value namespace is read and written. -/
structure Defaults (σ : Type) where
  get : σ → String → Option Bytes
  set : σ → String → Bytes → σ
  remove : σ → String → σ

/-- Keeps everything in memory. -/
structure MemoryDefaults where
  inner : String → Option Bytes

def memoryDefaults : Defaults MemoryDefaults where
  get m key := m.inner key
  set m key value := ⟨Function.update m.inner key (some value)⟩
  remove m key := ⟨Function.update m.inner key none⟩

inductive SettingCall where
  | get (key : String)
  | set (key : String) (value : Bytes)
  | remove (key : String)
deriving DecidableEq, Repr

/-- What a call leaves under a key, if it writes there. -/
def SettingCall.write (key : String) : SettingCall → Option (Option Bytes)
  | .get _ => none
  | .set k value => if k = key then some (some value) else none
  | .remove k => if k = key then some none else none

/-- What the last of the calls that writes under a key leaves there. -/
def lastWrite (key : String) (calls : List SettingCall) : Option (Option Bytes) :=
  calls.foldl (fun last call => (call.write key).or last) none

namespace Defaults
variable {σ : Type} (d : Defaults σ)

def call (s : σ) : SettingCall → σ
  | .get _ => s
  | .set key value => d.set s key value
  | .remove key => d.remove s key

def after (s : σ) (calls : List SettingCall) : σ := calls.foldl d.call s

/-- What the reads among the calls are answered. -/
def answers : σ → List SettingCall → List (Option Bytes)
  | _, [] => []
  | s, .get key :: calls => d.get s key :: answers s calls
  | s, .set key value :: calls => answers (d.set s key value) calls
  | s, .remove key :: calls => answers (d.remove s key) calls

end Defaults

section Answers
variable {σ τ : Type} {d : Defaults σ} {e : Defaults τ} {key : String}

private theorem answers_cons_eq_iff {s : σ} {t : τ} {call : SettingCall}
    {calls : List SettingCall} :
    d.answers s (call :: calls) = e.answers t (call :: calls) ↔
      (∀ key, call = .get key → d.get s key = e.get t key) ∧
        d.answers (d.call s call) calls = e.answers (e.call t call) calls := by
  cases call with
  | get k => simp [Defaults.answers, Defaults.call]
  | set k value => simp [Defaults.answers, Defaults.call]
  | remove k => simp [Defaults.answers, Defaults.call]

/-- Two stores answer alike exactly when every read finds alike after the calls before it. -/
theorem answers_eq_iff {s : σ} {t : τ} {calls : List SettingCall} :
    d.answers s calls = e.answers t calls ↔
      ∀ before key rest, calls = before ++ .get key :: rest →
        d.get (d.after s before) key = e.get (e.after t before) key := by
  induction calls generalizing s t with
  | nil => simp [Defaults.answers]
  | cons call calls ih =>
    rw [answers_cons_eq_iff, ih]
    constructor
    · rintro ⟨hhead, htail⟩ before key rest hcalls
      cases before with
      | nil =>
        cases hcalls
        exact hhead key rfl
      | cons first before =>
        cases hcalls
        exact htail before key rest rfl
    · intro h
      refine ⟨fun key hkey => h [] key calls (by rw [hkey]; rfl), fun before key rest hcalls => ?_⟩
      exact h (call :: before) key rest (by rw [hcalls]; rfl)

/-- What a key holds is a function of what it held and of the last write. -/
theorem get_after {I : σ → Prop} (reads : Option (Option Bytes) → Option Bytes → Option Bytes)
    (hnone : ∀ old, reads none old = old)
    (hor : ∀ w w' old, reads w (reads w' old) = reads (w.or w') old)
    (hI : ∀ s call, I s → I (d.call s call))
    (hcall : ∀ s call, I s → d.get (d.call s call) key = reads (call.write key) (d.get s key))
    {s : σ} (hs : I s) (calls : List SettingCall) :
    d.get (d.after s calls) key = reads (lastWrite key calls) (d.get s key) := by
  have hrun : I (d.after s calls) ∧
      d.get (d.after s calls) key = reads (lastWrite key calls) (d.get s key) := by
    induction calls using List.reverseRecOn with
    | nil => exact ⟨hs, (hnone _).symm⟩
    | append_singleton calls call ih =>
      obtain ⟨hinv, hget⟩ := ih
      have hafter : d.after s (calls ++ [call]) = d.call (d.after s calls) call :=
        List.foldl_append
      have hlast : lastWrite key (calls ++ [call]) = (call.write key).or (lastWrite key calls) :=
        List.foldl_append
      rw [hafter, hlast]
      exact ⟨hI _ _ hinv, by rw [hcall _ _ hinv, hget, hor]⟩
  exact hrun.2

theorem memoryDefaults_after (m : MemoryDefaults) (calls : List SettingCall) :
    memoryDefaults.get (memoryDefaults.after m calls) key =
      (lastWrite key calls).getD (memoryDefaults.get m key) := by
  refine get_after (I := fun _ => True) (fun w old => w.getD old) (fun _ => rfl)
    (fun w w' old => ?_) (fun _ _ _ => trivial) (fun m call _ => ?_) trivial calls
  · cases w with
    | none => rfl
    | some w => rfl
  · cases call with
    | get k => rfl
    | set k value =>
      by_cases hk : k = key
      · simp [Defaults.call, memoryDefaults, SettingCall.write, hk]
      · simp [Defaults.call, memoryDefaults, SettingCall.write, hk, Ne.symm hk]
    | remove k =>
      by_cases hk : k = key
      · simp [Defaults.call, memoryDefaults, SettingCall.write, hk]
      · simp [Defaults.call, memoryDefaults, SettingCall.write, hk, Ne.symm hk]

end Answers

/-! The imports. -/

section Imports
variable {σ Html : Type}

/-- Reads a UTF-8 string out of guest memory. -/
def readStr (memory : Option Memory) (ptr len : Int32) : Option String :=
  if len.toInt < 0 then none
  else memory.bind fun m =>
    (m.read (asUsize ptr.toInt) len.toInt.toNat).map Text.fromUtf8Lossy

/-- `defaults::get`. Unset is a miss, not an error. -/
def guestGet (d : Defaults σ) (s : σ) (memory : Option Memory) (table : ResourceTable Html)
    (ptr len : Int32) : ResourceTable Html × ℤ :=
  match readStr memory ptr len with
  | none => (table, message)
  | some key => match d.get s key with
    | none => (table, message)
    | some bytes => table.insert (.buffer bytes)

/-- `defaults::set`. A null pointer is no value. -/
def guestSet (checks : Bool) (d : Defaults σ) (s : σ) (memory : Option Memory)
    (ptr len value : Int32) : Except Failure (σ × ℤ) :=
  match readStr memory ptr len with
  | none => .ok (s, message)
  | some key =>
    if value.toInt = 0 then .ok (d.remove s key, 0)
    else do
      match ← readEncoded checks memory value with
      | none => .ok (s, message)
      | some bytes => .ok (d.set s key bytes, 0)

variable {d : Defaults σ} {s : σ} {memory : Option Memory} {table : ResourceTable Html}
  {ptr len : Int32} {key : String}

/-- A guest tells a key that is absent from one that is empty. -/
theorem guestGet_eq_message_iff (hkey : readStr memory ptr len = some key)
    (htable : 0 ≤ table.next) :
    (guestGet d s memory table ptr len).2 = message ↔ d.get s key = none := by
  simp only [guestGet, hkey]
  cases d.get s key with
  | none => simp
  | some bytes =>
    simp only [ResourceTable.insert, message]
    constructor
    · intro h
      omega
    · intro h
      cases h

end Imports

end Runtime
end Nyuka
