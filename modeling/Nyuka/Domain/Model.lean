import Nyuka.Foundation.Text
import Mathlib.Data.BitVec
import Mathlib.Data.List.TakeDrop

/-! The data the crates share: identifiers, jobs and the errors that cross a port. -/
namespace Nyuka

abbrev Uuid := BitVec 128

namespace Uuid

/-- The groups of 8, 4, 4, 4 and 12 digits a uuid is displayed in. -/
def groups (digits : List Char) : List (List Char) :=
  [digits.take 8, (digits.drop 8).take 4, (digits.drop 12).take 4, (digits.drop 16).take 4,
    digits.drop 20]

def hyphenated (u : Uuid) : String :=
  String.ofList (['-'].intercalate (groups (Text.hexDigits 32 u.toNat)))

@[simp] theorem flatten_groups (digits : List Char) : (groups digits).flatten = digits := by
  have h16 : (digits.drop 16).take 4 ++ digits.drop 20 = digits.drop 16 := by
    simpa using List.take_append_drop 4 (digits.drop 16)
  have h12 : (digits.drop 12).take 4 ++ digits.drop 16 = digits.drop 12 := by
    simpa using List.take_append_drop 4 (digits.drop 12)
  have h8 : (digits.drop 8).take 4 ++ digits.drop 12 = digits.drop 8 := by
    simpa using List.take_append_drop 4 (digits.drop 8)
  simp [groups, h16, h12, h8]

/-- A character that is no hexadecimal digit occurs in none of the groups. -/
theorem notMem_groups {c : Char} (hc : ∀ d < 16, Nat.digitChar d ≠ c) (u : Uuid) :
    ∀ g ∈ groups (Text.hexDigits 32 u.toNat), c ∉ g := by
  intro g hg hmem
  have hflat : c ∈ (groups (Text.hexDigits 32 u.toNat)).flatten :=
    List.mem_flatten.mpr ⟨g, hg, hmem⟩
  rw [flatten_groups] at hflat
  exact Text.notMem_hexDigits hc _ _ hflat

/-- Two uuids are displayed alike only when they are equal. -/
theorem hyphenated_inj {u v : Uuid} (h : u.hyphenated = v.hyphenated) : u = v := by
  have hgroups := congrArg (List.splitOn '-') (String.ofList_injective h)
  rw [List.splitOn_intercalate _ (notMem_groups (by decide) u) (by simp [groups]),
    List.splitOn_intercalate _ (notMem_groups (by decide) v) (by simp [groups])] at hgroups
  have hdigits := congrArg List.flatten hgroups
  rw [flatten_groups, flatten_groups] at hdigits
  exact BitVec.eq_of_toNat_eq
    (Text.hexDigits_inj (by have := u.isLt; omega) (by have := v.isLt; omega) hdigits)

/-- The digits of a uuid in its five groups. -/
def parseHyphenated (s : List Char) : Option Uuid :=
  if (s.splitOn '-').map List.length = [8, 4, 4, 4, 12] then
    (Text.hexValue (s.splitOn '-').flatten).map (BitVec.ofNat 128)
  else none

/-- `Uuid::from_str`: plain digits, or groups of them, alone, in braces or as a URN. -/
def parse (text : String) : Option Uuid :=
  let s := text.toList
  if s.length = 32 then (Text.hexValue s).map (BitVec.ofNat 128)
  else if s.length = 36 then parseHyphenated s
  else if s.length = 38 ∧ s.head? = some '{' ∧ s.getLast? = some '}' then
    parseHyphenated (s.drop 1).dropLast
  else if s.length = 45 ∧ s.take 9 = "urn:uuid:".toList then parseHyphenated (s.drop 9)
  else none

@[simp] theorem parse_hyphenated (u : Uuid) : parse u.hyphenated = some u := by
  set digits := Text.hexDigits 32 u.toNat with hdigits
  have hlen : digits.length = 32 := by simp [hdigits]
  have hsplit : (['-'].intercalate (groups digits)).splitOn '-' = groups digits :=
    List.splitOn_intercalate _ (notMem_groups (by decide) u) (by simp [groups])
  have hgroups : (groups digits).map List.length = [8, 4, 4, 4, 12] := by
    simp [groups, hlen]
  have hall : (['-'].intercalate (groups digits)).length = 36 := by
    simp [groups, List.intercalate_cons_cons, hlen]
  have hvalue : Text.hexValue digits = some u.toNat :=
    Text.hexValue_hexDigits (by have := u.isLt; omega)
  simp only [parse, hyphenated, String.toList_ofList, ← hdigits, hall]
  rw [if_neg (by decide), if_pos trivial, parseHyphenated, hsplit, if_pos hgroups, flatten_groups,
    hvalue]
  simp

/-- A displayed uuid has no character but hexadecimal digits and hyphens. -/
theorem plain_hyphenated {c : Char} (hhex : ∀ d < 16, Nat.digitChar d ≠ c) (hminus : c ≠ '-')
    (u : Uuid) : Text.Plain c u.hyphenated := by
  simp only [Text.Plain, hyphenated, String.toList_ofList]
  exact Text.notMem_intercalate (by simpa using hminus) (notMem_groups hhex u)

end Uuid

structure JobId where
  uuid : Uuid
deriving DecidableEq, Repr

structure ChapterId where
  uuid : Uuid
deriving DecidableEq, Repr

structure FollowId where
  uuid : Uuid
deriving DecidableEq, Repr

structure SourceRepoId where
  uuid : Uuid
deriving DecidableEq, Repr

/-- Microseconds since the epoch, the resolution the database keeps. -/
abbrev Time := ℤ

def Time.seconds (n : ℤ) : Time := n * 1000000

/-- Whole seconds since the epoch, rounded down. -/
def Time.timestamp (t : Time) : ℤ := t / 1000000

/-- A JSON value; numbers keep their text. -/
inductive JsonValue where
  | null
  | bool (b : Bool)
  | number (text : String)
  | string (s : String)
  | array (items : List JsonValue)
  | object (members : List (String × JsonValue))

namespace JsonValue

/-- What holds of a value if it holds of the values in it holds of all values. -/
theorem value_induction {P : JsonValue → Prop} (null : P .null) (bool : ∀ b, P (.bool b))
    (number : ∀ text, P (.number text)) (string : ∀ s, P (.string s))
    (array : ∀ items, (∀ item ∈ items, P item) → P (.array items))
    (object : ∀ members, (∀ m ∈ members, P m.2) → P (.object members)) (value : JsonValue) :
    P value := by
  refine @JsonValue.rec P (fun items => ∀ item ∈ items, P item)
    (fun members => ∀ m ∈ members, P m.2) (fun m => P m.2) null bool number string array object
    (by simp) ?_ (by simp) ?_ (fun _ _ h => h) value
  · intro item items hitem hitems i hi
    rcases List.mem_cons.mp hi with rfl | hi
    · exact hitem
    · exact hitems i hi
  · intro m members hm hmembers m' hm'
    rcases List.mem_cons.mp hm' with rfl | hm'
    · exact hm
    · exact hmembers m' hm'

def get : JsonValue → String → Option JsonValue
  | object members, field => (members.find? fun m => m.1 == field).map Prod.snd
  | _, _ => none

def asStr : JsonValue → Option String
  | string s => some s
  | _ => none

/-- The payload of a job about one uuid, as every producer writes it. -/
def about (field : String) (u : Uuid) : JsonValue := object [(field, string u.hyphenated)]

/-- The payload names the uuid under the field. -/
def Names (payload : JsonValue) (field : String) (u : Uuid) : Prop :=
  (payload.get field).bind asStr = some u.hyphenated

instance (payload : JsonValue) (field : String) (u : Uuid) : Decidable (payload.Names field u) := by
  unfold Names; infer_instance

@[simp] theorem names_about {field : String} {u v : Uuid} :
    (about field u).Names field v ↔ u = v := by
  simp only [Names, about, get, List.find?_cons, beq_self_eq_true, Option.map_some,
    Option.bind_some, asStr, Option.some.injEq]
  exact ⟨Uuid.hyphenated_inj, congrArg _⟩

theorem Names.unique {payload : JsonValue} {field : String} {u v : Uuid}
    (hu : payload.Names field u) (hv : payload.Names field v) : u = v :=
  Uuid.hyphenated_inj (Option.some.inj (hu.symm.trans hv))

end JsonValue

inductive JobState where
  | queued | running | succeeded | failed | cancelled
deriving DecidableEq, Repr

inductive JobKind where
  | downloadChapter | packageChapter | refreshMetadata | checkFollow | updateSources
  | pruneJobs | pruneSessions | reconcileLibrary
deriving DecidableEq, Repr

structure Job where
  id : JobId
  kind : JobKind
  state : JobState
  payload : JsonValue
  priority : ℤ
  runAt : Time
  attempts : ℤ
  maxAttempts : ℤ
  lastError : Option String
  createdAt : Time

inductive DomainError where
  | notFound
  | conflict (detail : String)
  | invalid (detail : String)
  | source (message : String) (retryable : Bool)
  | unsupportedCapability (name : String)
  | storage (message : String)
  | insufficientStorage
  | internal (message : String)
deriving DecidableEq, Repr

namespace DomainError

/-- The text an error is displayed as. -/
def toText : DomainError → String
  | notFound => "not found"
  | conflict detail => s!"conflict: {detail}"
  | invalid detail => s!"invalid: {detail}"
  | source message _ => s!"source error: {message}"
  | unsupportedCapability name => s!"unsupported source capability: {name}"
  | storage message => s!"storage error: {message}"
  | insufficientStorage => "insufficient storage"
  | internal message => s!"internal error: {message}"

/-- Whether the job engine should schedule another attempt. -/
def isRetryable : DomainError → Bool
  | source _ retryable => retryable
  | storage _ => true
  | _ => false

end DomainError
end Nyuka
