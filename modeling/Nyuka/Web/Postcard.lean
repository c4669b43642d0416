import Nyuka.Foundation.Results
import Nyuka.Foundation.Utf8
import Nyuka.Foundation.Varints
import Nyuka.Runtime.Settings

/-! The postcard encoding as the client reads and writes it, by the type that a setting's
declaration names. Nothing in the bytes says of what type they are. -/
namespace Nyuka.Web.Postcard
open Text Varints

/-- A `PostcardError`, or what a call with too many arguments throws. -/
inductive Thrown where
  | postcardError (message : String)
  | rangeError
deriving DecidableEq, Repr

inductive ValueType where
  | bool | string | stringList | int
deriving DecidableEq, Repr

def ValueType.name : ValueType → String
  | bool => "bool"
  | string => "string"
  | stringList => "string-list"
  | int => "int"

inductive Value where
  | bool (b : Bool)
  | string (s : String)
  | strings (items : List String)
  | int (n : ℤ)
deriving DecidableEq, Repr

def Value.type : Value → ValueType
  | bool _ => .bool
  | string _ => .string
  | strings _ => .stringList
  | int _ => .int

/-! Reading. A reader is what it has not read yet. -/

/-- The iterations of `varint` that are left, `result` and `shift` as they are before them. -/
def varintLoop : ℕ → ℕ → ℕ → Bytes → Except Thrown (ℕ × Bytes)
  | 0, _, _, _ => .error (.postcardError "the number is longer than a u32")
  | _ + 1, _, _, [] => .error (.postcardError "the value ended mid-number")
  | i + 1, result, shift, byte :: reader =>
    let result := result + (byte &&& 0x7f).toNat * 2 ^ shift
    if byte &&& 0x80 = 0 then .ok (result, reader) else varintLoop i result (shift + 7) reader

def varint (reader : Bytes) : Except Thrown (ℕ × Bytes) := varintLoop 5 0 0 reader

def unzigzag (value : ℕ) : ℤ :=
  if value % 2 = 0 then ↑(value / 2) else -↑((value + 1) / 2)

def bytes (reader : Bytes) (count : ℕ) : Except Thrown (Bytes × Bytes) :=
  if reader.length < count then
    .error (.postcardError "the value is shorter than its own length says")
  else .ok (reader.take count, reader.drop count)

def byteOrderMark : Bytes := [0xEF, 0xBB, 0xBF]

/-- `new TextDecoder().decode(bytes)`: a byte order mark in front is not part of the text, and
what is no character is replaced. -/
def textDecode (bytes : Bytes) : String :=
  fromUtf8Lossy (if byteOrderMark <+: bytes then bytes.drop 3 else bytes)

def readString (reader : Bytes) : Except Thrown (String × Bytes) := do
  let (count, reader) ← varint reader
  let (payload, reader) ← bytes reader count
  return (textDecode payload, reader)

def readStrings : ℕ → Bytes → Except Thrown (List String × Bytes)
  | 0, reader => .ok ([], reader)
  | count + 1, reader => do
    let (item, reader) ← readString reader
    let (items, reader) ← readStrings count reader
    return (item :: items, reader)

def readBool (reader : Bytes) : Except Thrown (Bool × Bytes) := do
  let (payload, reader) ← bytes reader 1
  let byte := payload.headD 0
  if byte ≠ 0 ∧ byte ≠ 1 then .error (.postcardError s!"{byte} is not a bool")
  else .ok (byte = 1, reader)

def readValue (reader : Bytes) : ValueType → Except Thrown (Value × Bytes)
  | .bool => (readBool reader).map fun r => (.bool r.1, r.2)
  | .string => (readString reader).map fun r => (.string r.1, r.2)
  | .stringList => do
    let (count, reader) ← varint reader
    let (items, reader) ← readStrings count reader
    return (.strings items, reader)
  | .int => (varint reader).map fun r => (.int (unzigzag r.1), r.2)

/-- Bytes that are left over are an error: what left them was not of the type. -/
def decode (raw : Bytes) (type : ValueType) : Except Thrown Value := do
  let (value, reader) ← readValue raw type
  if reader ≠ [] then
    .error (.postcardError s!"{reader.length} bytes left after a {type.name}")
  else return value

/-! Writing. -/

/-- The double nearest to a whole number, and of two such the one with the even mantissa. -/
def nearest (n : ℕ) : ℕ :=
  let unit := 2 ^ (n.log2 - 52)
  if 2 * (n % unit) < unit ∨ 2 * (n % unit) = unit ∧ n / unit % 2 = 0 then n / unit * unit
  else (n / unit + 1) * unit

/-- The loop of `writeVarint`, and the byte after it. -/
def writeLoop (rest : ℕ) : Bytes :=
  if 0x80 ≤ rest then (rest &&& 0x7f ||| 0x80).toUInt8 :: writeLoop (rest / 128)
  else [rest.toUInt8]

def writeVarint (value : ℤ) : Except Thrown Bytes :=
  if value < 0 then .error (.postcardError s!"{value} is not a length or an unsigned integer")
  else .ok (writeLoop value.toNat)

/-- Zigzag, in double arithmetic. -/
def zigzag (value : ℤ) : ℕ :=
  if value < 0 then nearest (nearest (value.natAbs * 2) - 1) else nearest (value.natAbs * 2)

section Write
-- how many arguments a call can have: the bytes of a text are spread over those of `push`
variable (maxArguments : ℕ)

def writeString (value : String) : Except Thrown Bytes := do
  let encoded := utf8 value.toList
  let head ← writeVarint encoded.length
  if maxArguments < encoded.length then .error .rangeError else .ok (head ++ encoded)

def encode (value : Value) : ValueType → Except Thrown Bytes
  | .bool => match value with
    | .bool b => .ok [if b then 1 else 0]
    | _ => .error (.postcardError "expected a bool")
  | .string => match value with
    | .string s => writeString maxArguments s
    | _ => .error (.postcardError "expected a string")
  | .stringList => match value with
    | .strings items => do
      let head ← writeVarint items.length
      let items ← items.mapM (writeString maxArguments)
      return head ++ items.flatten
    | _ => .error (.postcardError "expected a list")
  | .int => match value with
    | .int n => writeVarint (zigzag n)
    | _ => .error (.postcardError "expected an integer")

end Write

/-! The numbers. -/

section Numbers

@[simp] theorem toNat_low (byte : UInt8) : (byte &&& 0x7f).toNat = byte.toNat % 128 := by
  rw [UInt8.toNat_and]
  exact Nat.and_two_pow_sub_one_eq_mod byte.toNat 7

private theorem high_eq_zero (byte : UInt8) : byte &&& 0x80 = 0 ↔ byte.toNat < 128 := by
  have hand : ∀ i : Fin 256, i.val &&& 128 = 0 ↔ i.val < 128 := by decide +kernel
  rw [← UInt8.toNat_inj, UInt8.toNat_and]
  exact hand ⟨byte.toNat, byte.toNat_lt⟩

/-- What the loop reads is an encoding of as many bytes as it has iterations. -/
theorem varintLoop_eq_ok {i result shift n : ℕ} {reader rest : Bytes} :
    varintLoop i result shift reader = .ok (n, rest) ↔ ∃ head m, Denotes head m ∧
      head.length ≤ i ∧ reader = head ++ rest ∧ n = result + m * 2 ^ shift := by
  induction i generalizing result shift reader with
  | zero =>
    constructor
    · intro h
      cases h
    · rintro ⟨head, m, hdenotes, hlength, -⟩
      exact absurd (List.length_eq_zero_iff.mp (Nat.le_zero.mp hlength)) hdenotes.ne_nil
  | succ i ih =>
    cases reader with
    | nil =>
      constructor
      · intro h
        cases h
      · rintro ⟨head, m, hdenotes, -, hreader, -⟩
        exact absurd (List.append_eq_nil_iff.mp hreader.symm).1 hdenotes.ne_nil
    | cons byte reader =>
      simp only [varintLoop, high_eq_zero, toNat_low]
      split
      · next hlow =>
        rw [Nat.mod_eq_of_lt hlow, Except.ok.injEq, Prod.mk.injEq]
        constructor
        · rintro ⟨rfl, rfl⟩
          exact ⟨[byte], _, .last byte hlow, Nat.succ_le_succ (Nat.zero_le i), rfl, rfl⟩
        · rintro ⟨head, m, hdenotes, -, hreader, rfl⟩
          obtain ⟨hhead, rfl, rfl⟩ := (Denotes.last byte hlow).append_inj hdenotes hreader
          exact ⟨rfl, rfl⟩
      · next hhigh =>
        have hsum (m : ℕ) : result + byte.toNat % 128 * 2 ^ shift + m * 2 ^ (shift + 7) =
            result + (byte.toNat - 128 + 128 * m) * 2 ^ shift := by
          have hlt := byte.toNat_lt
          rw [show byte.toNat % 128 = byte.toNat - 128 by omega, Nat.pow_add]
          ring
        rw [ih]
        constructor
        · rintro ⟨head, m, hdenotes, hlength, rfl, rfl⟩
          exact ⟨byte :: head, _, .more byte (Nat.le_of_not_lt hhigh) hdenotes,
            Nat.succ_le_succ hlength, rfl, hsum m⟩
        · rintro ⟨head, m, hdenotes, hlength, hreader, rfl⟩
          obtain ⟨c, head, rfl⟩ := List.exists_cons_of_ne_nil hdenotes.ne_nil
          obtain ⟨rfl, rfl⟩ := List.cons_eq_cons.mp hreader
          rcases denotes_cons.mp hdenotes with ⟨hlow, -⟩ | ⟨-, m, hrest, rfl⟩
          · exact absurd hlow hhigh
          · exact ⟨head, m, hrest, Nat.le_of_succ_le_succ hlength, rfl, (hsum m).symm⟩

theorem varint_eq_ok {n : ℕ} {reader rest : Bytes} : varint reader = .ok (n, rest) ↔
    ∃ head, Denotes head n ∧ head.length ≤ 5 ∧ reader = head ++ rest := by
  rw [varint, varintLoop_eq_ok]
  constructor
  · rintro ⟨head, m, hdenotes, hlength, hreader, rfl⟩
    exact ⟨head, by simpa using hdenotes, hlength, hreader⟩
  · rintro ⟨head, hdenotes, hlength, hreader⟩
    exact ⟨head, n, hdenotes, hlength, hreader, by simp⟩

theorem denotes_varint (n : ℕ) : Denotes (Runtime.Postcard.varint n) n := by
  fun_induction Runtime.Postcard.varint n with
  | case1 n hlt =>
    have hbyte : n.toUInt8.toNat = n := Nat.mod_eq_of_lt (by omega)
    simpa only [hbyte] using Denotes.last n.toUInt8 (by omega)
  | case2 n hge ih =>
    have hbyte : (n % 128 + 128).toUInt8.toNat = n % 128 + 128 := Nat.mod_eq_of_lt (by omega)
    have hmore := Denotes.more (n % 128 + 128).toUInt8 (by omega) ih
    rwa [hbyte, Nat.add_sub_cancel, Nat.mod_add_div] at hmore

theorem not_overlong_varint (n : ℕ) : ¬ Overlong (Runtime.Postcard.varint n) := by
  fun_induction Runtime.Postcard.varint n with
  | case1 n hlt => exact not_overlong_singleton _
  | case2 n hge ih =>
    rw [overlong_cons (denotes_varint _).ne_nil, not_or]
    refine ⟨fun hzero => ?_, ih⟩
    have hdenotes := denotes_varint (n / 128)
    rw [hzero] at hdenotes
    have hquotient := hdenotes.unique (Denotes.last 0 (by decide))
    simp only [UInt8.toNat_zero] at hquotient
    omega

/-- The encoding of a number that is not overlong is the serializer's. -/
theorem eq_varint_iff {head : Bytes} {n : ℕ} (h : Denotes head n) :
    head = Runtime.Postcard.varint n ↔ ¬ Overlong head := by
  constructor
  · rintro rfl
    exact not_overlong_varint n
  · exact fun hlast => h.eq_of_not_overlong (denotes_varint n) hlast (not_overlong_varint n)

theorem length_varint_le_iff {n : ℕ} : (Runtime.Postcard.varint n).length ≤ 5 ↔ n < 2 ^ 35 := by
  constructor
  · intro h
    calc n < 128 ^ (Runtime.Postcard.varint n).length := (denotes_varint n).lt
      _ ≤ 128 ^ 5 := Nat.pow_le_pow_right (by decide) h
      _ = 2 ^ 35 := by decide
  · exact fun h => (denotes_varint n).length_le (k := 4) (not_overlong_varint n) h

/-- The client writes a number as the serializer does. -/
theorem writeLoop_eq_varint (n : ℕ) : writeLoop n = Runtime.Postcard.varint n := by
  fun_induction Runtime.Postcard.varint n with
  | case1 n hlt => rw [writeLoop, if_neg (Nat.not_le.mpr hlt)]
  | case2 n hge ih =>
    have hand : n &&& 0x7f = n % 128 := Nat.and_two_pow_sub_one_eq_mod n 7
    have hor : n % 128 ||| 0x80 = n % 128 + 128 := by
      rw [Nat.or_comm, Nat.add_comm]
      exact (Nat.two_pow_add_eq_or_of_lt (i := 7) (Nat.mod_lt n (by decide)) 1).symm
    rw [writeLoop, if_pos (Nat.le_of_not_lt hge), hand, hor, ih]

@[simp] theorem writeVarint_natCast (n : ℕ) :
    writeVarint n = .ok (Runtime.Postcard.varint n) := by
  rw [writeVarint, if_neg (Int.not_lt.mpr (Int.natCast_nonneg n)), Int.toNat_natCast,
    writeLoop_eq_varint]

end Numbers

/-! What is read. -/

/-- A text in the bytes: its length and then so many bytes. -/
structure Frame where
  head : Bytes
  payload : Bytes

namespace Frame

def bytes (f : Frame) : Bytes := f.head ++ f.payload

structure Valid (f : Frame) : Prop where
  length : Denotes f.head f.payload.length
  short : f.head.length ≤ 5

def text (f : Frame) : String := textDecode f.payload

end Frame

section Read
variable {reader rest raw : Bytes}

theorem bytes_eq_ok {count : ℕ} {payload : Bytes} : bytes reader count = .ok (payload, rest) ↔
    payload.length = count ∧ reader = payload ++ rest := by
  unfold bytes
  split
  · next hshort =>
    refine iff_of_false (fun h => by cases h) ?_
    rintro ⟨rfl, rfl⟩
    rw [List.length_append] at hshort
    omega
  · next hlong =>
    rw [Except.ok.injEq, Prod.mk.injEq]
    constructor
    · rintro ⟨rfl, rfl⟩
      exact ⟨List.length_take_of_le (Nat.le_of_not_lt hlong), (List.take_append_drop _ _).symm⟩
    · rintro ⟨rfl, rfl⟩
      exact ⟨List.take_left' rfl, List.drop_left' rfl⟩

theorem readString_eq_ok {s : String} : readString reader = .ok (s, rest) ↔
    ∃ f : Frame, f.Valid ∧ reader = f.bytes ++ rest ∧ s = f.text := by
  unfold readString
  constructor
  · intro h
    obtain ⟨⟨count, reader'⟩, hcount, hrest⟩ := Results.bind_eq_ok.mp h
    obtain ⟨⟨payload, reader''⟩, hpayload, hresult⟩ := Results.bind_eq_ok.mp hrest
    obtain ⟨head, hdenotes, hshort, rfl⟩ := varint_eq_ok.mp hcount
    obtain ⟨rfl, rfl⟩ := bytes_eq_ok.mp hpayload
    obtain ⟨rfl, rfl⟩ := Prod.mk.inj (Results.pure_eq_ok.mp hresult)
    exact ⟨⟨head, payload⟩, ⟨hdenotes, hshort⟩, (List.append_assoc _ _ _).symm, rfl⟩
  · rintro ⟨f, hvalid, rfl, rfl⟩
    have hcount : varint (f.bytes ++ rest) = .ok (f.payload.length, f.payload ++ rest) :=
      varint_eq_ok.mpr ⟨f.head, hvalid.length, hvalid.short, List.append_assoc _ _ _⟩
    have hpayload : bytes (f.payload ++ rest) f.payload.length = .ok (f.payload, rest) :=
      bytes_eq_ok.mpr ⟨rfl, rfl⟩
    exact Results.bind_eq_ok.mpr ⟨_, hcount, Results.bind_eq_ok.mpr ⟨_, hpayload, rfl⟩⟩

theorem readStrings_eq_ok {count : ℕ} {items : List String} :
    readStrings count reader = .ok (items, rest) ↔ ∃ frames : List Frame,
      frames.length = count ∧ (∀ f ∈ frames, f.Valid) ∧
      reader = frames.flatMap Frame.bytes ++ rest ∧ items = frames.map Frame.text := by
  induction count generalizing reader items with
  | zero =>
    rw [readStrings, Except.ok.injEq, Prod.mk.injEq]
    constructor
    · rintro ⟨rfl, rfl⟩
      exact ⟨[], rfl, by simp, rfl, rfl⟩
    · rintro ⟨frames, hlength, -, rfl, rfl⟩
      obtain rfl := List.length_eq_zero_iff.mp hlength
      exact ⟨rfl, rfl⟩
  | succ count ih =>
    rw [readStrings]
    constructor
    · intro h
      obtain ⟨⟨item, reader'⟩, hitem, hrest⟩ := Results.bind_eq_ok.mp h
      obtain ⟨⟨items', reader''⟩, hitems, hresult⟩ := Results.bind_eq_ok.mp hrest
      obtain ⟨rfl, rfl⟩ := Prod.mk.inj (Results.pure_eq_ok.mp hresult)
      obtain ⟨f, hf, rfl, rfl⟩ := readString_eq_ok.mp hitem
      obtain ⟨frames, rfl, hframes, rfl, rfl⟩ := ih.mp hitems
      refine ⟨f :: frames, rfl, List.forall_mem_cons.mpr ⟨hf, hframes⟩, ?_, rfl⟩
      rw [List.flatMap_cons, List.append_assoc]
    · rintro ⟨frames, hlength, hframes, rfl, rfl⟩
      obtain ⟨f, frames, rfl⟩ := List.exists_cons_of_length_eq_add_one hlength
      obtain ⟨hf, hframes⟩ := List.forall_mem_cons.mp hframes
      have hitem : readString ((f :: frames).flatMap Frame.bytes ++ rest) =
          .ok (f.text, frames.flatMap Frame.bytes ++ rest) :=
        readString_eq_ok.mpr ⟨f, hf, by rw [List.flatMap_cons, List.append_assoc], rfl⟩
      have hitems : readStrings count (frames.flatMap Frame.bytes ++ rest) =
          .ok (frames.map Frame.text, rest) :=
        ih.mpr ⟨frames, Nat.succ.inj hlength, hframes, rfl, rfl⟩
      exact Results.bind_eq_ok.mpr ⟨_, hitem, Results.bind_eq_ok.mpr ⟨_, hitems, rfl⟩⟩

@[simp] theorem readBool_eq_ok {b : Bool} :
    readBool reader = .ok (b, rest) ↔ reader = Runtime.Postcard.bool b ++ rest := by
  unfold readBool
  constructor
  · intro h
    obtain ⟨⟨payload, reader'⟩, hpayload, hresult⟩ := Results.bind_eq_ok.mp h
    obtain ⟨hlength, rfl⟩ := bytes_eq_ok.mp hpayload
    obtain ⟨byte, rfl⟩ := List.length_eq_one_iff.mp hlength
    change (if byte ≠ 0 ∧ byte ≠ 1 then _ else _) = _ at hresult
    split at hresult
    · cases hresult
    · next hbyte =>
      obtain ⟨rfl, rfl⟩ := Prod.mk.inj (Except.ok.inj hresult)
      rw [not_and_or, not_not, not_not] at hbyte
      rcases hbyte with rfl | rfl <;> rfl
  · rintro rfl
    cases b <;> rfl

@[simp] theorem decode_eq_ok {type : ValueType} {v : Value} :
    decode raw type = .ok v ↔ readValue raw type = .ok (v, []) := by
  unfold decode
  rw [Results.bind_eq_ok]
  constructor
  · rintro ⟨⟨value, reader⟩, hvalue, h⟩
    dsimp only at h
    split at h
    · cases h
    · next hnil =>
      rw [not_not] at hnil
      obtain rfl := Results.pure_eq_ok.mp h
      rw [hvalue, hnil]
  · exact fun h => ⟨_, h, rfl⟩

theorem decode_bool {v : Value} : decode raw .bool = .ok v ↔
    ∃ b, raw = Runtime.Postcard.bool b ∧ v = .bool b := by
  rw [decode_eq_ok, readValue, Results.map_eq_ok]
  constructor
  · rintro ⟨⟨b, reader⟩, hread, h⟩
    obtain ⟨rfl, rfl⟩ := Prod.mk.inj h
    exact ⟨b, by simpa using readBool_eq_ok.mp hread, rfl⟩
  · rintro ⟨b, rfl, rfl⟩
    exact ⟨_, readBool_eq_ok.mpr (List.append_nil _).symm, rfl⟩

theorem decode_string {v : Value} : decode raw .string = .ok v ↔
    ∃ f : Frame, f.Valid ∧ raw = f.bytes ∧ v = .string f.text := by
  rw [decode_eq_ok, readValue, Results.map_eq_ok]
  constructor
  · rintro ⟨⟨s, reader⟩, hread, h⟩
    obtain ⟨rfl, rfl⟩ := Prod.mk.inj h
    obtain ⟨f, hvalid, rfl, rfl⟩ := readString_eq_ok.mp hread
    exact ⟨f, hvalid, List.append_nil _, rfl⟩
  · rintro ⟨f, hvalid, rfl, rfl⟩
    exact ⟨_, readString_eq_ok.mpr ⟨f, hvalid, (List.append_nil _).symm, rfl⟩, rfl⟩

theorem decode_stringList {v : Value} : decode raw .stringList = .ok v ↔
    ∃ (head : Bytes) (frames : List Frame), Denotes head frames.length ∧ head.length ≤ 5 ∧
      (∀ f ∈ frames, f.Valid) ∧ raw = head ++ frames.flatMap Frame.bytes ∧
      v = .strings (frames.map Frame.text) := by
  rw [decode_eq_ok, readValue]
  constructor
  · intro h
    obtain ⟨⟨count, reader⟩, hcount, hrest⟩ := Results.bind_eq_ok.mp h
    obtain ⟨⟨items, reader'⟩, hitems, hresult⟩ := Results.bind_eq_ok.mp hrest
    obtain ⟨rfl, rfl⟩ := Prod.mk.inj (Results.pure_eq_ok.mp hresult)
    obtain ⟨head, hdenotes, hshort, rfl⟩ := varint_eq_ok.mp hcount
    obtain ⟨frames, rfl, hframes, rfl, rfl⟩ := readStrings_eq_ok.mp hitems
    exact ⟨head, frames, hdenotes, hshort, hframes, by rw [List.append_nil], rfl⟩
  · rintro ⟨head, frames, hdenotes, hshort, hframes, rfl, rfl⟩
    have hcount : varint (head ++ frames.flatMap Frame.bytes) =
        .ok (frames.length, frames.flatMap Frame.bytes) :=
      varint_eq_ok.mpr ⟨head, hdenotes, hshort, rfl⟩
    have hitems : readStrings frames.length (frames.flatMap Frame.bytes) =
        .ok (frames.map Frame.text, []) :=
      readStrings_eq_ok.mpr ⟨frames, rfl, hframes, (List.append_nil _).symm, rfl⟩
    exact Results.bind_eq_ok.mpr ⟨_, hcount, Results.bind_eq_ok.mpr ⟨_, hitems, rfl⟩⟩

theorem decode_int {v : Value} : decode raw .int = .ok v ↔
    ∃ n, Denotes raw n ∧ raw.length ≤ 5 ∧ v = .int (unzigzag n) := by
  rw [decode_eq_ok, readValue, Results.map_eq_ok]
  constructor
  · rintro ⟨⟨n, reader⟩, hread, h⟩
    obtain ⟨rfl, rfl⟩ := Prod.mk.inj h
    obtain ⟨head, hdenotes, hshort, rfl⟩ := varint_eq_ok.mp hread
    exact ⟨n, by simpa using hdenotes, by simpa using hshort, rfl⟩
  · rintro ⟨n, hdenotes, hshort, rfl⟩
    exact ⟨_, varint_eq_ok.mpr ⟨raw, hdenotes, hshort, (List.append_nil _).symm⟩, rfl⟩

end Read

/-! What is written. -/

section Texts
variable {s : String} {payload out : Bytes} {maxArguments : ℕ}

/-- The character that a byte order mark encodes. -/
def markChar : Char := Char.ofNat 0xFEFF

@[simp] theorem utf8EncodeChar_markChar : String.utf8EncodeChar markChar = byteOrderMark := by
  decide

theorem mark_isPrefix_iff {s : List Char} :
    byteOrderMark <+: utf8 s ↔ s.head? = some markChar := by
  rw [← utf8EncodeChar_markChar]
  constructor
  · rintro ⟨rest, h⟩
    obtain ⟨t, rfl, -⟩ := eq_cons_of_utf8 h.symm
    rfl
  · intro h
    obtain ⟨t, rfl⟩ := List.head?_eq_some_iff.mp h
    exact ⟨utf8 t, rfl⟩

@[simp] theorem drop_mark (rest : Bytes) : (byteOrderMark ++ rest).drop 3 = rest := rfl

/-- A text is read as it is, but for a mark in front. -/
theorem textDecode_utf8 (s : List Char) : textDecode (utf8 s) =
    String.ofList (if s.head? = some markChar then s.tail else s) := by
  unfold textDecode
  by_cases hmark : s.head? = some markChar
  · rw [if_pos (mark_isPrefix_iff.mpr hmark), if_pos hmark]
    obtain ⟨t, rfl⟩ := List.head?_eq_some_iff.mp hmark
    have hcons : utf8 (markChar :: t) = byteOrderMark ++ utf8 t := by
      rw [← utf8EncodeChar_markChar]
      rfl
    rw [hcons, drop_mark, fromUtf8Lossy_utf8, List.tail_cons]
  · rw [if_neg (mark_isPrefix_iff.not.mpr hmark), if_neg hmark, fromUtf8Lossy_utf8]

theorem textDecode_toList_iff :
    textDecode (utf8 s.toList) = s ↔ s.toList.head? ≠ some markChar := by
  rw [textDecode_utf8, ← String.toList_inj, String.toList_ofList]
  split
  · next hmark =>
    refine iff_of_false (fun h => ?_) (not_not.mpr hmark)
    obtain ⟨t, ht⟩ := List.head?_eq_some_iff.mp hmark
    rw [ht, List.tail_cons] at h
    exact List.cons_ne_self _ _ h.symm
  · next hmark => exact iff_of_true rfl hmark

/-- What is read is what was there, if it is a text and has no mark in front. -/
theorem utf8_textDecode_iff : utf8 (textDecode payload).toList = payload ↔
    (∃ s, payload = utf8 s) ∧ ¬ byteOrderMark <+: payload := by
  by_cases hmark : byteOrderMark <+: payload
  · refine iff_of_false (fun h => ?_) fun h => h.2 hmark
    obtain ⟨rest, rfl⟩ := hmark
    have hread : textDecode (byteOrderMark ++ rest) = fromUtf8Lossy rest := by
      rw [textDecode, if_pos (List.prefix_append _ _), drop_mark]
    rw [hread, ← utf8EncodeChar_markChar] at h
    obtain ⟨t, ht, rfl⟩ := eq_cons_of_utf8 h
    rw [fromUtf8Lossy_utf8, String.toList_ofList] at ht
    exact List.cons_ne_self _ _ ht.symm
  · rw [textDecode, if_neg hmark, utf8_fromUtf8Lossy_iff]
    exact (and_iff_left hmark).symm

theorem string_eq (s : String) : Runtime.Postcard.string s =
    Runtime.Postcard.varint (utf8 s.toList).length ++ utf8 s.toList := by
  have hbytes : s.toUTF8.toList = utf8 s.toList := by rw [toList_bytes, utf8_toList]
  have hsize : s.toUTF8.size = (utf8 s.toList).length := by
    rw [utf8_toList, Array.length_toList]
    rfl
  rw [Runtime.Postcard.string, hbytes, hsize]

/-- The client writes a text as the serializer does, if the call has not too many arguments. -/
theorem writeString_eq_ok : writeString maxArguments s = .ok out ↔
    (utf8 s.toList).length ≤ maxArguments ∧ out = Runtime.Postcard.string s := by
  simp only [writeString, writeVarint_natCast, string_eq]
  change (if _ then _ else Except.ok _) = _ ↔ _
  split
  · next hmany => exact iff_of_false (fun h => by cases h) fun h => Nat.not_le.mpr hmany h.1
  · next hfew =>
    rw [Except.ok.injEq, eq_comm]
    exact (and_iff_right (Nat.le_of_not_lt hfew)).symm

private theorem writeStrings_eq_ok {items : List String} {outs : List Bytes} :
    items.mapM (writeString maxArguments) = .ok outs ↔
      (∀ s ∈ items, (utf8 s.toList).length ≤ maxArguments) ∧
        outs = items.map Runtime.Postcard.string := by
  induction items generalizing outs with
  | nil => simp [pure, Except.pure, eq_comm]
  | cons s items ih =>
    rw [List.mapM_cons, Results.bind_eq_ok]
    constructor
    · rintro ⟨out, hout, h⟩
      obtain ⟨outs', houts, hresult⟩ := Results.bind_eq_ok.mp h
      obtain rfl := Results.pure_eq_ok.mp hresult
      obtain ⟨hs, rfl⟩ := writeString_eq_ok.mp hout
      obtain ⟨hitems, rfl⟩ := ih.mp houts
      exact ⟨List.forall_mem_cons.mpr ⟨hs, hitems⟩, rfl⟩
    · rintro ⟨hitems, rfl⟩
      obtain ⟨hs, hitems⟩ := List.forall_mem_cons.mp hitems
      exact ⟨_, writeString_eq_ok.mpr ⟨hs, rfl⟩,
        Results.bind_eq_ok.mpr ⟨_, ih.mpr ⟨hitems, rfl⟩, rfl⟩⟩

theorem encode_stringList {items : List String} :
    encode maxArguments (.strings items) .stringList = .ok out ↔
      (∀ s ∈ items, (utf8 s.toList).length ≤ maxArguments) ∧
        out = Runtime.Postcard.strings items := by
  simp only [encode, writeVarint_natCast]
  constructor
  · intro h
    obtain ⟨head, hhead, hrest⟩ := Results.bind_eq_ok.mp h
    obtain ⟨outs, houts, hresult⟩ := Results.bind_eq_ok.mp hrest
    obtain rfl := Except.ok.inj hhead
    obtain rfl := Results.pure_eq_ok.mp hresult
    obtain ⟨hitems, rfl⟩ := writeStrings_eq_ok.mp houts
    exact ⟨hitems, rfl⟩
  · rintro ⟨hitems, rfl⟩
    have houts := writeStrings_eq_ok.mpr ⟨hitems, rfl⟩
    exact Results.bind_eq_ok.mpr ⟨_, rfl, Results.bind_eq_ok.mpr ⟨_, houts, rfl⟩⟩

theorem encode_int {n : ℤ} :
    encode maxArguments (.int n) .int = .ok (Runtime.Postcard.varint (zigzag n)) :=
  writeVarint_natCast _

end Texts

end Nyuka.Web.Postcard
