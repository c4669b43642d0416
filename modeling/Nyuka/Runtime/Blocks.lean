import Mathlib.Data.Int.Init
import Nyuka.Domain.Library
import Nyuka.Foundation.Utf8

/-! The blocks in its memory that a source answers with: a length, a capacity and a payload, or a
message of its own behind a length of minus one. All of its numbers are the source's choice. -/
namespace Nyuka
namespace Runtime

abbrev Memory := Bytes

/-- `Memory::read` -/
def Memory.read (m : Memory) (offset len : ℕ) : Option Bytes :=
  if offset + len ≤ m.length then some ((m.drop offset).take len) else none

/-- `i32::from_le_bytes` -/
def le32 (bytes : Bytes) : ℤ :=
  (BitVec.ofNat 32 (bytes.foldr (fun b n => b.toNat + 256 * n) 0)).toInt

inductive RunError where
  | guest (code : ℤ)
  | message (text : String)
  | malformed (text : String)
deriving DecidableEq, Repr

/-- What ends a call: an error, or a sum that does not fit. -/
inductive Failure where
  | run (error : RunError)
  | overflow
deriving DecidableEq, Repr

def Fits (n : ℤ) : Prop := -2 ^ 31 ≤ n ∧ n < 2 ^ 31

instance Fits.decidable (n : ℤ) : Decidable (Fits n) := inferInstanceAs (Decidable (_ ∧ _))

/-- A sum of 32 bits, in a build that checks for overflow and in one that does not. -/
def i32 (checks : Bool) (n : ℤ) : Except Failure ℤ :=
  if Fits n then .ok n else if checks then .error .overflow else .ok (n.bmod (2 ^ 32))

/-- `as usize` -/
def asUsize (n : ℤ) : ℕ := (n % 2 ^ 64).toNat

def Memory.readAt (m : Memory) (offset len : ℕ) : Except Failure Bytes :=
  match m.read offset len with
  | some bytes => .ok bytes
  | none => .error (.run (.malformed "out of bounds memory access"))

/-- What stands where a result block's length goes when it is a message. -/
def messageSentinel : ℤ := -1

/-- A source's own error message, if that is what it returned. -/
def readErrorMessage (checks : Bool) (m : Memory) (ptr : ℤ) : Except Failure (Option String) := do
  let header ← m.readAt (asUsize ptr) 12
  if le32 (header.take 4) ≠ messageSentinel then .ok none
  else
    -- The length counts the twelve-byte header with it.
    let total := le32 ((header.drop 8).take 4)
    let len ← i32 checks (total - 12)
    if len < 0 then
      .error (.run (.malformed s!"error message length {total} is shorter than its own header"))
    else
      let start ← i32 checks (ptr + 12)
      let bytes ← m.readAt (asUsize start) len.toNat
      .ok (some (Text.fromUtf8Lossy bytes))

/-- Reads the block a successful call returns. -/
def readResult (checks : Bool) (m : Memory) (ptr : ℤ) : Except Failure Bytes := do
  let header ← m.readAt (asUsize ptr) 8
  let len := le32 (header.take 4)
  if len < 8 then .error (.run (.malformed s!"result length {len} is shorter than its own header"))
  else
    let start ← i32 checks (ptr + 8)
    m.readAt (asUsize start) (len - 8).toNat

/-- What an export returned, up to the decoding of the payload; without an exported memory there is
nothing to read. -/
def decodeReturn (checks : Bool) (memory : Option Memory) (ret : Int32) : Except Failure Bytes :=
  if ret.toInt < 0 then .error (.run (.guest ret.toInt))
  else
    match memory with
    | none => .error (.run (.malformed "source exports no memory"))
    | some m => do
      match ← readErrorMessage checks m ret.toInt with
      | some message => .error (.run (.message message))
      | none => readResult checks m ret.toInt

/-- Reads a block that the guest hands over; null is none. -/
def readEncoded (checks : Bool) (memory : Option Memory) (ptr : Int32) :
    Except Failure (Option Bytes) :=
  if ptr.toInt ≤ 0 then .ok none
  else
    match memory with
    | none => .ok none
    | some m =>
      match m.read (asUsize ptr.toInt) 8 with
      | none => .ok none
      | some header =>
        let len := le32 (header.take 4)
        if len < 8 then .ok none
        else do
          let start ← i32 checks (ptr.toInt + 8)
          .ok (m.read (asUsize start) (len - 8).toNat)

/-- The number that stands at an address. -/
def Memory.word (m : Memory) (p : ℕ) : ℤ := le32 ((m.drop p).take 4)

/-- A block with a payload. -/
structure ResultBlock (m : Memory) (ptr : ℤ) (payload : Bytes) : Prop where
  address : 0 ≤ ptr
  inside : ptr.toNat + 8 + payload.length ≤ m.length
  length : m.word ptr.toNat = 8 + payload.length
  payload : (m.drop (ptr.toNat + 8)).take payload.length = payload

/-- A block with a message. -/
structure MessageBlock (m : Memory) (ptr : ℤ) (bytes : Bytes) : Prop where
  address : 0 ≤ ptr
  inside : ptr.toNat + 12 + bytes.length ≤ m.length
  sentinel : m.word ptr.toNat = messageSentinel
  length : m.word (ptr.toNat + 8) = 12 + bytes.length
  bytes : (m.drop (ptr.toNat + 12)).take bytes.length = bytes

/-- What an export returned is decoded to what its block holds, and anything else is an error,
with and without checks for overflow. -/
structure ExactReturn (m : Memory) (ret : Int32) : Prop where
  result : ∀ checks payload, ResultBlock m ret.toInt payload →
    decodeReturn checks (some m) ret = .ok payload
  message : ∀ checks bytes, MessageBlock m ret.toInt bytes →
    decodeReturn checks (some m) ret = .error (.run (.message (Text.fromUtf8Lossy bytes)))
  other : ∀ checks, (∀ payload, ¬ ResultBlock m ret.toInt payload) →
    (∀ bytes, ¬ MessageBlock m ret.toInt bytes) →
      ∃ e, decodeReturn checks (some m) ret = .error (.run e) ∧ ∀ text, e ≠ .message text

/-- What the guest hands over is the payload of its block, and nothing when there is none. -/
structure ExactEncoded (m : Memory) (ptr : Int32) : Prop where
  result : ∀ checks payload, 0 < ptr.toInt → ResultBlock m ptr.toInt payload →
    readEncoded checks (some m) ptr = .ok (some payload)
  other : ∀ checks, (0 < ptr.toInt → ∀ payload, ¬ ResultBlock m ptr.toInt payload) →
    readEncoded checks (some m) ptr = .ok none

/-- The blocks have room for a message's header, and no sum leaves 32 bits. -/
structure RoomyReturn (m : Memory) (ret : ℤ) : Prop where
  room : ∀ payload, ResultBlock m ret payload → ret.toNat + 12 ≤ m.length
  message : 0 ≤ ret → ret.toNat + 12 ≤ m.length → m.word ret.toNat = messageSentinel →
    -2 ^ 31 + 12 ≤ m.word (ret.toNat + 8) ∧ (12 ≤ m.word (ret.toNat + 8) → ret + 12 < 2 ^ 31)
  result : 0 ≤ ret → ret.toNat + 12 ≤ m.length → 8 ≤ m.word ret.toNat → ret + 8 < 2 ^ 31

/-- No sum leaves 32 bits. -/
def RoomyEncoded (m : Memory) (ptr : ℤ) : Prop :=
  0 < ptr → ptr.toNat + 8 ≤ m.length → 8 ≤ m.word ptr.toNat → ptr + 8 < 2 ^ 31

section Reading
variable {m : Memory} {offset len : ℕ} {checks : Bool} {n : ℤ}

theorem Memory.read_of_le (h : offset + len ≤ m.length) :
    m.read offset len = some ((m.drop offset).take len) := if_pos h

theorem Memory.read_of_lt (h : m.length < offset + len) : m.read offset len = none :=
  if_neg (not_le.mpr h)

theorem Memory.readAt_of_le (h : offset + len ≤ m.length) :
    m.readAt offset len = .ok ((m.drop offset).take len) := by
  rw [Memory.readAt, Memory.read_of_le h]

theorem Memory.readAt_of_lt (h : m.length < offset + len) :
    m.readAt offset len = .error (.run (.malformed "out of bounds memory access")) := by
  rw [Memory.readAt, Memory.read_of_lt h]

theorem le32_fits (bytes : Bytes) : Fits (le32 bytes) :=
  ⟨BitVec.le_toInt _, BitVec.toInt_lt⟩

theorem int32_fits (n : Int32) : Fits n.toInt := ⟨n.le_toInt, n.toInt_lt⟩

theorem asUsize_of_fits (h : Fits n) (hn : 0 ≤ n) : asUsize n = n.toNat := by
  obtain ⟨-, hhigh⟩ := h
  rw [asUsize, Int.emod_eq_of_lt hn (by omega)]

theorem i32_of_fits (h : Fits n) : i32 checks n = .ok n := if_pos h

theorem i32_overflow (h : ¬ Fits n) : i32 true n = .error .overflow := by
  rw [i32, if_neg h, if_pos rfl]

@[simp] theorem le32_header (p k : ℕ) : le32 (((m.drop p).take (4 + k)).take 4) = m.word p := by
  rw [List.take_take, min_eq_left (Nat.le_add_right 4 k), Memory.word]

@[simp]
theorem le32_length (p : ℕ) : le32 ((((m.drop p).take 12).drop 8).take 4) = m.word (p + 8) := by
  rw [List.drop_take, List.drop_drop, List.take_take, Memory.word]
  rfl

end Reading

section Results
variable {m : Memory} {ptr : ℤ} {checks : Bool} {payload : Bytes}

theorem ResultBlock.of_inside (hn : 0 ≤ ptr) (hlen : 8 ≤ m.word ptr.toNat)
    (h : ptr.toNat + 8 + (m.word ptr.toNat - 8).toNat ≤ m.length) :
    ResultBlock m ptr ((m.drop (ptr.toNat + 8)).take (m.word ptr.toNat - 8).toNat) := by
  have hlength : ((m.drop (ptr.toNat + 8)).take (m.word ptr.toNat - 8).toNat).length =
      (m.word ptr.toNat - 8).toNat := by
    rw [List.length_take, List.length_drop, min_eq_left (by omega)]
  refine ⟨hn, ?_, ?_, ?_⟩
  · rw [hlength]
    exact h
  · rw [hlength]
    omega
  · rw [hlength]

theorem ResultBlock.eight_le (h : ResultBlock m ptr payload) : 8 ≤ m.word ptr.toNat := by
  have hlength := h.length
  omega

theorem ResultBlock.read (h : ResultBlock m ptr payload) :
    m.read (ptr.toNat + 8) (m.word ptr.toNat - 8).toNat = some payload := by
  have hinside := h.inside
  have hlen : (m.word ptr.toNat - 8).toNat = payload.length := by
    rw [h.length]
    omega
  rw [hlen, Memory.read_of_le hinside, h.payload]

/-- Without a block the payload lies outside. -/
theorem outside_of_no_block (hn : 0 ≤ ptr) (hlen : 8 ≤ m.word ptr.toNat)
    (h : ∀ payload, ¬ ResultBlock m ptr payload) :
    m.length < ptr.toNat + 8 + (m.word ptr.toNat - 8).toNat := by
  by_contra hinside
  exact h _ (ResultBlock.of_inside hn hlen (not_lt.mp hinside))

/-- What is read of a result once its length is known. -/
def resultAfter (checks : Bool) (m : Memory) (ptr len : ℤ) : Except Failure Bytes := do
  if len < 8 then .error (.run (.malformed s!"result length {len} is shorter than its own header"))
  else
    let start ← i32 checks (ptr + 8)
    m.readAt (asUsize start) (len - 8).toNat

theorem readResult_of_le (hptr : Fits ptr) (hn : 0 ≤ ptr) (h : ptr.toNat + 8 ≤ m.length) :
    readResult checks m ptr = resultAfter checks m ptr (m.word ptr.toNat) := by
  rw [readResult, asUsize_of_fits hptr hn, Memory.readAt_of_le h, ← le32_header ptr.toNat 4]
  rfl

theorem start_of_lt {k : ℕ} (hn : 0 ≤ ptr) (h : ptr + k < 2 ^ 31) :
    i32 checks (ptr + k) = .ok (ptr + k) ∧ asUsize (ptr + k) = ptr.toNat + k := by
  have hfits : Fits (ptr + k) := ⟨by omega, h⟩
  refine ⟨i32_of_fits hfits, ?_⟩
  rw [asUsize_of_fits hfits (by omega)]
  omega

theorem resultAfter_of_lt {len : ℤ} (hn : 0 ≤ ptr) (hlen : 8 ≤ len) (h : ptr + 8 < 2 ^ 31) :
    resultAfter checks m ptr len = m.readAt (ptr.toNat + 8) (len - 8).toNat := by
  obtain ⟨hsum, hstart⟩ :
      i32 checks (ptr + 8) = .ok (ptr + 8) ∧ asUsize (ptr + 8) = ptr.toNat + 8 :=
    @start_of_lt _ checks 8 hn h
  rw [resultAfter, if_neg (by omega), hsum, ← hstart]
  rfl

theorem resultAfter_overflow {len : ℤ} (hlen : 8 ≤ len) (h : 2 ^ 31 ≤ ptr + 8) :
    resultAfter true m ptr len = .error .overflow := by
  rw [resultAfter, if_neg (by omega), i32_overflow fun hfits => absurd hfits.2 (by omega)]
  rfl

/-- A result that is no block is malformed, if its start is an address. -/
theorem resultAfter_malformed (checks : Bool) (hn : 0 ≤ ptr)
    (h : ∀ payload, ¬ ResultBlock m ptr payload)
    (hroom : 8 ≤ m.word ptr.toNat → ptr + 8 < 2 ^ 31) :
    ∃ text, resultAfter checks m ptr (m.word ptr.toNat) = .error (.run (.malformed text)) := by
  by_cases hlen : m.word ptr.toNat < 8
  · exact ⟨_, by rw [resultAfter, if_pos hlen]⟩
  · refine ⟨"out of bounds memory access", ?_⟩
    rw [resultAfter_of_lt hn (not_lt.mp hlen) (hroom (not_lt.mp hlen)),
      Memory.readAt_of_lt (outside_of_no_block hn (not_lt.mp hlen) h)]

end Results

section Messages
variable {m : Memory} {ptr : ℤ} {checks : Bool} {bytes : Bytes}

theorem MessageBlock.of_inside (hn : 0 ≤ ptr) (hs : m.word ptr.toNat = messageSentinel)
    (hlen : 12 ≤ m.word (ptr.toNat + 8))
    (h : ptr.toNat + 12 + (m.word (ptr.toNat + 8) - 12).toNat ≤ m.length) :
    MessageBlock m ptr
      ((m.drop (ptr.toNat + 12)).take (m.word (ptr.toNat + 8) - 12).toNat) := by
  have hlength : ((m.drop (ptr.toNat + 12)).take (m.word (ptr.toNat + 8) - 12).toNat).length =
      (m.word (ptr.toNat + 8) - 12).toNat := by
    rw [List.length_take, List.length_drop, min_eq_left (by omega)]
  refine ⟨hn, ?_, hs, ?_, ?_⟩
  · rw [hlength]
    exact h
  · rw [hlength]
    omega
  · rw [hlength]

theorem MessageBlock.twelve_le (h : MessageBlock m ptr bytes) :
    12 ≤ m.word (ptr.toNat + 8) := by
  have hlength := h.length
  omega

theorem MessageBlock.readAt (h : MessageBlock m ptr bytes) :
    m.readAt (ptr.toNat + 12) (m.word (ptr.toNat + 8) - 12).toNat = .ok bytes := by
  have hinside := h.inside
  have hlen : (m.word (ptr.toNat + 8) - 12).toNat = bytes.length := by
    rw [h.length]
    omega
  rw [hlen, Memory.readAt_of_le hinside, h.bytes]

/-- What is read of a message once its length is known. -/
def messageAfter (checks : Bool) (m : Memory) (ptr total : ℤ) : Except Failure String := do
  let len ← i32 checks (total - 12)
  if len < 0 then
    .error (.run (.malformed s!"error message length {total} is shorter than its own header"))
  else
    let start ← i32 checks (ptr + 12)
    let bytes ← m.readAt (asUsize start) len.toNat
    .ok (Text.fromUtf8Lossy bytes)

theorem readErrorMessage_of_lt (hptr : Fits ptr) (hn : 0 ≤ ptr) (h : m.length < ptr.toNat + 12) :
    readErrorMessage checks m ptr = .error (.run (.malformed "out of bounds memory access")) := by
  rw [readErrorMessage, asUsize_of_fits hptr hn, Memory.readAt_of_lt h]
  rfl

theorem readErrorMessage_of_le (hptr : Fits ptr) (hn : 0 ≤ ptr) (h : ptr.toNat + 12 ≤ m.length) :
    readErrorMessage checks m ptr =
      if m.word ptr.toNat ≠ messageSentinel then .ok none
      else some <$> messageAfter checks m ptr (m.word (ptr.toNat + 8)) := by
  rw [readErrorMessage, asUsize_of_fits hptr hn, Memory.readAt_of_le h, ← le32_header ptr.toNat 8,
    ← le32_length ptr.toNat]
  change (if le32 (((m.drop ptr.toNat).take 12).take 4) ≠ messageSentinel then _ else _) = _
  split_ifs with hs
  · rfl
  · rw [messageAfter, map_bind]
    refine bind_congr fun len => ?_
    split_ifs with hlen
    · rfl
    · simp only [map_bind]
      rfl

theorem messageAfter_of_lt {total : ℤ} (hn : 0 ≤ ptr) (htotal : 12 ≤ total)
    (hfits : Fits total) (h : ptr + 12 < 2 ^ 31) :
    messageAfter checks m ptr total =
      Text.fromUtf8Lossy <$> m.readAt (ptr.toNat + 12) (total - 12).toNat := by
  obtain ⟨hsum, hstart⟩ :
      i32 checks (ptr + 12) = .ok (ptr + 12) ∧ asUsize (ptr + 12) = ptr.toNat + 12 :=
    @start_of_lt _ checks 12 hn h
  obtain ⟨-, hhigh⟩ := hfits
  have hlen : i32 checks (total - 12) = .ok (total - 12) := i32_of_fits ⟨by omega, by omega⟩
  rw [messageAfter, hlen, hsum, ← hstart]
  change (if total - 12 < 0 then _ else _) = _
  rw [if_neg (by omega)]
  rfl

theorem messageAfter_low {total : ℤ} (h : total < -2 ^ 31 + 12) :
    messageAfter true m ptr total = .error .overflow := by
  rw [messageAfter, i32_overflow fun hfits => absurd hfits.1 (by omega)]
  rfl

theorem messageAfter_overflow {total : ℤ} (htotal : 12 ≤ total) (hfits : Fits total)
    (h : 2 ^ 31 ≤ ptr + 12) : messageAfter true m ptr total = .error .overflow := by
  obtain ⟨-, hhigh⟩ := hfits
  have hlen : i32 true (total - 12) = .ok (total - 12) := i32_of_fits ⟨by omega, by omega⟩
  rw [messageAfter, hlen, i32_overflow fun hfits => absurd hfits.2 (by omega)]
  change (if total - 12 < 0 then _ else _) = _
  rw [if_neg (by omega)]
  rfl

/-- A message that is no block is malformed, if its length and its start are numbers. -/
theorem messageAfter_malformed (checks : Bool) (hn : 0 ≤ ptr)
    (hs : m.word ptr.toNat = messageSentinel)
    (h : ∀ bytes, ¬ MessageBlock m ptr bytes)
    (hlow : -2 ^ 31 + 12 ≤ m.word (ptr.toNat + 8))
    (hroom : 12 ≤ m.word (ptr.toNat + 8) → ptr + 12 < 2 ^ 31) :
    ∃ text, messageAfter checks m ptr (m.word (ptr.toNat + 8)) =
      .error (.run (.malformed text)) := by
  have hfits : Fits (m.word (ptr.toNat + 8)) := le32_fits _
  by_cases hlen : m.word (ptr.toNat + 8) < 12
  · have hsum : i32 checks (m.word (ptr.toNat + 8) - 12) = .ok (m.word (ptr.toNat + 8) - 12) :=
      i32_of_fits ⟨by omega, by omega⟩
    rw [messageAfter, hsum]
    exact ⟨_, if_pos (by omega)⟩
  · have hlen := not_lt.mp hlen
    have hout : m.length < ptr.toNat + 12 + (m.word (ptr.toNat + 8) - 12).toNat := by
      by_contra hinside
      exact h _ (MessageBlock.of_inside hn hs hlen (not_lt.mp hinside))
    refine ⟨"out of bounds memory access", ?_⟩
    rw [messageAfter_of_lt hn hlen hfits (hroom hlen), Memory.readAt_of_lt hout]
    rfl

end Messages

section Returns
variable {m : Memory} {ret : Int32} {checks : Bool}

theorem decodeReturn_of_neg {memory : Option Memory} (h : ret.toInt < 0) :
    decodeReturn checks memory ret = .error (.run (.guest ret.toInt)) := if_pos h

theorem decodeReturn_of_lt (hn : 0 ≤ ret.toInt) (h : m.length < ret.toInt.toNat + 12) :
    decodeReturn checks (some m) ret =
      .error (.run (.malformed "out of bounds memory access")) := by
  rw [decodeReturn, if_neg (not_lt.mpr hn)]
  rw [readErrorMessage_of_lt (int32_fits ret) hn h]
  rfl

theorem decodeReturn_of_result (hn : 0 ≤ ret.toInt) (h : ret.toInt.toNat + 12 ≤ m.length)
    (hs : m.word ret.toInt.toNat ≠ messageSentinel) :
    decodeReturn checks (some m) ret =
      resultAfter checks m ret.toInt (m.word ret.toInt.toNat) := by
  rw [decodeReturn, if_neg (not_lt.mpr hn)]
  rw [readErrorMessage_of_le (int32_fits ret) hn h, if_pos hs]
  exact readResult_of_le (int32_fits ret) hn (by omega)

theorem decodeReturn_of_message (hn : 0 ≤ ret.toInt) (h : ret.toInt.toNat + 12 ≤ m.length)
    (hs : m.word ret.toInt.toNat = messageSentinel) :
    decodeReturn checks (some m) ret =
      messageAfter checks m ret.toInt (m.word (ret.toInt.toNat + 8)) >>= fun message =>
        .error (.run (.message message)) := by
  rw [decodeReturn, if_neg (not_lt.mpr hn)]
  rw [readErrorMessage_of_le (int32_fits ret) hn h, if_neg (not_not.mpr hs), bind_map_left]

theorem ResultBlock.not_sentinel {ptr : ℤ} {payload : Bytes} (h : ResultBlock m ptr payload) :
    m.word ptr.toNat ≠ messageSentinel := by
  have hlen := h.eight_le
  rw [messageSentinel]
  omega

theorem MessageBlock.room {ptr : ℤ} {bytes : Bytes} (h : MessageBlock m ptr bytes) :
    ptr.toNat + 12 ≤ m.length := by
  have hinside := h.inside
  omega

/-- A return that is decoded to what its block holds never overflows. -/
theorem ExactReturn.not_overflow (h : ExactReturn m ret) (checks : Bool) :
    decodeReturn checks (some m) ret ≠ .error .overflow := by
  intro hover
  by_cases hresult : ∃ payload, ResultBlock m ret.toInt payload
  · obtain ⟨payload, hblock⟩ := hresult
    cases hover.symm.trans (h.result checks payload hblock)
  by_cases hmessage : ∃ bytes, MessageBlock m ret.toInt bytes
  · obtain ⟨bytes, hblock⟩ := hmessage
    cases hover.symm.trans (h.message checks bytes hblock)
  obtain ⟨e, he, -⟩ := h.other checks (not_exists.mp hresult) (not_exists.mp hmessage)
  cases hover.symm.trans he

theorem ExactReturn.roomy (h : ExactReturn m ret) : RoomyReturn m ret.toInt := by
  refine ⟨fun payload hblock => ?_, fun hn hroom hs => ?_, fun hn hroom hlen => ?_⟩
  · by_contra hshort
    have hok := h.result true payload hblock
    rw [decodeReturn_of_lt hblock.address (not_le.mp hshort)] at hok
    cases hok
  · have hfits : Fits (m.word (ret.toInt.toNat + 8)) := le32_fits _
    have hnot := h.not_overflow true
    rw [decodeReturn_of_message hn hroom hs] at hnot
    refine ⟨not_lt.mp fun hlow => hnot ?_, fun htotal => not_le.mp fun hhigh => hnot ?_⟩
    · rw [messageAfter_low hlow]
      rfl
    · rw [messageAfter_overflow htotal hfits hhigh]
      rfl
  · have hs : m.word ret.toInt.toNat ≠ messageSentinel := by
      rw [messageSentinel]
      omega
    have hnot := h.not_overflow true
    rw [decodeReturn_of_result hn hroom hs] at hnot
    exact not_le.mp fun hhigh => hnot (resultAfter_overflow hlen hhigh)

theorem RoomyReturn.exact (h : RoomyReturn m ret.toInt) : ExactReturn m ret := by
  refine ⟨fun checks payload hblock => ?_, fun checks bytes hblock => ?_,
    fun checks hresult hmessage => ?_⟩
  · have hn := hblock.address
    have hroom := h.room payload hblock
    rw [decodeReturn_of_result hn hroom hblock.not_sentinel,
      resultAfter_of_lt hn hblock.eight_le (h.result hn hroom hblock.eight_le),
      Memory.readAt, hblock.read]
  · have hn := hblock.address
    have hfits : Fits (m.word (ret.toInt.toNat + 8)) := le32_fits _
    obtain ⟨-, hstart⟩ := h.message hn hblock.room hblock.sentinel
    rw [decodeReturn_of_message hn hblock.room hblock.sentinel,
      messageAfter_of_lt hn hblock.twelve_le hfits (hstart hblock.twelve_le), hblock.readAt]
    rfl
  · by_cases hneg : ret.toInt < 0
    · exact ⟨_, decodeReturn_of_neg hneg, fun text => RunError.noConfusion⟩
    have hn := not_lt.mp hneg
    by_cases hshort : m.length < ret.toInt.toNat + 12
    · exact ⟨_, decodeReturn_of_lt hn hshort, fun text => RunError.noConfusion⟩
    have hroom := not_lt.mp hshort
    by_cases hs : m.word ret.toInt.toNat = messageSentinel
    · obtain ⟨hlow, hstart⟩ := h.message hn hroom hs
      obtain ⟨text, htext⟩ :=
        messageAfter_malformed checks hn hs hmessage hlow hstart
      refine ⟨.malformed text, ?_, fun text => RunError.noConfusion⟩
      rw [decodeReturn_of_message hn hroom hs, htext]
      rfl
    · obtain ⟨text, htext⟩ :=
        resultAfter_malformed checks hn hresult (h.result hn hroom)
      refine ⟨.malformed text, ?_, fun text => RunError.noConfusion⟩
      rw [decodeReturn_of_result hn hroom hs, htext]

/-- A source's message is told in its own words. -/
theorem ExactReturn.message_text (h : ExactReturn m ret) {text : List Char}
    (hblock : MessageBlock m ret.toInt (Text.utf8 text)) :
    decodeReturn checks (some m) ret = .error (.run (.message (String.ofList text))) := by
  rw [h.message checks _ hblock, Text.fromUtf8Lossy_utf8]

end Returns

section Encoded
variable {m : Memory} {ptr : Int32} {checks : Bool}

/-- What is read of a block that is handed over once its length is known. -/
def encodedAfter (checks : Bool) (m : Memory) (ptr len : ℤ) : Except Failure (Option Bytes) :=
  if len < 8 then .ok none
  else do
    let start ← i32 checks (ptr + 8)
    .ok (m.read (asUsize start) (len - 8).toNat)

theorem readEncoded_of_lt (hn : 0 < ptr.toInt) (h : m.length < ptr.toInt.toNat + 8) :
    readEncoded checks (some m) ptr = .ok none := by
  have hread : m.read (asUsize ptr.toInt) 8 = none := by
    rw [asUsize_of_fits (int32_fits ptr) hn.le, Memory.read_of_lt h]
  rw [readEncoded, if_neg (not_le.mpr hn)]
  change (match m.read (asUsize ptr.toInt) 8 with | none => _ | some header => _) = _
  rw [hread]

theorem readEncoded_of_le (hn : 0 < ptr.toInt) (h : ptr.toInt.toNat + 8 ≤ m.length) :
    readEncoded checks (some m) ptr =
      encodedAfter checks m ptr.toInt (m.word ptr.toInt.toNat) := by
  have hread : m.read (asUsize ptr.toInt) 8 = some ((m.drop ptr.toInt.toNat).take 8) := by
    rw [asUsize_of_fits (int32_fits ptr) hn.le, Memory.read_of_le h]
  rw [readEncoded, if_neg (not_le.mpr hn), ← le32_header ptr.toInt.toNat 4]
  change (match m.read (asUsize ptr.toInt) 8 with | none => _ | some header => _) = _
  rw [hread]
  rfl

theorem encodedAfter_of_lt {len : ℤ} {p : ℤ} (hn : 0 ≤ p) (hlen : 8 ≤ len) (h : p + 8 < 2 ^ 31) :
    encodedAfter checks m p len = .ok (m.read (p.toNat + 8) (len - 8).toNat) := by
  obtain ⟨hsum, hstart⟩ :
      i32 checks (p + 8) = .ok (p + 8) ∧ asUsize (p + 8) = p.toNat + 8 :=
    @start_of_lt _ checks 8 hn h
  rw [encodedAfter, if_neg (by omega), hsum, ← hstart]
  rfl

theorem encodedAfter_overflow {len : ℤ} {p : ℤ} (hlen : 8 ≤ len) (h : 2 ^ 31 ≤ p + 8) :
    encodedAfter true m p len = .error .overflow := by
  rw [encodedAfter, if_neg (by omega), i32_overflow fun hfits => absurd hfits.2 (by omega)]
  rfl

theorem ExactEncoded.not_overflow (h : ExactEncoded m ptr) (checks : Bool) :
    readEncoded checks (some m) ptr ≠ .error .overflow := by
  intro hover
  by_cases hresult : 0 < ptr.toInt ∧ ∃ payload, ResultBlock m ptr.toInt payload
  · obtain ⟨hn, payload, hblock⟩ := hresult
    cases hover.symm.trans (h.result checks payload hn hblock)
  · have hnone : 0 < ptr.toInt → ∀ payload, ¬ ResultBlock m ptr.toInt payload :=
      fun hn payload hblock => hresult ⟨hn, payload, hblock⟩
    cases hover.symm.trans (h.other checks hnone)

theorem ExactEncoded.roomy (h : ExactEncoded m ptr) : RoomyEncoded m ptr.toInt := by
  intro hn hroom hlen
  have hnot := h.not_overflow true
  rw [readEncoded_of_le hn hroom] at hnot
  exact not_le.mp fun hhigh => hnot (encodedAfter_overflow hlen hhigh)

theorem RoomyEncoded.exact (h : RoomyEncoded m ptr.toInt) : ExactEncoded m ptr := by
  refine ⟨fun checks payload hn hblock => ?_, fun checks hnone => ?_⟩
  · have hinside := hblock.inside
    have hroom : ptr.toInt.toNat + 8 ≤ m.length := by omega
    rw [readEncoded_of_le hn hroom,
      encodedAfter_of_lt hn.le hblock.eight_le (h hn hroom hblock.eight_le), hblock.read]
  · by_cases hnull : ptr.toInt ≤ 0
    · exact if_pos hnull
    have hn := not_le.mp hnull
    by_cases hshort : m.length < ptr.toInt.toNat + 8
    · exact readEncoded_of_lt hn hshort
    have hroom := not_lt.mp hshort
    rw [readEncoded_of_le hn hroom]
    by_cases hlen : m.word ptr.toInt.toNat < 8
    · exact if_pos hlen
    · have hlen := not_lt.mp hlen
      rw [encodedAfter_of_lt hn.le hlen (h hn hroom hlen),
        Memory.read_of_lt (outside_of_no_block hn.le hlen (hnone hn))]

end Encoded

/-- Blocks are read as they are exactly when a message's header would have room wherever a result
stands, and no address or length that is added to leaves 32 bits. -/
theorem blocks_exact_iff (m : Memory) (ptr : Int32) :
    (ExactReturn m ptr ↔ RoomyReturn m ptr.toInt) ∧
      (ExactEncoded m ptr ↔ RoomyEncoded m ptr.toInt) :=
  ⟨⟨ExactReturn.roomy, RoomyReturn.exact⟩, ⟨ExactEncoded.roomy, RoomyEncoded.exact⟩⟩

/-- A page of memory, zero up to its last bytes. -/
def pageEnding (bytes : Bytes) : Memory := List.replicate (65536 - bytes.length) 0 ++ bytes

theorem length_pageEnding {bytes : Bytes} (h : bytes.length ≤ 65536) :
    (pageEnding bytes).length = 65536 := by
  rw [pageEnding, List.length_append, List.length_replicate]
  omega

theorem drop_pageEnding {bytes : Bytes} {p : ℕ} (h : p + bytes.length = 65536) (n : ℕ) :
    (pageEnding bytes).drop (p + n) = bytes.drop n := by
  have hzeros : (List.replicate (65536 - bytes.length) (0 : UInt8)).length = p := by
    rw [List.length_replicate]
    omega
  rw [pageEnding, ← List.drop_drop, List.drop_left' hzeros]

/-- A page that ends with a block of one byte. -/
def lastBlock : Memory := pageEnding [9, 0, 0, 0, 9, 0, 0, 0, 7]

theorem lastBlock_malformed :
    ResultBlock lastBlock (65527 : Int32).toInt [7] ∧
      decodeReturn true (some lastBlock) 65527 =
        .error (.run (.malformed "out of bounds memory access")) ∧
      ¬ ExactReturn lastBlock 65527 := by
  have haddress : (65527 : Int32).toInt.toNat = 65527 := by decide
  have hlength : lastBlock.length = 65536 := length_pageEnding (by decide)
  have hword : lastBlock.drop 65527 = [9, 0, 0, 0, 9, 0, 0, 0, 7] := drop_pageEnding rfl 0
  have hrest : lastBlock.drop (65527 + 8) = [7] := drop_pageEnding rfl 8
  have hblock : ResultBlock lastBlock (65527 : Int32).toInt [7] := by
    refine ⟨by decide, ?_, ?_, ?_⟩
    · rw [haddress, hlength]
      decide
    · rw [haddress, Memory.word, hword]
      decide
    · rw [haddress, hrest]
      rfl
  have hshort : lastBlock.length < (65527 : Int32).toInt.toNat + 12 := by
    rw [haddress, hlength]
    decide
  have hmalformed (checks : Bool) :
      decodeReturn checks (some lastBlock) 65527 =
        .error (.run (.malformed "out of bounds memory access")) :=
    decodeReturn_of_lt (by decide) hshort
  refine ⟨hblock, hmalformed true, fun hexact => ?_⟩
  cases (hmalformed true).symm.trans (hexact.result true [7] hblock)

end Runtime
end Nyuka
