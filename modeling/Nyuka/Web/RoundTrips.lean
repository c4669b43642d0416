import Nyuka.Web.Postcard

/-! From values to bytes and back, and from bytes to values and back. -/
namespace Nyuka.Web.Postcard
open Text Varints

/-- A text that is read as it was written: it has no mark in front, and its length takes no more
than five bytes. -/
structure Readable (s : String) : Prop where
  mark : s.toList.head? ≠ some markChar
  length : (utf8 s.toList).length < 2 ^ 35

/-- The values that come back. -/
def Value.Returns (maxArguments : ℕ) : Value → Prop
  | bool _ => True
  | string s => Readable s ∧ (utf8 s.toList).length ≤ maxArguments
  | strings items => items.length < 2 ^ 35 ∧
    ∀ s ∈ items, Readable s ∧ (utf8 s.toList).length ≤ maxArguments
  | int n => -2 ^ 34 ≤ n ∧ n < 2 ^ 34

namespace Frame

/-- A text as the serializer writes it. -/
def of (s : String) : Frame := ⟨Runtime.Postcard.varint (utf8 s.toList).length, utf8 s.toList⟩

@[simp] theorem bytes_of (s : String) : (of s).bytes = Runtime.Postcard.string s :=
  (string_eq s).symm

theorem denotes_of (s : String) : Denotes (of s).head (of s).payload.length := denotes_varint _

@[simp] theorem valid_of_iff {s : String} : (of s).Valid ↔ (utf8 s.toList).length < 2 ^ 35 := by
  rw [← length_varint_le_iff]
  exact ⟨Valid.short, fun h => ⟨denotes_of s, h⟩⟩

@[simp] theorem text_of_iff {s : String} : (of s).text = s ↔ s.toList.head? ≠ some markChar :=
  textDecode_toList_iff

/-- Where a frame ends follows from how it begins. -/
theorem append_inj {f g : Frame} {s t : Bytes} (hf : Denotes f.head f.payload.length)
    (hg : Denotes g.head g.payload.length) (h : f.bytes ++ s = g.bytes ++ t) : f = g ∧ s = t := by
  obtain ⟨head, payload⟩ := f
  obtain ⟨head', payload'⟩ := g
  simp only [bytes, List.append_assoc] at h
  obtain ⟨rfl, hlength, hrest⟩ := hf.append_inj hg h
  obtain ⟨rfl, rfl⟩ := List.append_inj hrest hlength
  exact ⟨rfl, rfl⟩

theorem flatMap_inj {fs gs : List Frame} (hfs : ∀ f ∈ fs, Denotes f.head f.payload.length)
    (hgs : ∀ g ∈ gs, Denotes g.head g.payload.length) (hlength : fs.length = gs.length)
    (h : fs.flatMap bytes = gs.flatMap bytes) : fs = gs := by
  induction fs generalizing gs with
  | nil => exact (List.length_eq_zero_iff.mp hlength.symm).symm
  | cons f fs ih =>
    obtain ⟨g, gs, rfl⟩ := List.exists_cons_of_length_eq_add_one hlength.symm
    rw [List.forall_mem_cons] at hfs hgs
    obtain ⟨rfl, hrest⟩ := append_inj hfs.1 hgs.1 h
    rw [ih hfs.2 hgs.2 (Nat.succ.inj hlength) hrest]

end Frame

section RoundTrip
variable {s : String} {items : List String} {maxArguments : ℕ}

theorem strings_eq (items : List String) : Runtime.Postcard.strings items =
    Runtime.Postcard.varint items.length ++ (items.map Frame.of).flatMap Frame.bytes := by
  rw [Runtime.Postcard.strings, List.flatMap_map]
  simp only [Frame.bytes_of]

theorem map_text_iff : (∀ s ∈ items, (Frame.of s).text = s) ↔
    items = items.map (Frame.text ∘ Frame.of) := by
  conv_rhs => rw [eq_comm, ← List.map_id items, List.map_map, List.map_inj_left]
  rfl

/-- What the serializer writes for a text is read as the text. -/
theorem decode_serialized_string :
    decode (Runtime.Postcard.string s) .string = .ok (.string s) ↔ Readable s := by
  rw [decode_string]
  constructor
  · rintro ⟨f, hvalid, hraw, hvalue⟩
    have hsame : (Frame.of s).bytes ++ [] = f.bytes ++ [] := by rw [Frame.bytes_of, hraw]
    obtain ⟨rfl, -⟩ := Frame.append_inj (Frame.denotes_of s) hvalid.length hsame
    rw [Value.string.injEq, eq_comm] at hvalue
    exact ⟨Frame.text_of_iff.mp hvalue, Frame.valid_of_iff.mp hvalid⟩
  · rintro ⟨hmark, hlength⟩
    refine ⟨.of s, Frame.valid_of_iff.mpr hlength, (Frame.bytes_of s).symm, ?_⟩
    rw [Frame.text_of_iff.mpr hmark]

theorem decode_serialized_strings :
    decode (Runtime.Postcard.strings items) .stringList = .ok (.strings items) ↔
      items.length < 2 ^ 35 ∧ ∀ s ∈ items, Readable s := by
  rw [decode_stringList, strings_eq]
  constructor
  · rintro ⟨head, frames, hdenotes, hshort, hvalid, hraw, hvalue⟩
    obtain ⟨rfl, hlength, hframes⟩ := (denotes_varint _).append_inj hdenotes hraw
    have hof : items.map Frame.of = frames := by
      refine Frame.flatMap_inj (List.forall_mem_map.mpr fun s _ => Frame.denotes_of s)
        (fun f hf => (hvalid f hf).length) ?_ hframes
      rw [List.length_map, hlength]
    subst hof
    refine ⟨length_varint_le_iff.mp hshort, fun s hs => ⟨Frame.text_of_iff.mp ?_, ?_⟩⟩
    · rw [Value.strings.injEq, List.map_map, ← map_text_iff] at hvalue
      exact hvalue s hs
    · exact Frame.valid_of_iff.mp (hvalid _ (List.mem_map_of_mem hs))
  · rintro ⟨hlength, hitems⟩
    refine ⟨_, items.map Frame.of, ?_, length_varint_le_iff.mpr hlength,
      List.forall_mem_map.mpr fun s hs => Frame.valid_of_iff.mpr (hitems s hs).length, rfl, ?_⟩
    · rw [List.length_map]
      exact denotes_varint _
    · rw [List.map_map, Value.strings.injEq, ← map_text_iff]
      exact fun s hs => Frame.text_of_iff.mpr (hitems s hs).mark

end RoundTrip

section Doubles
variable {n : ℕ}

theorem nearest_of_lt (h : n < 2 ^ 53) : nearest n = n := by
  have hlog : n.log2 - 52 = 0 := by
    by_cases hzero : n = 0
    · rw [hzero]
      rfl
    · exact Nat.sub_eq_zero_of_le (Nat.le_of_lt_succ ((Nat.log2_lt hzero).mpr h))
  unfold nearest
  rw [hlog]
  simp only [Nat.pow_zero, Nat.mod_one, Nat.div_one]
  simp

/-- Rounding stays above a number of 52 bits. -/
theorem le_nearest {k : ℕ} (hk : k ≤ 2 ^ 52) (h : k ≤ n) : k ≤ nearest n := by
  by_cases hlt : n < 2 ^ 53
  · rwa [nearest_of_lt hlt]
  · have hzero : n ≠ 0 := by omega
    have hlog : 52 ≤ n.log2 := (Nat.le_log2 hzero).mpr (by omega)
    have hunit : 2 ^ 52 * 2 ^ (n.log2 - 52) ≤ n := by
      rw [← Nat.pow_add, Nat.add_sub_cancel' hlog]
      exact Nat.log2_self_le hzero
    have hpos : 0 < 2 ^ (n.log2 - 52) := Nat.two_pow_pos _
    have hmantissa := (Nat.le_div_iff_mul_le hpos).mpr hunit
    have hself := Nat.le_mul_of_pos_right (n / 2 ^ (n.log2 - 52)) hpos
    have hnext := Nat.le_mul_of_pos_right (n / 2 ^ (n.log2 - 52) + 1) hpos
    unfold nearest
    dsimp only
    split
    · omega
    · omega

/-- Zigzag is undone where its number takes no more than five bytes. -/
theorem unzigzag_zigzag {value : ℤ} (hlow : -2 ^ 34 ≤ value) (hhigh : value < 2 ^ 34) :
    zigzag value < 2 ^ 35 ∧ unzigzag (zigzag value) = value := by
  unfold zigzag
  split
  · rw [nearest_of_lt (n := value.natAbs * 2) (by omega), nearest_of_lt (by omega)]
    unfold unzigzag
    split <;> omega
  · rw [nearest_of_lt (by omega)]
    unfold unzigzag
    split <;> omega

theorem le_zigzag {value : ℤ} (h : value < -2 ^ 34 ∨ 2 ^ 34 ≤ value) : 2 ^ 35 ≤ zigzag value := by
  unfold zigzag
  split
  · have hdouble : 2 ^ 35 + 1 ≤ nearest (value.natAbs * 2) := le_nearest (by decide) (by omega)
    exact le_nearest (by decide) (by omega)
  · exact le_nearest (by decide) (by omega)

theorem zigzag_unzigzag (h : n < 2 ^ 35) : zigzag (unzigzag n) = n := by
  unfold unzigzag
  split
  · rw [zigzag, if_neg (by omega), nearest_of_lt (by omega)]
    omega
  · rw [zigzag, if_pos (by omega), nearest_of_lt (n := _ * 2) (by omega), nearest_of_lt (by omega)]
    omega

end Doubles

section Results
variable (maxArguments : ℕ)

/-- A value is written and read again. -/
def roundTrip (v : Value) : Except Thrown Value := do
  let raw ← encode maxArguments v v.type
  decode raw v.type

theorem roundTrip_eq_ok_iff (v : Value) : roundTrip maxArguments v = .ok v ↔
    v.Returns maxArguments := by
  rw [roundTrip, Results.bind_eq_ok]
  cases v with
  | bool b =>
    refine iff_of_true ⟨_, rfl, ?_⟩ trivial
    exact decode_bool.mpr ⟨b, rfl, rfl⟩
  | string s =>
    constructor
    · rintro ⟨raw, hencode, hdecode⟩
      obtain ⟨hfew, rfl⟩ := writeString_eq_ok.mp hencode
      exact ⟨decode_serialized_string.mp hdecode, hfew⟩
    · rintro ⟨hreadable, hfew⟩
      exact ⟨_, writeString_eq_ok.mpr ⟨hfew, rfl⟩, decode_serialized_string.mpr hreadable⟩
  | strings items =>
    constructor
    · rintro ⟨raw, hencode, hdecode⟩
      obtain ⟨hfew, rfl⟩ := encode_stringList.mp hencode
      obtain ⟨hlength, hreadable⟩ := decode_serialized_strings.mp hdecode
      exact ⟨hlength, fun s hs => ⟨hreadable s hs, hfew s hs⟩⟩
    · rintro ⟨hlength, hitems⟩
      have hdecode := decode_serialized_strings.mpr ⟨hlength, fun s hs => (hitems s hs).1⟩
      exact ⟨_, encode_stringList.mpr ⟨fun s hs => (hitems s hs).2, rfl⟩, hdecode⟩
  | int n =>
    constructor
    · rintro ⟨raw, hencode, hdecode⟩
      obtain rfl := Except.ok.inj (encode_int.symm.trans hencode)
      obtain ⟨m, -, hshort, -⟩ := decode_int.mp hdecode
      have hlt := length_varint_le_iff.mp hshort
      by_contra hout
      have hle : 2 ^ 35 ≤ zigzag n := le_zigzag (by simp only [Value.Returns] at hout; omega)
      exact absurd hlt (Nat.not_lt.mpr hle)
    · rintro ⟨hlow, hhigh⟩
      obtain ⟨hlt, hsame⟩ := unzigzag_zigzag hlow hhigh
      refine ⟨_, encode_int, decode_int.mpr ?_⟩
      exact ⟨zigzag n, denotes_varint _, length_varint_le_iff.mpr hlt, by rw [hsame]⟩

/-- A text that is written back as it was read. -/
structure Frame.Kept (f : Frame) : Prop where
  shortest : ¬ Overlong f.head
  text : ∃ s, f.payload = utf8 s
  mark : ¬ byteOrderMark <+: f.payload
  few : f.payload.length ≤ maxArguments

/-- The bytes of a type that are written back as they were read: the numbers in them are in the
shortest form and the texts are texts without a mark in front. -/
def Canonical (raw : Bytes) : ValueType → Prop
  | .bool => True
  | .string => ∀ f : Frame, f.Valid → raw = f.bytes → f.Kept maxArguments
  | .stringList => ∀ (head : Bytes) (frames : List Frame), Denotes head frames.length →
    head.length ≤ 5 → (∀ f ∈ frames, f.Valid) → raw = head ++ frames.flatMap Frame.bytes →
    ¬ Overlong head ∧ ∀ f ∈ frames, f.Kept maxArguments
  | .int => ∀ n, Denotes raw n → raw.length ≤ 5 → ¬ Overlong raw

/-- A frame is written back if it is kept. -/
theorem kept_iff {f : Frame} (h : f.Valid) : f.Kept maxArguments ↔
    (utf8 f.text.toList).length ≤ maxArguments ∧ f = .of f.text := by
  constructor
  · rintro ⟨hshortest, htext, hmark, hfew⟩
    have hsame : utf8 f.text.toList = f.payload := utf8_textDecode_iff.mpr ⟨htext, hmark⟩
    rw [Frame.of, hsame, ← (eq_varint_iff h.length).mpr hshortest]
    exact ⟨hfew, rfl⟩
  · rintro ⟨hfew, hof⟩
    have hpayload : f.payload = utf8 f.text.toList := congrArg Frame.payload hof
    have hhead : f.head = Runtime.Postcard.varint (utf8 f.text.toList).length :=
      congrArg Frame.head hof
    obtain ⟨htext, hmark⟩ := utf8_textDecode_iff.mp hpayload.symm
    rw [← hpayload] at hhead hfew
    exact ⟨(eq_varint_iff h.length).mp hhead, htext, hmark, hfew⟩

/-- A text that was read is written back if its frame is kept. -/
theorem encode_text_iff {f : Frame} (h : f.Valid) :
    encode maxArguments (.string f.text) .string = .ok f.bytes ↔ f.Kept maxArguments := by
  rw [kept_iff maxArguments h]
  refine writeString_eq_ok.trans (and_congr_right fun _ => ?_)
  rw [← Frame.bytes_of]
  constructor
  · intro hbytes
    exact (Frame.append_inj (s := []) h.length (Frame.denotes_of _) (by rw [hbytes])).1
  · exact fun hof => congrArg Frame.bytes hof

theorem encode_texts_iff {head : Bytes} {frames : List Frame}
    (hdenotes : Denotes head frames.length)
    (hvalid : ∀ f ∈ frames, f.Valid) :
    encode maxArguments (.strings (frames.map Frame.text)) .stringList =
        .ok (head ++ frames.flatMap Frame.bytes) ↔
      ¬ Overlong head ∧ ∀ f ∈ frames, f.Kept maxArguments := by
  rw [encode_stringList, strings_eq, List.map_map, List.length_map, ← eq_varint_iff hdenotes,
    List.forall_mem_map]
  constructor
  · rintro ⟨hfew, hraw⟩
    obtain ⟨hhead, -, hframes⟩ := hdenotes.append_inj (denotes_varint _) hraw
    have hof : ∀ f ∈ frames.map (Frame.of ∘ Frame.text), Denotes f.head f.payload.length :=
      List.forall_mem_map.mpr fun f _ => Frame.denotes_of _
    have hsame := Frame.flatMap_inj (fun f hf => (hvalid f hf).length) hof
      (List.length_map _).symm hframes
    conv_lhs at hsame => rw [← List.map_id frames]
    refine ⟨hhead, fun f hf => (kept_iff maxArguments (hvalid f hf)).mpr ⟨hfew f hf, ?_⟩⟩
    exact List.map_inj_left.mp hsame f hf
  · rintro ⟨hhead, hkept⟩
    have hkept := fun f hf => (kept_iff maxArguments (hvalid f hf)).mp (hkept f hf)
    have hsame : frames.map (Frame.of ∘ Frame.text) = frames := by
      conv_rhs => rw [← List.map_id frames]
      exact List.map_inj_left.mpr fun f hf => (hkept f hf).2.symm
    exact ⟨fun f hf => (hkept f hf).1, by rw [hsame, ← hhead]⟩

theorem encode_number_iff {raw : Bytes} {n : ℕ} (hdenotes : Denotes raw n)
    (hshort : raw.length ≤ 5) :
    encode maxArguments (.int (unzigzag n)) .int = .ok raw ↔ ¬ Overlong raw := by
  have hlt : n < 2 ^ 35 := calc
    n < 128 ^ raw.length := hdenotes.lt
    _ ≤ 128 ^ 5 := Nat.pow_le_pow_right (by decide) hshort
  rw [encode_int, Except.ok.injEq, zigzag_unzigzag hlt, eq_comm]
  exact eq_varint_iff hdenotes

/-- What is read is written back exactly if the bytes are canonical. -/
theorem decode_encode_iff (raw : Bytes) (type : ValueType) :
    (∀ v, decode raw type = .ok v → encode maxArguments v type = .ok raw) ↔
      Canonical maxArguments raw type := by
  cases type with
  | bool =>
    refine iff_of_true (fun v h => ?_) trivial
    obtain ⟨b, rfl, rfl⟩ := decode_bool.mp h
    rfl
  | string =>
    constructor
    · rintro h f hvalid rfl
      exact (encode_text_iff maxArguments hvalid).mp (h _ (decode_string.mpr ⟨f, hvalid, rfl, rfl⟩))
    · intro h v hv
      obtain ⟨f, hvalid, rfl, rfl⟩ := decode_string.mp hv
      exact (encode_text_iff maxArguments hvalid).mpr (h f hvalid rfl)
  | stringList =>
    constructor
    · rintro h head frames hdenotes hshort hvalid rfl
      refine (encode_texts_iff maxArguments hdenotes hvalid).mp (h _ ?_)
      exact decode_stringList.mpr ⟨head, frames, hdenotes, hshort, hvalid, rfl, rfl⟩
    · intro h v hv
      obtain ⟨head, frames, hdenotes, hshort, hvalid, rfl, rfl⟩ := decode_stringList.mp hv
      refine (encode_texts_iff maxArguments hdenotes hvalid).mpr ?_
      exact h head frames hdenotes hshort hvalid rfl
  | int =>
    constructor
    · intro h n hdenotes hshort
      refine (encode_number_iff maxArguments hdenotes hshort).mp (h _ ?_)
      exact decode_int.mpr ⟨n, hdenotes, hshort, rfl⟩
    · intro h v hv
      obtain ⟨n, hdenotes, hshort, rfl⟩ := decode_int.mp hv
      exact (encode_number_iff maxArguments hdenotes hshort).mpr (h n hdenotes hshort)

end Results

end Nyuka.Web.Postcard
