import Mathlib.Data.Char
import Mathlib.Data.List.Lex
import Nyuka.Foundation.Text

/-! The bytes of a text. Texts are in the order of their bytes: a character that is greater is
encoded by bytes that are greater, whatever follows. -/
namespace Text

/-- The bytes of a text in UTF-8. -/
def utf8 (s : List Char) : List UInt8 := s.flatMap String.utf8EncodeChar

/-- The list of bytes that is built from behind. -/
theorem toList_loop (b : ByteArray) (i : ℕ) (bs : List UInt8) :
    ByteArray.toList.loop b i bs = bs.reverse ++ b.data.toList.drop i := by
  fun_induction ByteArray.toList.loop b i bs with
  | case1 i bs hlt ih =>
    have hi : i < b.data.toList.length := hlt
    have hget : b.get! i = b.data.toList[i] := getElem!_pos b.data i hlt
    rw [ih, List.drop_eq_getElem_cons hi, hget, List.reverse_cons, List.append_assoc,
      List.singleton_append]
  | case2 i bs hge =>
    rw [List.drop_of_length_le (Nat.le_of_not_lt hge), List.append_nil]

theorem toList_bytes (b : ByteArray) : b.toList = b.data.toList := by
  rw [ByteArray.toList, toList_loop, List.reverse_nil, List.nil_append, List.drop_zero]

theorem utf8_toList (s : String) : utf8 s.toList = s.toUTF8.data.toList := by
  rw [String.toUTF8_eq_toByteArray, ← String.utf8Encode_toList]
  simp [utf8, List.utf8Encode]

theorem length_utf8 (s : List Char) : (utf8 s).length = bytes s := by
  induction s with
  | nil => rfl
  | cons c s ih =>
    have hcons : utf8 (c :: s) = String.utf8EncodeChar c ++ utf8 s := rfl
    rw [hcons, List.length_append, String.length_utf8EncodeChar, ih]
    rfl

theorem codePoint_lt (c : Char) : c.val.toNat < 1114112 := by
  have hvalid := c.valid
  simp only [UInt32.isValidChar, Nat.isValidChar] at hvalid
  omega

private theorem utf8EncodeChar_append_lt {c d : Char} (h : c < d) (s t : List UInt8) :
    String.utf8EncodeChar c ++ s < String.utf8EncodeChar d ++ t := by
  have hd := codePoint_lt d
  rw [Char.lt_def, UInt32.lt_iff_toNat_lt] at h
  unfold String.utf8EncodeChar
  generalize c.val.toNat = m at *
  generalize d.val.toNat = n at *
  dsimp only
  -- a case for each pair of lengths; the first bytes tell different lengths apart
  split_ifs <;>
    simp only [List.cons_append, List.cons_lt_cons_iff, UInt8.lt_iff_toNat_lt, ← UInt8.toNat_inj,
      UInt8.toNat_ofNat'] <;>
    simp (disch := omega) only [Nat.mod_eq_of_lt] <;>
    omega

private theorem utf8_lt_of_lt {s t : List Char} (h : s < t) : utf8 s < utf8 t := by
  induction s generalizing t with
  | nil =>
    cases t with
    | nil => exact absurd h (List.not_lt_nil _)
    | cons d t =>
      obtain ⟨b, rest, hb⟩ := List.exists_cons_of_ne_nil (String.utf8EncodeChar_ne_nil (c := d))
      show [] < String.utf8EncodeChar d ++ utf8 t
      rw [hb]
      exact List.nil_lt_cons _ _
  | cons c s ih =>
    cases t with
    | nil => exact absurd h (List.not_lt_nil _)
    | cons d t =>
      rcases List.cons_lt_cons_iff.mp h with hlt | ⟨rfl, hlt⟩
      · exact utf8EncodeChar_append_lt hlt _ _
      · exact List.append_left_lt (ih hlt)

/-- The order of the bytes is the order of the characters. -/
@[simp] theorem utf8_lt_iff {s t : List Char} : utf8 s < utf8 t ↔ s < t := by
  constructor
  · intro h
    rcases lt_trichotomy s t with hlt | rfl | hgt
    · exact hlt
    · exact absurd h (List.lt_irrefl _)
    · exact absurd h (List.lt_asymm (utf8_lt_of_lt hgt))
  · exact utf8_lt_of_lt

section Lossy

/-- The second bytes that a first byte of several may have. -/
def secondByte (b : UInt8) : UInt8 × UInt8 :=
  if b = 0xE0 then (0xA0, 0xBF)
  else if b = 0xED then (0x80, 0x9F)
  else if b = 0xF0 then (0x90, 0xBF)
  else if b = 0xF4 then (0x80, 0x8F)
  else if 0xC2 ≤ b && b ≤ 0xF4 then (0x80, 0xBF)
  else (1, 0)

/-- How many bytes are replaced at once where there is no character: as many as one might begin
with, and one at least. -/
def brokenLength : List UInt8 → ℕ
  | b :: c :: rest =>
    if 0xE0 ≤ b && (secondByte b).1 ≤ c && c ≤ (secondByte b).2 then
      if 0xF0 ≤ b && rest.head?.any (fun d => 0x80 ≤ d && d ≤ 0xBF) then 3 else 2
    else 1
  | _ => 1

/-- At most so many characters of `String::from_utf8_lossy`. -/
def lossy : ℕ → List UInt8 → List Char
  | 0, _ => []
  | n + 1, bytes =>
    if bytes = [] then []
    else
      match bytes.toByteArray.utf8DecodeChar? 0 with
      | some c => c :: lossy n (bytes.drop c.utf8Size)
      | none => Char.ofNat 0xFFFD :: lossy n (bytes.drop (brokenLength bytes))

/-- There are no more characters than bytes. -/
def fromUtf8Lossy (bytes : List UInt8) : String := String.ofList (lossy bytes.length bytes)

private theorem lossy_utf8 {n : ℕ} {s : List Char} (h : s.length ≤ n) : lossy n (utf8 s) = s := by
  induction s generalizing n with
  | nil =>
    cases n with
    | zero => rfl
    | succ n => rfl
  | cons c s ih =>
    obtain ⟨n, rfl⟩ : ∃ m, n = m + 1 := ⟨n - 1, by simp only [List.length_cons] at h; omega⟩
    have hcons : utf8 (c :: s) = String.utf8EncodeChar c ++ utf8 s := rfl
    have hne : String.utf8EncodeChar c ++ utf8 s ≠ [] := by simp
    have hdecode : (String.utf8EncodeChar c ++ utf8 s).toByteArray.utf8DecodeChar? 0 = some c := by
      rw [List.toByteArray_append]
      exact ByteArray.utf8DecodeChar?_utf8EncodeChar_append
    have hdrop : (String.utf8EncodeChar c ++ utf8 s).drop c.utf8Size = utf8 s :=
      List.drop_left' (String.length_utf8EncodeChar c)
    rw [hcons, lossy, if_neg hne, hdecode]
    simp only [hdrop]
    rw [ih (Nat.le_of_succ_le_succ h)]

/-- A text in UTF-8 is read as it is. -/
@[simp] theorem fromUtf8Lossy_utf8 (s : List Char) : fromUtf8Lossy (utf8 s) = String.ofList s := by
  have hlength : s.length ≤ (utf8 s).length := by
    rw [length_utf8]
    induction s with
    | nil => exact Nat.le_refl _
    | cons c s ih =>
      have hpos := c.utf8Size_pos
      have hbytes : bytes (c :: s) = c.utf8Size + bytes s := rfl
      rw [List.length_cons, hbytes]
      omega
  rw [fromUtf8Lossy, lossy_utf8 hlength]

end Lossy

/-- A byte below 128 is a character of its own. -/
theorem codePoint_of_mem_utf8EncodeChar {c : Char} {b : UInt8} (hmem : b ∈ String.utf8EncodeChar c)
    (hb : b.toNat < 128) : c.val.toNat = b.toNat := by
  have hc := codePoint_lt c
  unfold String.utf8EncodeChar at hmem
  generalize c.val.toNat = n at *
  dsimp only at hmem
  split_ifs at hmem <;> simp only [List.mem_cons, List.not_mem_nil, or_false] at hmem
  · subst hmem
    simp only [UInt8.toNat_ofNat']
    omega
  · rcases hmem with rfl | rfl <;> simp only [UInt8.toNat_ofNat'] at hb ⊢ <;> omega
  · rcases hmem with rfl | rfl | rfl <;> simp only [UInt8.toNat_ofNat'] at hb ⊢ <;> omega
  · rcases hmem with rfl | rfl | rfl | rfl <;> simp only [UInt8.toNat_ofNat'] at hb ⊢ <;> omega

theorem notMem_utf8_newline {s : List Char} (h : '\n' ∉ s) : (10 : UInt8) ∉ utf8 s := by
  intro hmem
  obtain ⟨c, hc, hbyte⟩ := List.mem_flatMap.mp hmem
  have hval := codePoint_of_mem_utf8EncodeChar hbyte (by decide)
  have hnewline : c = '\n' := Char.ext (UInt32.toNat_inj.mp hval)
  exact h (hnewline ▸ hc)

/-- `from_utf8`: the characters, unless the bytes are no text. -/
def fromUtf8 (bytes : List UInt8) : Option (List Char) :=
  bytes.toByteArray.utf8Decode?.map Array.toList

private theorem toByteArray_utf8 (s : List Char) : (utf8 s).toByteArray = s.utf8Encode := rfl

theorem fromUtf8_eq_some_iff {bytes : List UInt8} {s : List Char} :
    fromUtf8 bytes = some s ↔ bytes = utf8 s := by
  constructor
  · intro h
    obtain ⟨cs, hcs, rfl⟩ := Option.map_eq_some_iff.mp h
    have hsome : bytes.toByteArray.utf8Decode?.isSome := by rw [hcs]; rfl
    have hencode := ByteArray.utf8Encode_get_utf8Decode? (h := hsome)
    simp only [hcs, Option.get_some, ← toByteArray_utf8] at hencode
    have hdata := congrArg (fun b : ByteArray => b.data.toList) hencode
    simpa using hdata.symm
  · rintro rfl
    rw [fromUtf8, toByteArray_utf8, List.utf8Decode?_utf8Encode]
    simp

@[simp] theorem fromUtf8_utf8 (s : List Char) : fromUtf8 (utf8 s) = some s :=
  fromUtf8_eq_some_iff.mpr rfl

/-- A text whose bytes begin with those of a character begins with the character. -/
theorem eq_cons_of_utf8 {s : List Char} {c : Char} {rest : List UInt8}
    (h : utf8 s = String.utf8EncodeChar c ++ rest) : ∃ t, s = c :: t ∧ rest = utf8 t := by
  cases s with
  | nil =>
    have hnil := (List.append_eq_nil_iff.mp h.symm).1
    exact absurd hnil String.utf8EncodeChar_ne_nil
  | cons d t =>
    have hcons : utf8 (d :: t) = String.utf8EncodeChar d ++ utf8 t := rfl
    rw [hcons] at h
    have hdecode (e : Char) (bytes : List UInt8) :
        (String.utf8EncodeChar e ++ bytes).toByteArray.utf8DecodeChar? 0 = some e := by
      rw [List.toByteArray_append]
      exact ByteArray.utf8DecodeChar?_utf8EncodeChar_append
    obtain rfl : d = c := by
      rw [← Option.some.injEq, ← hdecode d, h, hdecode c]
    exact ⟨t, rfl, (List.append_cancel_left h).symm⟩

/-- Bytes are read as they are if they are a text. -/
theorem utf8_fromUtf8Lossy_iff {bytes : List UInt8} :
    utf8 (fromUtf8Lossy bytes).toList = bytes ↔ ∃ s, bytes = utf8 s := by
  constructor
  · exact fun h => ⟨_, h.symm⟩
  · rintro ⟨s, rfl⟩
    rw [fromUtf8Lossy_utf8, String.toList_ofList]

end Text
