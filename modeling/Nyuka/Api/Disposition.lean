import Nyuka.Api.Files
import Nyuka.Foundation.Parameters

/-! The `Content-Disposition` of an archive: what a client reads back is the file's name. -/
namespace Nyuka
namespace Api
open Parameters Text

/-- A file's name in both of its forms. -/
structure Lossless (name : List Char) : Prop where
  decoded : decodeText (percentEncodeFilename name) = some name
  encoded : Encoded (percentEncodeFilename name)
  fallback : ∀ c ∈ asciiFallbackFilename name,
    32 ≤ c.toNat ∧ c.toNat < 127 ∧ c ≠ doubleQuote ∧ c ≠ '\\'

/-- What a file is called: the last part of its path. -/
def fileName (relativePath : String) : List Char := (relativePath.toList.splitOn '/').getLastD []

/-- The characters of a byte of a name. -/
def encodedByte (b : UInt8) : List Char :=
  if isAsciiAlphanumeric b || b ∈ unreservedBytes then [Char.ofNat b.toNat]
  else '%' :: (hexDigits 2 b.toNat).map Char.toUpper

/-- The extended form of a name. -/
def extendedValue (name : List Char) : List Char :=
  "UTF-8".toList ++ apostrophe :: apostrophe :: percentEncodeFilename name

section Encoding

theorem unreservedBytes_eq :
    unreservedBytes = [33, 35, 36, 38, 43, 45, 46, 94, 95, 124, 126, 96] := by
  rw [unreservedBytes, toList_bytes]
  decide

theorem percentEncodeFilename_eq (name : List Char) :
    percentEncodeFilename name = (utf8 name).flatMap encodedByte := by
  rw [percentEncodeFilename, toList_bytes, ← utf8_toList, String.toList_ofList]
  rfl

theorem attrChar_of_unreserved : ∀ n < 256, (isAsciiAlphanumeric (UInt8.ofNat n) ||
      UInt8.ofNat n ∈ [33, 35, 36, 38, 43, 45, 46, 94, 95, 124, 126, 96]) = true →
    isAttrChar (Char.ofNat n) = true ∧ (Char.ofNat n).toNat = n := by
  decide +kernel

private theorem hexValue_upper :
    ∀ n < 256, hexValue ((hexDigits 2 n).map Char.toUpper) = some n := by
  decide +kernel

/-- A byte is an `attr-char` or is written as two hexadecimal digits. -/
theorem encodedByte_cases (b : UInt8) :
    (∃ c, encodedByte b = [c] ∧ isAttrChar c = true ∧ UInt8.ofNat c.toNat = b) ∨
      ∃ h l, encodedByte b = ['%', h, l] ∧ hexValue [h, l] = some b.toNat := by
  have hb := b.toNat_lt
  unfold encodedByte
  split
  · next h =>
    rw [unreservedBytes_eq, ← UInt8.ofNat_toNat (x := b)] at h
    obtain ⟨hattr, hvalue⟩ := attrChar_of_unreserved b.toNat hb h
    exact Or.inl ⟨_, rfl, hattr, by rw [hvalue, UInt8.ofNat_toNat]⟩
  · exact Or.inr ⟨_, _, rfl, hexValue_upper b.toNat hb⟩

private theorem hexDigit_of_hexValue {h l : Char} {n : ℕ} (hv : hexValue [h, l] = some n) :
    (hexDigit h).isSome ∧ (hexDigit l).isSome := by
  simp only [hexValue, List.foldlM_cons, List.foldlM_nil, Option.bind_eq_bind,
    Option.bind_eq_some_iff, Option.map_eq_some_iff] at hv
  obtain ⟨_, ⟨a, ha, -⟩, _, ⟨b, hb, -⟩, -⟩ := hv
  exact ⟨Option.isSome_of_eq_some ha, Option.isSome_of_eq_some hb⟩

/-- What is encoded byte by byte is decoded to the bytes. -/
theorem percentDecode_encoded (bytes : List UInt8) :
    percentDecode (bytes.flatMap encodedByte) = some bytes ∧
      Encoded (bytes.flatMap encodedByte) := by
  induction bytes with
  | nil => exact ⟨rfl, .nil⟩
  | cons b bytes ih =>
    rw [List.flatMap_cons]
    rcases encodedByte_cases b with ⟨c, heq, hattr, hvalue⟩ | ⟨h, l, heq, hvalue⟩
    · rw [heq, List.singleton_append, percentDecode_char hattr, ih.1, hvalue]
      exact ⟨rfl, .char hattr ih.2⟩
    · have hdigits := hexDigit_of_hexValue hvalue
      rw [heq]
      simp only [List.cons_append, List.nil_append]
      rw [percentDecode_triplet hvalue, ih.1, UInt8.ofNat_toNat]
      exact ⟨rfl, .triplet hdigits.1 hdigits.2 ih.2⟩

/-- A fallback name consists of blanks and of visible characters without quotes. -/
theorem mem_fallback {name : List Char} {c : Char} (hc : c ∈ asciiFallbackFilename name) :
    32 ≤ c.toNat ∧ c.toNat < 127 ∧ c ≠ doubleQuote ∧ c ≠ '\\' := by
  unfold asciiFallbackFilename at hc
  simp only at hc
  split at hc
  · have hall : ("chapter.cbz".toList.all fun c =>
        32 ≤ c.toNat && c.toNat < 127 && c ≠ doubleQuote && c ≠ '\\') = true := by decide
    simpa [and_assoc] using List.all_eq_true.mp hall c hc
  · obtain ⟨d, -, rfl⟩ := List.mem_map.mp hc
    split
    · next h =>
      simp only [Bool.or_eq_true, Bool.and_eq_true, decide_eq_true_eq] at h
      rcases h with ⟨⟨⟨hlow, hhigh⟩, hquote⟩, hescape⟩ | rfl
      · refine ⟨by omega, by omega, ?_, hescape⟩
        rintro rfl
        exact hquote rfl
      · decide
    · decide

theorem lossless (name : List Char) : Lossless name where
  decoded := by
    rw [percentEncodeFilename_eq]
    exact decodeText_of_utf8 (percentDecode_encoded _).1
  encoded := by
    rw [percentEncodeFilename_eq]
    exact (percentDecode_encoded _).2
  fallback _ hc := mem_fallback hc

end Encoding

section Header

/-- The text of a header's value. -/
theorem contentDisposition_toList (path : String) : (contentDisposition path).toList =
    "attachment".toList ++ ';' :: ' ' :: ("filename".toList ++ '=' :: doubleQuote ::
      (asciiFallbackFilename (fileName path) ++ doubleQuote :: ';' :: ' ' ::
        ("filename*".toList ++ '=' :: extendedValue (fileName path)))) := by
  have hstart : "attachment; filename=".toList =
      "attachment".toList ++ ';' :: ' ' :: ("filename".toList ++ ['=']) := by decide
  have hmiddle : "; filename*=UTF-8''".toList = ';' :: ' ' :: ("filename*".toList ++
      '=' :: ("UTF-8".toList ++ [apostrophe, apostrophe])) := by decide
  have hquote : quote = doubleQuote := rfl
  have hname : (path.toList.splitOn '/').getLastD [] = fileName path := rfl
  unfold contentDisposition extendedValue
  simp only [String.toList_ofList, List.append_assoc, hstart, hmiddle]
  rw [hquote, hname]
  generalize fileName path = name
  -- The words are of no concern, only how the pieces are put together.
  generalize "attachment".toList = a
  generalize "filename".toList = b
  generalize "filename*".toList = d
  generalize "UTF-8".toList = e
  simp only [List.append_assoc, List.cons_append, List.nil_append]

theorem quotedText_of_visible {c : Char} (hlow : 32 ≤ c.toNat) (hhigh : c.toNat < 127)
    (hquote : c ≠ doubleQuote) (hescape : c ≠ '\\') : isQuotedText c = true := by
  have hquote' : c.toNat ≠ 34 := fun h => hquote (by rw [← Char.ofNat_toNat c, h]; rfl)
  simp only [isQuotedText, isBlank, Bool.or_eq_true, Bool.and_eq_true, decide_eq_true_eq]
  rcases Nat.eq_or_lt_of_le hlow with hblank | hlow
  · exact Or.inl (Or.inl (by rw [← Char.ofNat_toNat c, ← hblank]))
  · exact Or.inr ⟨⟨⟨hlow, hquote'⟩, hescape⟩, by omega⟩

theorem token_of_all {s : String} (hne : s.toList ≠ [])
    (h : s.toList.all isTokenChar = true) : IsToken s.toList :=
  ⟨hne, List.all_eq_true.mp h⟩

theorem attachment_token : IsToken "attachment".toList := token_of_all (by decide) (by decide)

theorem filename_token : IsToken "filename".toList := token_of_all (by decide) (by decide)

theorem extendedName_token : IsToken "filename*".toList := token_of_all (by decide) (by decide)

theorem extendedValue_token (name : List Char) : IsToken (extendedValue name) := by
  have hcharset := @token_of_all "UTF-8" (by decide) (by decide)
  refine ⟨by simp [extendedValue], fun c hc => ?_⟩
  simp only [extendedValue, List.mem_append, List.mem_cons] at hc
  rcases hc with hc | rfl | rfl | hc
  · exact hcharset.chars c hc
  · decide
  · decide
  · exact (lossless name).encoded.tokenChar c hc

private theorem fallback_quotedText (name : List Char) :
    ∀ c ∈ asciiFallbackFilename name, isQuotedText c = true := by
  intro c hc
  obtain ⟨hlow, hhigh, hquote, hescape⟩ := (lossless name).fallback c hc
  exact quotedText_of_visible hlow hhigh hquote hescape

/-- The value is read as the two names. -/
theorem read_contentDisposition (path : String) : read (contentDisposition path).toList =
    some ("attachment".toList, [("filename".toList, asciiFallbackFilename (fileName path)),
      ("filename*".toList, extendedValue (fileName path))]) := by
  rw [contentDisposition_toList]
  exact read_append attachment_token filename_token (fallback_quotedText _) extendedName_token
    (extendedValue_token _)

/-- The value is one that a header may have. -/
@[simp] theorem headerSafe_contentDisposition (path : String) :
    headerSafe (contentDisposition path) = true := by
  rw [headerSafe, contentDisposition_toList, List.all_eq_true]
  intro c hc
  have hvisible : 32 ≤ c.toNat ∧ c.toNat ≠ 127 := by
    simp only [List.mem_append, List.mem_cons] at hc
    rcases hc with hc | rfl | rfl | hc | rfl | rfl | hc | rfl | rfl | rfl | hc | rfl | hc
    · exact visible_of_tokenChar (attachment_token.chars c hc)
    · decide
    · decide
    · exact visible_of_tokenChar (filename_token.chars c hc)
    · decide
    · decide
    · have h := (lossless (fileName path)).fallback c hc
      omega
    · decide
    · decide
    · decide
    · exact visible_of_tokenChar (extendedName_token.chars c hc)
    · decide
    · exact visible_of_tokenChar ((extendedValue_token _).chars c hc)
  simp [hvisible]

/-- A name is given back by what it is encoded as, and a header has its two forms as its only
parameters, under which it is sent with every answer that has the archive. -/
theorem contentDisposition_lossless (name : List Char) (download : DownloadedChapter) :
    Lossless name ∧
      ("content-disposition", contentDisposition download.relativePath) ∈ entityHeaders download ∧
      read (contentDisposition download.relativePath).toList = some ("attachment".toList,
        [("filename".toList, asciiFallbackFilename (fileName download.relativePath)),
          ("filename*".toList, extendedValue (fileName download.relativePath))]) ∧
      extended (extendedValue (fileName download.relativePath)) =
        some ([], fileName download.relativePath) := by
  refine ⟨lossless name, ?_, read_contentDisposition _, extended_utf8 (lossless _).decoded⟩
  rw [entityHeaders, if_pos (headerSafe_contentDisposition _)]
  simp

end Header

end Api
end Nyuka
