import Nyuka.Domain.Library
import Nyuka.Foundation.Utf8
import Nyuka.Packaging.Paths

/-! The CBZ writer: the metadata document, the entry names and the order of the entries. The
zip format itself and the digest are the libraries' and stay parameters. -/
namespace Nyuka
namespace Packaging

structure ComicInfo where
  series : String
  title : Option String := none
  number : Option Binary32
  volume : Option Binary32
  summary : Option String := none
  writers : List String := []
  pencillers : List String := []
  genres : List String := []
  languageIso : Option String := none
  pageCount : UInt32
  web : Option String := none
  year : Option Int32 := none
  month : Option UInt32 := none
  day : Option UInt32 := none
  direction : ReadingDirection

/-- The `Manga` element's value. -/
def mangaValue : ReadingDirection → String
  | .rightToLeft => "YesAndRightToLeft"
  | .leftToRight => "Yes"
  | .unknown => "Unknown"

/-- What stands for a character in a text node. -/
def escapeChar (c : Char) : List Char :=
  if c = '&' then "&amp;".toList
  else if c = '<' then "&lt;".toList
  else if c = '>' then "&gt;".toList
  else if c.toNat = 34 then "&quot;".toList
  else if c.toNat = 39 then "&apos;".toList
  else if isControl c && c ≠ '\n' && c ≠ '\r' && c ≠ '\t' then []
  else [c]

def escapeXml (text : String) : String := String.ofList (text.toList.flatMap escapeChar)

/-- An element, unless it would be empty. -/
def element (name value : String) : String :=
  if value = "" then "" else s!"  <{name}>{escapeXml value}</{name}>\n"

/-- Whole numbers without a decimal point. -/
def formatNumber (value : Binary32) : String :=
  if value.whole then toString value.toI64 else String.ofList value.display

/-- The elements in the order of the schema, which is a sequence. -/
def ComicInfo.toXml (info : ComicInfo) : String :=
  "<?xml version=\"1.0\" encoding=\"utf-8\"?>\n" ++
  "<ComicInfo xmlns:xsi=\"http://www.w3.org/2001/XMLSchema-instance\" " ++
    "xmlns:xsd=\"http://www.w3.org/2001/XMLSchema\">\n" ++
  element "Title" (info.title.getD "") ++
  element "Series" info.series ++
  (info.number.elim "" fun n => element "Number" (formatNumber n)) ++
  ((info.volume.filter Binary32.whole).elim "" fun v => element "Volume" (formatNumber v)) ++
  element "Summary" (info.summary.getD "") ++
  (info.year.elim "" fun y => element "Year" (toString y)) ++
  (info.month.elim "" fun m => element "Month" (toString m)) ++
  (info.day.elim "" fun d => element "Day" (toString d)) ++
  element "Writer" (", ".intercalate info.writers) ++
  element "Penciller" (", ".intercalate info.pencillers) ++
  element "Genre" (", ".intercalate info.genres) ++
  element "Web" (info.web.getD "") ++
  element "PageCount" (toString info.pageCount) ++
  element "LanguageISO" (info.languageIso.getD "") ++
  element "Manga" (mangaValue info.direction) ++
  "</ComicInfo>\n"

/-- One page, in reading order. Of the name only the extension is used. -/
structure PageImage where
  sourceName : String
  bytes : Bytes
deriving DecidableEq, Repr

/-- Digits needed so a lexical sort matches reading order. -/
def pageNumberWidth (count : ℕ) : ℕ := max (toString count).length 3

/-- The extension a name declares, restricted to the ones readers handle. -/
def declaredExtension (sourceName : String) : String :=
  let ext := ((sourceName.toList.splitOn '.').getLastD []).map Char.toLower
  if ext = "jpg".toList || ext = "jpeg".toList then "jpg"
  else if ext = "png".toList then "png"
  else if ext = "gif".toList then "gif"
  else if ext = "webp".toList then "webp"
  else if ext = "avif".toList then "avif"
  else "jpg"

/-- Picks an extension, preferring what the bytes say over what the name claims. -/
def extensionFor (sourceName : String) (bytes : Bytes) : String :=
  if bytes.take 3 = [0xFF, 0xD8, 0xFF] then "jpg"
  else if bytes.take 4 = [0x89, 0x50, 0x4E, 0x47] then "png"
  else if bytes.take 4 = [0x47, 0x49, 0x46, 0x38] then "gif"
  else if bytes.take 4 = [0x52, 0x49, 0x46, 0x46] &&
    (bytes.drop 8).take 4 = [0x57, 0x45, 0x42, 0x50]
  then "webp"
  else declaredExtension sourceName

/-- The name of the entry of the page at an index. -/
def entryName (width index : ℕ) (page : PageImage) : String :=
  String.ofList (Text.padded width (index + 1)) ++ "." ++ extensionFor page.sourceName page.bytes

/-- An entry of the archive. -/
structure Entry where
  name : String
  bytes : Bytes
deriving DecidableEq, Repr

def pageEntries (pages : List PageImage) : List Entry :=
  let width := pageNumberWidth pages.length
  pages.mapIdx fun index page => ⟨entryName width index page, page.bytes⟩

private theorem count_lt_width (count : ℕ) : count < 10 ^ pageNumberWidth count := by
  have hlen : (Nat.toDigits 10 count).length ≤ pageNumberWidth count := by
    refine le_trans (le_of_eq ?_) (le_max_left _ _)
    rw [Nat.toString_eq_repr, ← String.length_toList, Nat.toList_repr]
  exact (Nat.length_toDigits_le_iff (by decide) (by simp [pageNumberWidth])).mp hlen

/-- Names are in the order of the pages, so a reader that sorts them keeps it. -/
theorem entryName_lt {count i j : ℕ} (hij : i < j) (hj : j < count) (p q : PageImage) :
    entryName (pageNumberWidth count) i p < entryName (pageNumberWidth count) j q := by
  have hwidth := count_lt_width count
  simp only [entryName, String.lt_iff, String.toList_append, String.toList_ofList,
    List.append_assoc]
  exact Text.padded_append_lt (by omega) (by omega)

@[simp] theorem pageEntries_bytes (pages : List PageImage) :
    (pageEntries pages).map Entry.bytes = pages.map PageImage.bytes := by
  refine List.ext_getElem (by simp [pageEntries]) fun i hi hi' => ?_
  simp [pageEntries]

theorem pageEntries_sorted (pages : List PageImage) :
    ((pageEntries pages).map Entry.name).Pairwise (· < ·) := by
  rw [List.pairwise_iff_getElem]
  intro i j hi hj hij
  simp only [List.length_map, pageEntries, List.length_mapIdx] at hi hj
  simp only [pageEntries, List.getElem_map, List.getElem_mapIdx]
  exact entryName_lt hij hj _ _

/-- Everything the archive holds, the metadata first. -/
def cbzEntries (pages : List PageImage) (info : ComicInfo) : List Entry :=
  ⟨"ComicInfo.xml", info.toXml.toUTF8.toList⟩ :: pageEntries pages

/-- What the libraries do: the normal form of a text, the bytes of a zip archive and the
digest of some bytes. -/
structure Crates where
  nfc : List Char → List Char
  zip : List Entry → Except String Bytes
  sha256 : Bytes → Bytes

inductive CbzError where
  | write (detail : String)
  | noPages
deriving DecidableEq, Repr

def CbzError.toText : CbzError → String
  | write detail => s!"writing the archive failed: {detail}"
  | noPages => "a chapter with no pages cannot be packaged"

/-- Writes a CBZ into memory. -/
def writeCbz (crates : Crates) (pages : List PageImage) (info : ComicInfo) :
    Except CbzError Bytes :=
  if pages.isEmpty then .error .noPages else
    match crates.zip (cbzEntries pages info) with
    | .error detail => .error (.write detail)
    | .ok bytes => .ok bytes

/-- The name of a page's entry begins with a digit, which the metadata's does not. -/
theorem xml_notMem_pageEntries (pages : List PageImage) :
    "ComicInfo.xml" ∉ (pageEntries pages).map Entry.name := by
  intro hmem
  obtain ⟨entry, hentry, hname⟩ := List.mem_map.mp hmem
  obtain ⟨i, hi, rfl⟩ := List.mem_mapIdx.mp hentry
  obtain ⟨d, rest, hdigits⟩ :=
    List.exists_cons_of_ne_nil (Text.padded_ne_nil (pageNumberWidth pages.length) (i + 1))
  have hd : d.isDigit = true := by
    apply Text.isDigit_of_mem_padded
    rw [hdigits]
    exact List.mem_cons_self
  have hhead := congrArg (fun name => name.toList.head?) hname
  simp only [entryName, hdigits, String.toList_append, String.toList_ofList, List.cons_append,
    List.head?_cons] at hhead
  obtain rfl : d = 'C' := Option.some.inj hhead
  contradiction

/-- An archive of some pages holds the metadata and the bytes of each page, in the order of the
pages: the names increase byte by byte, and none is the metadata's. -/
theorem writeCbz_keeps_pages (crates : Crates) (first : PageImage) (rest : List PageImage)
    (info : ComicInfo) :
    ∃ entries : List Entry,
      writeCbz crates (first :: rest) info =
        (crates.zip (⟨"ComicInfo.xml", info.toXml.toUTF8.toList⟩ :: entries)).mapError .write ∧
      entries.map Entry.bytes = (first :: rest).map PageImage.bytes ∧
      (entries.map Entry.name).Nodup ∧ "ComicInfo.xml" ∉ entries.map Entry.name ∧
      entries.Pairwise fun e f => e.name.toUTF8.data.toList < f.name.toUTF8.data.toList := by
  have hsorted := pageEntries_sorted (first :: rest)
  refine ⟨pageEntries (first :: rest), ?_, pageEntries_bytes _, ?_, xml_notMem_pageEntries _, ?_⟩
  · unfold writeCbz cbzEntries
    rw [List.isEmpty_cons]
    cases crates.zip _ with
    | error detail => rfl
    | ok bytes => rfl
  · apply hsorted.imp
    intro a b hlt heq
    rw [heq] at hlt
    exact String.lt_irrefl _ hlt
  · apply (List.pairwise_map.mp hsorted).imp
    intro e f hlt
    rw [← Text.utf8_toList, ← Text.utf8_toList, Text.utf8_lt_iff]
    exact String.lt_iff.mp hlt

/-- SHA-256 of a finished archive, in hexadecimal. -/
def checksum (crates : Crates) (bytes : Bytes) : String :=
  String.ofList ((crates.sha256 bytes).flatMap fun b => Text.hexDigits 2 b.toNat)

end Packaging
end Nyuka
