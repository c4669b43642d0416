import Nyuka.Api.Downloads
import Nyuka.Packaging.Store

/-! `GET /api/v1/downloads/{chapter_id}/file`: the stored archive, whole or a range of it, under
the checksum the record holds. -/
namespace Nyuka
namespace Api
open Packaging Queue

/-- How much of a file one range request may ask for. -/
def maxRangeBytes : ℕ := 8 * 1024 * 1024

/-- `str::parse::<u64>` -/
def parseU64 (s : List Char) : Option ℕ :=
  let digits := if s.head? = some '+' then s.tail else s
  if digits = [] || !digits.all Char.isDigit then none
  else
    let n := Nat.ofDigitChars 10 digits 0
    if n < 2 ^ 64 then some n else none

def trim (s : List Char) : List Char := Text.trimMatches isWhitespace s

def stripPrefix (p s : List Char) : Option (List Char) :=
  if p.isPrefixOf s then some (s.drop p.length) else none

def splitOnce (c : Char) (s : List Char) : Option (List Char × List Char) :=
  if c ∈ s then some (s.takeWhile (· ≠ c), (s.dropWhile (· ≠ c)).tail) else none

/-- Start and end of the range a specification asks for, before it is checked. -/
def requestedRange (startText endText : List Char) (size : ℕ) : Option (ℕ × ℕ) :=
  match startText, endText with
  | [], suffix => do
    let length ← parseU64 suffix
    if length = 0 then none else some (size - length, size - 1)
  | start, [] => do
    let start ← parseU64 start
    some (start, size - 1)
  | start, last => do
    let start ← parseU64 start
    let last ← parseU64 last
    some (start, min last (size - 1))

/-- Parses a single-range `Range` header, clamped to what the server will send; the sum of 64 bits
wraps. -/
def parseRange (header : List Char) (size : ℕ) : Option (ℕ × ℕ) :=
  if size = 0 then none else do
    let spec ← stripPrefix "bytes=".toList header
    let spec := trim spec
    if ',' ∈ spec then none else do
      let (startText, endText) ← splitOnce '-' spec
      let (start, last) ← requestedRange (trim startText) (trim endText) size
      if start > last || start ≥ size then none
      else some (start, min last ((start + maxRangeBytes - 1) % 2 ^ 64))

/-- Whether `If-None-Match` names this entity. -/
def matchesEtag (ifNoneMatch : Option Bytes) (etag : String) : Bool :=
  match ifNoneMatch.bind headerToStr with
  | none => false
  | some value =>
    trim value.toList = ['*'] || ((value.toList.splitOn ',').map trim).any fun candidate =>
      (stripPrefix "W/".toList candidate).getD candidate = etag.toList

/-- The plain `filename` parameter, restricted to what a quoted string may hold. -/
def asciiFallbackFilename (name : List Char) : List Char :=
  let cleaned := name.map fun c =>
    if (33 ≤ c.toNat && c.toNat ≤ 126 && c.toNat ≠ 34 && c ≠ '\\') || c = ' ' then c else '_'
  if cleaned.all fun c => c = '_' || c = ' ' then "chapter.cbz".toList else cleaned

def unreservedBytes : Bytes := "!#$&+-.^_|~".toUTF8.toList ++ [96]

def isAsciiAlphanumeric (b : UInt8) : Bool :=
  (48 ≤ b && b ≤ 57) || (65 ≤ b && b ≤ 90) || (97 ≤ b && b ≤ 122)

/-- Percent-encodes a filename for `filename*`. -/
def percentEncodeFilename (name : List Char) : List Char :=
  (String.ofList name).toUTF8.toList.flatMap fun b =>
    if isAsciiAlphanumeric b || b ∈ unreservedBytes then [Char.ofNat b.toNat]
    else '%' :: (Text.hexDigits 2 b.toNat).map Char.toUpper

structure Response where
  status : ℕ
  headers : List (String × String)
  body : Bytes
deriving DecidableEq, Repr

def Response.header (r : Response) (name : String) : Option String :=
  (r.headers.find? fun h => h.1 == name).map Prod.snd

def quote : Char := Char.ofNat 34

/-- What `HeaderValue::from_str` accepts. -/
def headerSafe (s : String) : Bool :=
  s.toList.all fun c => (32 ≤ c.toNat && c.toNat ≠ 127) || c.toNat = 9

/-- The tag of an entity: its checksum in quotes. -/
def etagOf (checksum : String) : String := String.ofList (quote :: (checksum.toList ++ [quote]))

def etagHeader (checksum : String) : String :=
  if headerSafe (etagOf checksum) then etagOf checksum else String.ofList [quote, quote]

/-- A digest makes a tag as it is. -/
theorem etagHeader_checksum (crates : Crates) (bytes : Bytes) :
    etagHeader (checksum crates bytes) = etagOf (checksum crates bytes) := by
  have hsafe : headerSafe (etagOf (checksum crates bytes)) = true := by
    have hdigit : ∀ d < 16, 32 ≤ (Nat.digitChar d).toNat ∧ (Nat.digitChar d).toNat ≠ 127 := by
      decide
    have hhex : ∀ c ∈ (crates.sha256 bytes).flatMap fun b => Text.hexDigits 2 b.toNat,
        32 ≤ c.toNat ∧ c.toNat ≠ 127 := by
      intro c hc
      obtain ⟨b, -, hb⟩ := List.mem_flatMap.mp hc
      simp only [Text.hexDigits, List.nil_append, List.cons_append, List.mem_cons,
        List.not_mem_nil, or_false] at hb
      rcases hb with rfl | rfl <;> exact hdigit _ (Nat.mod_lt _ (by decide))
    simp only [headerSafe, etagOf, checksum, String.toList_ofList, List.all_cons, List.all_append,
      List.all_nil, Bool.and_true]
    have hquote : (32 ≤ quote.toNat && decide (quote.toNat ≠ 127) ||
        decide (quote.toNat = 9)) = true := by
      decide
    rw [hquote, Bool.true_and, Bool.and_true, List.all_eq_true]
    intro c hc
    simp [hhex c hc]
  rw [etagHeader, if_pos hsafe]

def contentDisposition (relativePath : String) : String :=
  let name := (relativePath.toList.splitOn '/').getLastD []
  String.ofList ("attachment; filename=".toList ++ quote :: asciiFallbackFilename name ++
    quote :: "; filename*=UTF-8''".toList ++ percentEncodeFilename name)

def entityHeaders (download : DownloadedChapter) : List (String × String) :=
  [("etag", etagHeader download.checksum),
    ("content-type", "application/vnd.comicbook+zip"),
    ("accept-ranges", "bytes"),
    ("cache-control", "private, max-age=31536000, immutable")] ++
  if headerSafe (contentDisposition download.relativePath) then
    [("content-disposition", contentDisposition download.relativePath)]
  else []

structure FileHeaders where
  ifNoneMatch : Option Bytes
  range : Option Bytes

/-- What the system answers to opening the file and to reading from it. -/
structure ReadAnswers where
  opened : Except StoreError Unit
  read : Except DomainError Unit

/-- `LibraryStore::open_chapter`: the contents of the file there is. -/
def openChapter (files : Files) (path : String) (answers : ReadAnswers) :
    Except StoreError Bytes := do
  answers.opened
  match files path with
  | some bytes => return bytes
  | none => throw (.io "No such file or directory (os error 2)")

/-- The answer for an opened file. -/
def respondFile (download : DownloadedChapter) (bytes : Bytes) (range : Option Bytes) : Response :=
  match range with
  | none => { status := 200, headers := entityHeaders download, body := bytes }
  | some range =>
    match (headerToStr range).bind fun r => parseRange r.toList bytes.length with
    | none =>
      { status := 416, headers := [("content-range", s!"bytes */{bytes.length}")], body := [] }
    | some (start, last) =>
      { status := 206,
        headers := entityHeaders download ++
          [("content-range", s!"bytes {start}-{last}/{bytes.length}")],
        body := (bytes.drop start).take (last - start + 1) }

/-- The handler, for the row that the database returned. -/
def file (files : Files) (row : Except DomainError (Option DownloadedChapter))
    (headers : FileHeaders) (answers : ReadAnswers) : Except Problem Response :=
  match row with
  | .error e => .error (.ofDomainError e)
  | .ok none => .error (.notFound "downloaded chapter")
  | .ok (some download) =>
    if matchesEtag headers.ifNoneMatch (etagOf download.checksum) then
      .ok { status := 304, headers := [], body := [] }
    else
      match openChapter files download.relativePath answers with
      | .error e => .error (.ofMissing e.toDomainError "downloaded chapter")
      | .ok bytes =>
        match answers.read with
        | .error e => .error (.ofDomainError e)
        | .ok () => .ok (respondFile download bytes headers.range)

@[simp] private theorem header_entityHeaders (download : DownloadedChapter) (status : ℕ)
    (body : Bytes)
    (rest : List (String × String)) :
    Response.header ⟨status, entityHeaders download ++ rest, body⟩ "etag" =
      some (etagHeader download.checksum) := rfl

/-- What a response for an opened file carries under a tag is part of that file. -/
theorem respondFile_tagged {download : DownloadedChapter} {bytes : Bytes} {range : Option Bytes}
    {tag : String} (htag : (respondFile download bytes range).header "etag" = some tag) :
    tag = etagHeader download.checksum ∧ (respondFile download bytes range).body <:+: bytes := by
  unfold respondFile at htag ⊢
  split at htag
  · have hheader := header_entityHeaders download 200 bytes []
    rw [List.append_nil, htag] at hheader
    exact ⟨Option.some.inj hheader, List.infix_rfl⟩
  · split at htag
    · cases htag
    · next start last _ =>
      rw [header_entityHeaders] at htag
      refine ⟨(Option.some.inj htag).symm, ?_⟩
      exact (List.take_prefix _ _).isInfix.trans (List.drop_suffix _ _).isInfix

/-- A response with a tag carries a part of the file the record names, under the record's
checksum. -/
theorem file_tagged {files : Files} {download : DownloadedChapter} {headers : FileHeaders}
    {answers : ReadAnswers} {response : Response} {tag : String}
    (h : file files (.ok (some download)) headers answers = .ok response)
    (htag : response.header "etag" = some tag) :
    tag = etagHeader download.checksum ∧ ∃ bytes, files download.relativePath = some bytes ∧
      response.body <:+: bytes := by
  simp only [file] at h
  split at h
  · cases h
    cases htag
  · split at h
    · cases h
    · next bytes hopen =>
      split at h
      · cases h
      · cases h
        have hpresent : files download.relativePath = some bytes := by
          simp only [openChapter, Results.bind_eq_ok] at hopen
          obtain ⟨-, -, hbytes⟩ := hopen
          split at hbytes
          · next hfile => rw [hfile, Results.pure_eq_ok.mp hbytes]
          · cases hbytes
        obtain ⟨htag, hbody⟩ := respondFile_tagged htag
        exact ⟨htag, bytes, hpresent, hbody⟩

end Api
end Nyuka
