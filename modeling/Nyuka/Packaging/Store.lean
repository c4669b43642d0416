import Nyuka.Foundation.Results
import Nyuka.Packaging.Cbz
import Nyuka.Packaging.Names

/-! Writing chapters onto the library volume. The volume is the map from relative paths to file
contents; what the operating system answers along the way is an argument of each call. -/
namespace Nyuka
namespace Packaging

inductive StoreError where
  | path (error : PathError)
  | cbz (error : CbzError)
  | outOfSpace
  | io (detail : String)
deriving DecidableEq, Repr

def PathError.toText : PathError → String
  | empty => "name is empty after sanitization"
  | escapes => "path escapes the library root"
  | unresolvable detail => s!"path could not be resolved: {detail}"

def StoreError.toText : StoreError → String
  | path error => s!"library path is not usable: {error.toText}"
  | cbz error => s!"packaging failed: {error.toText}"
  | outOfSpace => "the library volume is full"
  | io detail => s!"library io failed: {detail}"

/-- Maps a store failure onto the domain error the job engine branches on. -/
def StoreError.toDomainError : StoreError → DomainError
  | outOfSpace => .insufficientStorage
  | other => .storage other.toText

/-- The files below the library root. -/
abbrev Files := String → Option Bytes

def Files.place (files : Files) (path : String) (bytes : Bytes) : Files :=
  fun p => if p = path then some bytes else files p

/-- What a completed write reports. -/
structure Placed where
  relativePath : String
  sizeBytes : ℕ
  checksum : String
deriving DecidableEq, Repr

/-- Everything needed to name and describe one chapter. -/
structure ChapterSpec where
  seriesTitle : String
  disambiguator : Option String
  volume : Option Binary32
  number : Option Binary32
  info : ComicInfo

/-- What the system answers while a chapter is written: to resolving the path, to making the
staging directory, to writing the temporary file and to putting it in its place. -/
structure WriteAnswers where
  resolved : Except PathError Unit
  staged : Except StoreError Unit
  written : Except StoreError Unit
  placed : Except StoreError Unit

/-- `PathBuf::from(&dir).join(format!("{stem}.cbz"))` -/
def joinPath (dir stem : List Char) : String :=
  String.ofList (dir ++ '/' :: (stem ++ ['.', 'c', 'b', 'z']))

/-- The path of a chapter below the root. -/
def relativePath (crates : Crates) (title : String) (disambiguator : Option String)
    (volume number : Option Binary32) : Except PathError String := do
  let dir ← seriesDir crates.nfc title.toList (disambiguator.map String.toList)
  let stem ← chapterStem crates.nfc title.toList volume number
  return joinPath dir stem

/-- The path and the contents of the file, when every step succeeds. -/
def packChapter (crates : Crates) (spec : ChapterSpec) (pages : List PageImage)
    (answers : WriteAnswers) : Except StoreError (String × Bytes) := do
  let relative ← (relativePath crates spec.seriesTitle spec.disambiguator spec.volume
    spec.number).mapError .path
  answers.resolved.mapError .path
  answers.staged
  let bytes ← (writeCbz crates pages spec.info).mapError .cbz
  answers.written
  answers.placed
  return (relative, bytes)

/-- Packages pages and places the archive. The rename is the last step, and it replaces a file
that is already there. -/
def writeChapter (crates : Crates) (files : Files) (spec : ChapterSpec) (pages : List PageImage)
    (answers : WriteAnswers) : Files × Except StoreError Placed :=
  match packChapter crates spec pages answers with
  | .error e => (files, .error e)
  | .ok (relative, bytes) =>
    (files.place relative bytes, .ok
      { relativePath := relative, sizeBytes := bytes.length, checksum := checksum crates bytes })

theorem packChapter_eq_ok {crates : Crates} {spec : ChapterSpec} {pages : List PageImage}
    {answers : WriteAnswers} {relative : String} {bytes : Bytes} :
    packChapter crates spec pages answers = .ok (relative, bytes) ↔
      relativePath crates spec.seriesTitle spec.disambiguator spec.volume spec.number =
          .ok relative ∧
        answers.resolved = .ok () ∧ answers.staged = .ok () ∧
        writeCbz crates pages spec.info = .ok bytes ∧
        answers.written = .ok () ∧ answers.placed = .ok () := by
  simp only [packChapter, Results.bind_eq_ok, Results.mapError_eq_ok, Results.pure_eq_ok]
  constructor
  · rintro ⟨r, hr, ⟨⟩, hresolved, ⟨⟩, hstaged, b, hb, ⟨⟩, hwritten, ⟨⟩, hplaced, hpair⟩
    cases hpair
    exact ⟨hr, hresolved, hstaged, hb, hwritten, hplaced⟩
  · rintro ⟨hr, hresolved, hstaged, hb, hwritten, hplaced⟩
    exact ⟨_, hr, (), hresolved, (), hstaged, _, hb, (), hwritten, (), hplaced, rfl⟩

/-- A write that succeeds puts one file in its place and describes it. -/
theorem writeChapter_ok {crates : Crates} {files files' : Files} {spec : ChapterSpec}
    {pages : List PageImage} {answers : WriteAnswers} {placed : Placed}
    (h : writeChapter crates files spec pages answers = (files', .ok placed)) :
    relativePath crates spec.seriesTitle spec.disambiguator spec.volume spec.number =
        .ok placed.relativePath ∧
      ∃ bytes, writeCbz crates pages spec.info = .ok bytes ∧
        files' = files.place placed.relativePath bytes ∧ placed.sizeBytes = bytes.length ∧
        placed.checksum = checksum crates bytes := by
  unfold writeChapter at h
  split at h
  · cases h
  · next relative bytes hpack =>
    obtain ⟨hpath, -, -, hbytes, -⟩ := packChapter_eq_ok.mp hpack
    cases h
    exact ⟨hpath, bytes, hbytes, rfl, rfl, rfl⟩

/-- A write that fails leaves every file as it was. -/
theorem writeChapter_error {crates : Crates} {files files' : Files} {spec : ChapterSpec}
    {pages : List PageImage} {answers : WriteAnswers} {e : StoreError}
    (h : writeChapter crates files spec pages answers = (files', .error e)) : files' = files := by
  unfold writeChapter at h
  split at h
  · cases h; rfl
  · cases h

/-- What the system answers to looking a path up. -/
inductive Stat where
  | found | notFound | failed
deriving DecidableEq, Repr

/-- `Path::exists`: a lookup that fails reads as absence. -/
def pathExists : Stat → Bool
  | .found => true
  | .notFound | .failed => false

/-- `LibraryStore::exists` -/
def storeExists (resolved : Except PathError Unit) (stat : Stat) : Except StoreError Bool := do
  resolved.mapError .path
  return pathExists stat

/-- Two chapters get one path exactly when both their directories and their stems agree. -/
theorem joinPath_inj {dir dir' stem stem' : List Char} (hdir : '/' ∉ dir) (hdir' : '/' ∉ dir')
    (h : joinPath dir stem = joinPath dir' stem') : dir = dir' ∧ stem = stem' := by
  have hlist := String.ofList_injective h
  have hsplit := congrArg (List.splitOn '/') hlist
  rw [List.splitOn_append_cons_self_of_not_mem hdir, List.splitOn_append_cons_self_of_not_mem hdir']
    at hsplit
  obtain rfl := (List.cons.inj hsplit).1
  exact ⟨rfl, by simpa using hlist⟩

end Packaging
end Nyuka
