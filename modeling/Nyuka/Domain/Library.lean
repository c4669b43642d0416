import Nyuka.Domain.Model
import Nyuka.Foundation.Binary32

/-! The library's data: series, their chapters, the pages a source lists and what has been
downloaded. Of the records' fields those are kept that a modelled function reads. -/
namespace Nyuka

structure MangaId where
  uuid : Uuid
deriving DecidableEq, Repr

structure SourceId where
  uuid : Uuid
deriving DecidableEq, Repr

abbrev ExternalKey := String

abbrev Bytes := List UInt8

inductive ReadingDirection where
  | unknown | leftToRight | rightToLeft
deriving DecidableEq, Repr

structure Manga where
  id : MangaId
  sourceId : SourceId
  externalKey : ExternalKey
  title : String
  direction : ReadingDirection
deriving DecidableEq, Repr

structure Chapter where
  id : ChapterId
  mangaId : MangaId
  externalKey : ExternalKey
  number : Option Binary32
  volume : Option Binary32
deriving DecidableEq, Repr

/-- What a page holds: an image to fetch, text, or a path inside a zip archive. -/
inductive PageContent where
  | url (url : String) (headers : List (String × String))
  | text (text : String)
  | zip (archive path : String)
deriving DecidableEq, Repr

structure SourcePage where
  index : UInt32
  content : PageContent
  description : Option String
deriving DecidableEq, Repr

structure PageRef where
  index : UInt32
  url : String
  headers : List (String × String)
deriving DecidableEq, Repr

structure DownloadedChapter where
  chapterId : ChapterId
  relativePath : String
  sizeBytes : ℕ
  checksum : String
  packagedAt : Time
deriving DecidableEq, Repr

end Nyuka
