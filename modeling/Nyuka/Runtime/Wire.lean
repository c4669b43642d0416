import Nyuka.Foundation.Binary32
import Nyuka.Foundation.Codecs
import Nyuka.Runtime.Filters
import Nyuka.Runtime.Pages

/-! What crosses the boundary to a guest. The format does not describe itself: a structure is its
fields in the order of their declaration, a variant its place among the declared ones. -/
namespace Nyuka
namespace Runtime
open Codecs

namespace Models

/-- What is passed alongside the URL of a page. -/
abbrev PageContext := List (String × String)

inductive MangaStatus where
  | unknown | ongoing | completed | cancelled | hiatus
deriving DecidableEq, Repr

inductive ContentRating where
  | unknown | safe | suggestive | nsfw
deriving DecidableEq, Repr

inductive Viewer where
  | unknown | leftToRight | rightToLeft | vertical | webtoon
deriving DecidableEq, Repr

inductive UpdateStrategy where
  | always | never
deriving DecidableEq, Repr

/-- A chapter, as a guest knows it. -/
structure Chapter where
  key : String
  title : Option String := none
  chapterNumber : Option Binary32 := none
  volumeNumber : Option Binary32 := none
  dateUploaded : Option Int64 := none
  scanlators : Option (List String) := none
  url : Option String := none
  language : Option String := none
  thumbnail : Option String := none
  locked : Bool := false
deriving DecidableEq

/-- A series, as a guest knows it. -/
structure Manga where
  key : String
  title : String := ""
  cover : Option String := none
  artists : Option (List String) := none
  authors : Option (List String) := none
  description : Option String := none
  url : Option String := none
  tags : Option (List String) := none
  status : MangaStatus := .unknown
  contentRating : ContentRating := .unknown
  viewer : Viewer := .unknown
  updateStrategy : UpdateStrategy := .always
  nextUpdateTime : Option Int64 := none
  chapters : Option (List Chapter) := none
deriving DecidableEq

/-- One page of catalogue results. -/
structure MangaPageResult where
  entries : List Manga
  hasNextPage : Bool
deriving DecidableEq

end Models

namespace Wire

def mangaStatus : Codec Models.MangaStatus :=
  oneOf [.unknown, .ongoing, .completed, .cancelled, .hiatus] (by decide)

def contentRating : Codec Models.ContentRating :=
  oneOf [.unknown, .safe, .suggestive, .nsfw] (by decide)

def viewer : Codec Models.Viewer :=
  oneOf [.unknown, .leftToRight, .rightToLeft, .vertical, .webtoon] (by decide)

def updateStrategy : Codec Models.UpdateStrategy := oneOf [.always, .never] (by decide)

def strings : Codec (List String) := string.list

def chapter : Codec Models.Chapter :=
  (string.pair <| string.option.pair <| word32.option.pair <| word32.option.pair <|
    int64.option.pair <| strings.option.pair <| string.option.pair <| string.option.pair <|
    string.option.pair bool).built
  (fun (key, title, number, volume, date, scanlators, url, language, thumbnail, locked) =>
    ⟨key, title, number, volume, date, scanlators, url, language, thumbnail, locked⟩)
  (fun c => some (c.key, c.title, c.chapterNumber, c.volumeNumber, c.dateUploaded, c.scanlators,
    c.url, c.language, c.thumbnail, c.locked))
  fun _ _ => by
    rw [Option.some.injEq]
    constructor
    · rintro rfl
      rfl
    · rintro rfl
      rfl

def manga : Codec Models.Manga :=
  (string.pair <| string.pair <| string.option.pair <| strings.option.pair <|
    strings.option.pair <| string.option.pair <| string.option.pair <| strings.option.pair <|
    mangaStatus.pair <| contentRating.pair <| viewer.pair <| updateStrategy.pair <|
    int64.option.pair chapter.list.option).built
  (fun (key, title, cover, artists, authors, description, url, tags, status, rating, viewer,
      strategy, next, chapters) =>
    ⟨key, title, cover, artists, authors, description, url, tags, status, rating, viewer,
      strategy, next, chapters⟩)
  (fun m => some (m.key, m.title, m.cover, m.artists, m.authors, m.description, m.url, m.tags,
    m.status, m.contentRating, m.viewer, m.updateStrategy, m.nextUpdateTime, m.chapters))
  fun _ _ => by
    rw [Option.some.injEq]
    constructor
    · rintro rfl
      rfl
    · rintro rfl
      rfl

def mangaPageResult : Codec Models.MangaPageResult :=
  (manga.list.pair bool).built (fun (entries, next) => ⟨entries, next⟩)
    (fun r => some (r.entries, r.hasNextPage)) fun _ _ => by
      rw [Option.some.injEq]
      constructor
      · rintro rfl
        rfl
      · rintro rfl
        rfl

def pageContext : Codec Models.PageContext := string.table string string_write_ne_nil

/-- The places of the variants of a page's content. -/
def contentTag : Models.PageContent → ℕ
  | .url _ _ => 0
  | .text _ => 1
  | .image _ => 2
  | .zip _ _ => 3

def pageContent : Codec Models.PageContent := tagged contentTag
  [(string.pair pageContext.option).built (fun (url, context) => .url url context)
      (fun
        | .url url context => some (url, context)
        | _ => none) fun a b => by cases b <;> simp [Prod.ext_iff, eq_comm],
    string.built .text
      (fun
        | .text text => some text
        | _ => none) fun a b => by cases b <;> simp [eq_comm],
    int32.built .image
      (fun
        | .image rid => some rid
        | _ => none) fun a b => by cases b <;> simp [eq_comm],
    (string.pair string).built (fun (archive, path) => .zip archive path)
      (fun
        | .zip archive path => some (archive, path)
        | _ => none) fun a b => by cases b <;> simp [Prod.ext_iff, eq_comm]]
  fun i c a hc ha => by
    match i with
    | 0 | 1 | 2 | 3 =>
      cases hc
      obtain ⟨x, hx, -⟩ := ha
      cases a <;> cases hx
      rfl

def page : Codec Models.Page :=
  (pageContent.pair <| string.option.pair <| bool.pair string.option).built
    (fun (content, thumbnail, described, description) =>
      ⟨content, thumbnail, described, description⟩)
    (fun p => some (p.content, p.thumbnail, p.hasDescription, p.description))
    fun _ _ => by
      rw [Option.some.injEq]
      constructor
      · rintro rfl
        rfl
      · rintro rfl
        rfl

/-- The places of the variants of a filter's value. -/
def filterTag : FilterValue → ℕ
  | .text _ _ => 0
  | .sort _ _ _ => 1
  | .check _ _ => 2
  | .select _ _ => 3
  | .multiSelect _ _ _ => 4

def filterValue : Codec FilterValue := tagged filterTag
  [(string.pair string).built (fun (id, value) => .text id value)
      (fun
        | .text id value => some (id, value)
        | _ => none) fun a b => by cases b <;> simp [Prod.ext_iff, eq_comm],
    (string.pair <| int32.pair bool).built (fun (id, index, ascending) => .sort id index ascending)
      (fun
        | .sort id index ascending => some (id, index, ascending)
        | _ => none) fun a b => by cases b <;> simp [Prod.ext_iff, eq_comm],
    (string.pair int32).built (fun (id, value) => .check id value)
      (fun
        | .check id value => some (id, value)
        | _ => none) fun a b => by cases b <;> simp [Prod.ext_iff, eq_comm],
    (string.pair string).built (fun (id, value) => .select id value)
      (fun
        | .select id value => some (id, value)
        | _ => none) fun a b => by cases b <;> simp [Prod.ext_iff, eq_comm],
    (string.pair <| strings.pair strings).built
      (fun (id, included, excluded) => .multiSelect id included excluded)
      (fun
        | .multiSelect id included excluded => some (id, included, excluded)
        | _ => none) fun a b => by cases b <;> simp [Prod.ext_iff, eq_comm]]
  fun i c a hc ha => by
    match i with
    | 0 | 1 | 2 | 3 | 4 =>
      cases hc
      obtain ⟨x, hx, -⟩ := ha
      cases a <;> cases hx
      rfl

/-- The filters of a search. -/
def filters : Codec (List FilterValue) := filterValue.list

/-- The pages of a chapter. -/
def pages : Codec (List Models.Page) := page.list

/-! The values that have a place in memory: their texts and lists are shorter than 64 bits can
count. -/

def Sized (s : String) : Prop := Text.bytes s.toList < 2 ^ 64

def SizedList (items : List String) : Prop := items.length < 2 ^ 64 ∧ ∀ s ∈ items, Sized s

end Wire

open Wire

structure Models.Chapter.Storable (c : Models.Chapter) : Prop where
  key : Sized c.key
  title : ∀ s ∈ c.title, Sized s
  scanlators : ∀ items ∈ c.scanlators, SizedList items
  url : ∀ s ∈ c.url, Sized s
  language : ∀ s ∈ c.language, Sized s
  thumbnail : ∀ s ∈ c.thumbnail, Sized s

structure Models.Manga.Storable (m : Models.Manga) : Prop where
  key : Sized m.key
  title : Sized m.title
  cover : ∀ s ∈ m.cover, Sized s
  artists : ∀ items ∈ m.artists, SizedList items
  authors : ∀ items ∈ m.authors, SizedList items
  description : ∀ s ∈ m.description, Sized s
  url : ∀ s ∈ m.url, Sized s
  tags : ∀ items ∈ m.tags, SizedList items
  chapters : ∀ cs ∈ m.chapters, cs.length < 2 ^ 64 ∧ ∀ c ∈ cs, c.Storable

structure Models.MangaPageResult.Storable (r : Models.MangaPageResult) : Prop where
  size : r.entries.length < 2 ^ 64
  entries : ∀ m ∈ r.entries, m.Storable

/-- A context has one value under each of its keys. -/
def Models.PageContent.Storable : Models.PageContent → Prop
  | .url location context => Sized location ∧ ∀ pairs ∈ context,
    (pairs.length < 2 ^ 64 ∧ ∀ p ∈ pairs, Sized p.1 ∧ Sized p.2) ∧ (pairs.map Prod.fst).Nodup
  | .text prose => Sized prose
  | .image _ => True
  | .zip archive path => Sized archive ∧ Sized path

structure Models.Page.Storable (p : Models.Page) : Prop where
  content : p.content.Storable
  thumbnail : ∀ s ∈ p.thumbnail, Sized s
  description : ∀ s ∈ p.description, Sized s

def FilterValue.Storable : FilterValue → Prop
  | .text id value | .select id value => Sized id ∧ Sized value
  | .sort id _ _ | .check id _ => Sized id
  | .multiSelect id included excluded => Sized id ∧ SizedList included ∧ SizedList excluded

namespace Wire

@[simp] theorem strings_valid {items : List String} : strings.Valid items ↔ SizedList items := by
  rw [strings, Codec.list_valid]
  simp only [string_valid]
  rfl

@[simp] theorem chapter_valid {c : Models.Chapter} : chapter.Valid c ↔ c.Storable := by
  rw [chapter, Codec.built_valid]
  simp only [Option.some.injEq, exists_eq_left', Codec.pair_valid, Codec.option_valid,
    string_valid, strings_valid, word32_valid, int64_valid, bool_valid]
  constructor
  · rintro ⟨hkey, htitle, -, -, -, hscanlators, hurl, hlanguage, hthumbnail, -⟩
    exact ⟨hkey, htitle, hscanlators, hurl, hlanguage, hthumbnail⟩
  · rintro ⟨hkey, htitle, hscanlators, hurl, hlanguage, hthumbnail⟩
    exact ⟨hkey, htitle, fun _ _ => trivial, fun _ _ => trivial, fun _ _ => trivial, hscanlators,
      hurl, hlanguage, hthumbnail, trivial⟩

@[simp] theorem mangaStatus_valid (s : Models.MangaStatus) : mangaStatus.Valid s :=
  oneOf_valid (by decide) (by cases s <;> decide)

@[simp] theorem contentRating_valid (r : Models.ContentRating) : contentRating.Valid r :=
  oneOf_valid (by decide) (by cases r <;> decide)

@[simp] theorem viewer_valid (v : Models.Viewer) : viewer.Valid v :=
  oneOf_valid (by decide) (by cases v <;> decide)

@[simp] theorem updateStrategy_valid (s : Models.UpdateStrategy) : updateStrategy.Valid s :=
  oneOf_valid (by decide) (by cases s <;> decide)

@[simp] theorem manga_valid {m : Models.Manga} : manga.Valid m ↔ m.Storable := by
  rw [manga, Codec.built_valid]
  simp only [Option.some.injEq, exists_eq_left', Codec.pair_valid, Codec.option_valid,
    Codec.list_valid, string_valid, strings_valid, int64_valid, mangaStatus_valid,
    contentRating_valid, viewer_valid, updateStrategy_valid, chapter_valid]
  constructor
  · rintro ⟨hkey, htitle, hcover, hartists, hauthors, hdescription, hurl, htags, -, -, -, -, -,
      hchapters⟩
    exact ⟨hkey, htitle, hcover, hartists, hauthors, hdescription, hurl, htags, hchapters⟩
  · rintro ⟨hkey, htitle, hcover, hartists, hauthors, hdescription, hurl, htags, hchapters⟩
    exact ⟨hkey, htitle, hcover, hartists, hauthors, hdescription, hurl, htags, trivial, trivial,
      trivial, trivial, fun _ _ => trivial, hchapters⟩

@[simp] theorem mangaPageResult_valid {r : Models.MangaPageResult} :
    mangaPageResult.Valid r ↔ r.Storable := by
  rw [mangaPageResult, Codec.built_valid]
  simp only [Option.some.injEq, exists_eq_left', Codec.pair_valid, Codec.list_valid, bool_valid,
    manga_valid, and_true]
  constructor
  · rintro ⟨hsize, hentries⟩
    exact ⟨hsize, hentries⟩
  · rintro ⟨hsize, hentries⟩
    exact ⟨hsize, hentries⟩

/-- What is written is decoded to the same, whatever stands behind it; nothing that is cut off is
decoded; and of all that is decoded to a value the shortest is what is written. -/
structure Lossless {α : Type} (c : Codec α) (Storable : α → Prop) : Prop where
  roundTrip : ∀ a rest, Storable a → c.decode (c.write a ++ rest) = some a
  separate : ∀ a b rest rest', Storable a → Storable b →
    c.write a ++ rest = c.write b ++ rest' → a = b ∧ rest = rest'
  cut : ∀ a front, Storable a → front <+: c.write a → front ≠ c.write a → c.decode front = none
  shortest : ∀ bytes a, c.decode bytes = some a →
    Storable a ∧ (c.write a <+: bytes ∨ (c.write a).length < bytes.length)

theorem lossless {α : Type} {c : Codec α} {Storable : α → Prop}
    (h : ∀ a, c.Valid a ↔ Storable a) : Lossless c Storable where
  roundTrip a rest ha := c.decode_write ((h a).mpr ha) rest
  separate a b rest rest' ha hb hsame := c.write_inj ((h a).mpr ha) ((h b).mpr hb) hsame
  cut a front ha hfront hne := by
    have hreads := c.reads_write a ((h a).mpr ha)
    rw [Codec.decode, hreads.read_front hfront hne]
    rfl
  shortest bytes a hdecode := by
    obtain ⟨hvalid, hshort⟩ := Codec.decode_valid hdecode
    exact ⟨(h a).mp hvalid, hshort⟩

end Wire

end Runtime
end Nyuka
