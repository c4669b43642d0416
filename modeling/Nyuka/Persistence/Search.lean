import Nyuka.Foundation.LikePatterns
import Nyuka.Persistence.Library

/-! The library's search box: what `ILIKE` makes of the pattern a search text is put into. -/
namespace Nyuka.Persistence
open Like Tables Paging

/-- PostgreSQL's wildcards. A backslash escapes where the query has no `ESCAPE` clause. -/
def postgres : Wildcards Char where
  any := '%'
  one := '_'
  escape := '\\'
  any_ne_one := by decide
  any_ne_escape := by decide
  one_ne_escape := by decide

/-- No letter becomes a character with a meaning in lower case. -/
theorem not_special_toLower {c : Char} (hc : ¬ postgres.IsSpecial c) :
    ¬ postgres.IsSpecial c.toLower := by
  unfold Char.toLower
  split
  · rename_i hupper
    have hlow : 65 ≤ c.val.toNat := UInt32.le_iff_toNat_le.mp hupper.1
    have hhigh : c.val.toNat ≤ 90 := UInt32.le_iff_toNat_le.mp hupper.2
    have hval : (c.val + ('a'.val - 'A'.val)).toNat = c.val.toNat + 32 := by
      rw [UInt32.toNat_add]
      exact Nat.mod_eq_of_lt (show c.val.toNat + 32 < 2 ^ 32 by omega)
    rintro (h | h | h)
    all_goals
      have hchar := congrArg (fun d : Char => d.val.toNat) h
      simp only [hval] at hchar
    · change c.val.toNat + 32 = 92 at hchar
      omega
    · change c.val.toNat + 32 = 37 at hchar
      omega
    · change c.val.toNat + 32 = 95 at hchar
      omega
  · exact hc

/-- The letters of ASCII are compared in lower case. -/
def asciiFolding : Folding postgres where
  fold c := [c.toLower]
  special c hc := by
    rcases hc with rfl | rfl | rfl <;> rfl
  plain c hc d hd := by
    rw [List.mem_singleton] at hd
    exact hd ▸ not_special_toLower hc

/-- The three replacements, one after the other, put one backslash in front of each character that
has a meaning. -/
theorem escapeLike_eq (q : List Char) : escapeLike q = escape postgres q := by
  unfold escapeLike replaceChar escape
  rw [List.flatMap_assoc, List.flatMap_assoc]
  refine List.flatMap_congr fun c _ => ?_
  by_cases hback : c = '\\'
  · subst hback
    rfl
  by_cases hpercent : c = '%'
  · subst hpercent
    rfl
  by_cases hunder : c = '_'
  · subst hunder
    rfl
  have hplain : ¬ postgres.IsSpecial c := by
    rintro (h | h | h)
    exacts [hback h, hpercent h, hunder h]
  simp [hback, hpercent, hunder, hplain]

theorem pattern_eq (q : List Char) : '%' :: (escapeLike q ++ ['%']) =
    postgres.any :: (escape postgres q ++ [postgres.any]) := by
  rw [escapeLike_eq]
  rfl

theorem folding_likes_iff (F : Folding postgres) (q title : List Char) :
    F.Likes ('%' :: (escapeLike q ++ ['%'])) title ↔ F.apply q <:+: F.apply title := by
  rw [pattern_eq]
  exact F.likes_between

/-- The pattern of a search text matches the titles that contain the text: as they stand, up to any
relation of characters, and after folding both. -/
theorem search_literal (q title : List Char) :
    (Likes postgres Eq ('%' :: (escapeLike q ++ ['%'])) title ↔ q <:+: title) ∧
    (∀ same : Char → Char → Prop, Likes postgres same ('%' :: (escapeLike q ++ ['%'])) title ↔
      ∃ part, part <:+: title ∧ List.Forall₂ same q part) ∧
    ∀ F : Folding postgres, F.Likes ('%' :: (escapeLike q ++ ['%'])) title ↔
      F.apply q <:+: F.apply title := by
  refine ⟨?_, fun same => ?_, fun F => folding_likes_iff F q title⟩
  · rw [pattern_eq, likes_between]
    simp
  · rw [pattern_eq, likes_between]

example : asciiFolding.Likes ('%' :: (escapeLike "100%".toList ++ ['%'])) "at 100% Speed".toList :=
  by decide
example : ¬ asciiFolding.Likes ('%' :: (escapeLike "100%".toList ++ ['%'])) "1000 Nights".toList :=
  by decide

section Views
variable {γ : Type*}

/-- A locale whose `ILIKE` folds characters. -/
def foldingLocale (F : Folding postgres) (collate : String → γ) : Locale γ where
  ilike title pattern := decide (F.Likes pattern.toList title.toList)
  collate := collate

variable (F : Folding postgres) (collate : String → γ) (query : MangaQuery)

/-- The title contains the search text without the white space around it, if there is one. -/
def MangaQuery.Searches (query : MangaQuery) (title : String) : Prop :=
  ∀ text ∈ query.q,
    F.apply (Text.trimMatches Packaging.isWhitespace text.toList) <:+: F.apply title.toList

private theorem searchPattern_all (title : String) :
    (searchPattern query.q).all ((foldingLocale F collate).ilike title) = true ↔
      query.Searches F title := by
  unfold searchPattern MangaQuery.Searches
  cases query.q with
  | none => simp
  | some text =>
    rw [Option.map_some]
    generalize hword : Text.trimMatches Packaging.isWhitespace text.toList = word
    cases word with
    | nil => simp [hword, Folding.apply, Option.filter_some_neg]
    | cons c word =>
      rw [Option.filter_some_pos (by simp), Option.map_some, Option.all_some]
      simp [foldingLocale, folding_likes_iff, hword]

/-- The summaries are those of the series whose titles contain the search text, of the status and
the source that the query asks for. -/
theorem mem_summary_iff (db : LinkedDatabase) (m : MangaRow) :
    m ∈ (summary (foldingLocale F collate) db.toDatabase query).map MangaSummary.manga ↔
      m ∈ db.mangas.rows ∧ query.Searches F m.title ∧ (∀ status ∈ query.status, status = m.status) ∧
        ∀ source ∈ query.sourceId, source = m.sourceId := by
  rw [summary_mangas, List.mem_filter, MangaQuery.admits, Bool.and_eq_true, Bool.and_eq_true,
    searchPattern_all, Option.all_eq_true, Option.all_eq_true]
  simp [and_assoc]

end Views

section Holdable

private theorem mem_replaceChar {c d : Char} {text s : List Char} (hc : d ≠ c) (htext : d ∉ text) :
    d ∈ replaceChar c text s ↔ d ∈ s := by
  rw [replaceChar, List.mem_flatMap]
  constructor
  · rintro ⟨e, he, hmem⟩
    split at hmem
    · exact absurd hmem htext
    · rwa [List.mem_singleton.mp hmem]
  · exact fun h => ⟨d, h, by simp [hc]⟩

/-- A pattern has a U+0000 where its text has one. -/
theorem mem_pattern {word : List Char} :
    '\x00' ∈ '%' :: (escapeLike word ++ ['%']) ↔ '\x00' ∈ word := by
  have hescape : '\x00' ∈ escapeLike word ↔ '\x00' ∈ word := by
    rw [escapeLike, mem_replaceChar (by decide) (by decide),
      mem_replaceChar (by decide) (by decide), mem_replaceChar (by decide) (by decide)]
  simp [hescape]

theorem holdable_query_iff (query : MangaQuery) :
    query.Holdable ↔ ∀ text ∈ query.q, '\x00' ∉ text.toList := by
  unfold MangaQuery.Holdable searchPattern
  cases query.q with
  | none => simp
  | some text =>
    have htrim : '\x00' ∈ Text.trimMatches Packaging.isWhitespace text.toList ↔
        '\x00' ∈ text.toList := Text.mem_trimMatches (by decide)
    rw [Option.map_some]
    generalize Text.trimMatches Packaging.isWhitespace text.toList = word at htrim
    cases word with
    | nil => simpa [Option.filter_some_neg] using htrim
    | cons c word =>
      rw [Option.filter_some_pos (by simp), Option.map_some, Option.all_some, holdable_iff,
        String.toList_ofList, mem_pattern, htrim]
      simp

end Holdable

section Complete
variable {γ : Type} [LinearOrder γ] (F : Folding postgres) (collate : String → γ)
  (query : MangaQuery)

/-- The library can be read to its end in every view exactly where the search text has no U+0000:
each series whose title contains the text, of the status and the source the query asks for, once
and in the declared order, with its source and its chapters counted. -/
theorem library_complete_iff (db : LinkedDatabase) :
    ((∃ summaries : List MangaSummary,
      (∀ m, m ∈ summaries.map MangaSummary.manga ↔ m ∈ db.mangas.rows ∧
        query.Searches F m.title ∧ (∀ status ∈ query.status, status = m.status) ∧
          ∀ source ∈ query.sourceId, source = m.sourceId) ∧
      (summaries.map MangaSummary.manga).Nodup ∧ (∀ s ∈ summaries, s.Tells db.toDatabase) ∧
      Complete pageSize (listMangaSummaries (foldingLocale F collate) db.toDatabase query) summaries
        (query.before (foldingLocale F collate))) ∧
      Complete pageSize (listManga db.toDatabase) db.mangas.rows
        (Before .desc MangaRow.createdAt fun m => m.id.uuid)) ↔
    ∀ text ∈ query.q, '\x00' ∉ text.toList := by
  rw [← holdable_query_iff]
  constructor
  · rintro ⟨⟨summaries, -, -, -, pages, hwalk, -⟩, -⟩
    obtain ⟨page, hpage⟩ := hwalk.fetched
    exact listMangaSummaries_ok _ hpage
  · intro hheld
    refine ⟨⟨summary (foldingLocale F collate) db.toDatabase query,
      mem_summary_iff F collate query db, ?_, fun s => summary_tells,
      listMangaSummaries_complete _ db hheld⟩, listManga_complete db.toDatabase⟩
    rw [summary_mangas]
    exact ((ids_distinct db.mangas).imp fun hne heq => hne (by rw [heq])).filter _

/-- What `?q=%00` asks for. -/
def nulSearch : MangaQuery := ⟨some "\x00", none, none, .title, .asc⟩

/-- A search for U+0000 is answered no page, so it is not read to its end. -/
theorem nul_search_incomplete : ¬ ∀ (F : Folding postgres) (collate : String → ℕ)
    (query : MangaQuery) (db : LinkedDatabase),
    ∃ summaries, Complete pageSize
      (listMangaSummaries (foldingLocale F collate) db.toDatabase query) summaries
      (query.before (foldingLocale F collate)) := by
  intro h
  obtain ⟨_, _, hwalk, -⟩ := h asciiFolding String.length nulSearch .oneSource
  obtain ⟨page, hpage⟩ := hwalk.fetched
  have hrefused : ¬ nulSearch.Holdable := by decide
  exact hrefused (listMangaSummaries_ok _ hpage)

end Complete

end Nyuka.Persistence
