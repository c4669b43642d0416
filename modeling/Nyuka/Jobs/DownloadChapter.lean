import Nyuka.Jobs.Queue
import Nyuka.Packaging.Adapter
import Nyuka.Persistence.Schema
import Nyuka.Runtime.Pages

/-! The `download_chapter` job: the source's page list, the fetches in whatever order they end,
the archive and its record. -/
namespace Nyuka.Jobs
open Tables Table Persistence Packaging Queue
open Nyuka.Runtime

structure DownloadConfig where
  pageConcurrency : ℕ := 4
  maxPages : ℕ := 500
  maxChapterBytes : ℕ := 512 * 1024 * 1024

/-- Turns a page of the source's list into a fetchable reference. -/
def toRef (page : SourcePage) : Except DomainError PageRef :=
  match page.content with
  | .url url headers => .ok ⟨page.index, url, headers⟩
  | .text _ => .error (.unsupportedCapability "text chapters are not packaged yet")
  | .zip _ _ => .error (.unsupportedCapability "zip-backed pages are not packaged yet")

def toRefs (config : DownloadConfig) (pages : List SourcePage) :
    Except DomainError (List PageRef) :=
  if config.maxPages < pages.length then
    .error (.source
      s!"chapter lists {pages.length} pages, over the {config.maxPages} page limit" false)
  else pages.mapM toRef

/-- The order in which `buffer_unordered` yields what it is given: the first `limit` of those left
are in flight, and `pick` says which of them is the next to finish. -/
def completions {α : Type} (limit : ℕ) (pick : ℕ → ℕ) : ℕ → List α → List α
  | 0, _ => []
  | n + 1, items =>
    let next := pick n % min limit items.length
    match items[next]? with
    | some item => item :: completions limit pick n (items.eraseIdx next)
    | none => []

/-- The loop over the pages fetched. -/
def collect (config : DownloadConfig) : List (PageRef × Except DomainError Bytes) →
    List (PageRef × Bytes) → ℕ → Except DomainError (List (PageRef × Bytes))
  | [], fetched, _ => .ok fetched
  | (_, .error e) :: _, _, _ => .error e
  | (page, .ok image) :: rest, fetched, bytes =>
    if config.maxChapterBytes < bytes + image.length then
      .error (.source (s!"chapter exceeded the {config.maxChapterBytes} byte limit after " ++
        s!"{(fetched ++ [(page, image)]).length} pages") false)
    else collect config rest (fetched ++ [(page, image)]) (bytes + image.length)

def fetchAll (config : DownloadConfig) (fetch : PageRef → Except DomainError Bytes)
    (pick : ℕ → ℕ) (refs : List PageRef) : Except DomainError (List (PageRef × Bytes)) :=
  collect config ((completions (max config.pageConcurrency 1) pick refs.length refs).map
    fun page => (page, fetch page)) [] 0

/-- What a run of the job is answered: by the database, the file system, the source and the
fetcher. -/
structure Answers where
  /-- serde's text for a payload field that is no uuid. -/
  malformed : JsonValue → String
  chapter : ChapterId → Except DomainError Chapter
  manga : MangaId → Except DomainError Manga
  read : Except DomainError Unit
  resolved : Except PathError Unit
  stat : Stat
  pages : SourceId → ExternalKey → ExternalKey → Except DomainError (List Models.Page)
  fetch : PageRef → Except DomainError Bytes
  pick : ℕ → ℕ
  write : WriteAnswers
  packagedAt : Time
  recorded : Except DomainError Unit

/-- `payload_field` at the type of uuids. -/
def payloadUuid (a : Answers) (job : Job) (field : String) : Except DomainError Uuid :=
  match job.payload.get field with
  | none => .error (.invalid (s!"job {job.id.uuid.hyphenated} of kind {kindToStr job.kind} " ++
      s!"has no `{field}` in its payload"))
  | some value =>
    match value.asStr.bind Uuid.parse with
    | some id => .ok id
    | none => .error (.invalid s!"job payload field `{field}` is invalid: {a.malformed value}")

theorem payloadUuid_about {a : Answers} {job : Job} {field : String} {u : Uuid}
    (h : job.payload = .about field u) : payloadUuid a job field = .ok u := by
  simp [payloadUuid, h, JsonValue.about, JsonValue.get, JsonValue.asStr, Uuid.parse_hyphenated]

/-- Whether the chapter is already in the library. -/
def alreadyDownloaded (a : Answers) (downloads : DownloadTable) (chapter : Chapter) :
    Except DomainError Bool := do
  a.read
  match downloads.get chapter.id with
  | none => return false
  | some _ => (storeExists a.resolved a.stat).mapError StoreError.toDomainError

/-- The pages of a chapter, fetched. -/
def fetchPages (config : DownloadConfig) (a : Answers) (chapterId : ChapterId)
    (listed : List Models.Page) : Except DomainError (List (PageRef × Bytes)) := do
  let refs ← toRefs config (pages listed)
  if refs.isEmpty then
    throw (.source s!"chapter {chapterId.uuid.hyphenated} listed no pages" true)
  fetchAll config a.fetch a.pick refs

/-- What the job packages, unless the chapter is already there. -/
def gather (config : DownloadConfig) (a : Answers) (job : Job) (downloads : DownloadTable) :
    Except DomainError (Option (Manga × Chapter × List (PageRef × Bytes))) := do
  let chapterId : ChapterId := ⟨← payloadUuid a job "chapter_id"⟩
  let chapter ← a.chapter chapterId
  let manga ← a.manga chapter.mangaId
  if ← alreadyDownloaded a downloads chapter then return none
  let listed ← a.pages manga.sourceId manga.externalKey chapter.externalKey
  let fetched ← fetchPages config a chapterId listed
  return some (manga, chapter, fetched)

/-- What a job leaves behind. -/
structure Outcome where
  files : Files
  downloads : DownloadTable
  /-- The path of the archive that was placed. -/
  placed : Option String
  result : Except DomainError Unit

/-- `DownloadChapter::handle` -/
def handle (crates : Crates) (config : DownloadConfig) (a : Answers) (job : Job) (files : Files)
    (downloads : DownloadTable) : Outcome :=
  match gather config a job downloads with
  | .error e => ⟨files, downloads, none, .error e⟩
  | .ok none => ⟨files, downloads, none, .ok ()⟩
  | .ok (some (manga, chapter, fetched)) =>
    match writeDownload crates files manga chapter fetched a.write a.packagedAt with
    | (files, .error e) => ⟨files, downloads, none, .error e⟩
    -- the record comes only after the archive is in place
    | (files, .ok download) =>
      match a.recorded with
      | .error e => ⟨files, downloads, some download.relativePath, .error e⟩
      | .ok () => ⟨files, downloads.upsert download, some download.relativePath, .ok ()⟩

section Fetching
variable {config : DownloadConfig} {a : Answers} {listed : List Models.Page}

/-- The bytes that a fetch gave. -/
def fetchedBytes (a : Answers) (ref : PageRef) : Bytes := (a.fetch ref).toOption.getD []

def fetchedSize (a : Answers) (refs : List PageRef) : ℕ :=
  (refs.map fun ref => (fetchedBytes a ref).length).sum

/-- The pages as they come in, when every fetch succeeds. -/
def arrivals (config : DownloadConfig) (a : Answers) (refs : List PageRef) :
    List (PageRef × Bytes) :=
  (completions (max config.pageConcurrency 1) a.pick refs.length refs).map
    fun ref => (ref, fetchedBytes a ref)

/-- What the pages that can be fetched must meet for all of them to be. -/
structure Fetches (config : DownloadConfig) (a : Answers) (listed : List Models.Page) : Prop where
  supported : ∀ p ∈ listed, p.IsUrl ∨ p.IsImage
  few : (fetchable listed).length ≤ config.maxPages
  some_page : fetchable listed ≠ []
  fetched : ∀ ref ∈ fetchable listed, ∃ image, a.fetch ref = .ok image
  light : fetchedSize a (fetchable listed) ≤ config.maxChapterBytes

theorem completions_perm {α : Type} {limit : ℕ} (hlimit : 0 < limit) (pick : ℕ → ℕ)
    {n : ℕ} {items : List α} (hn : items.length = n) :
    (completions limit pick n items).Perm items := by
  induction n generalizing items with
  | zero => simp [completions, List.length_eq_zero_iff.mp hn]
  | succ n ih =>
    have hk : pick n % min limit items.length < items.length :=
      lt_of_lt_of_le (Nat.mod_lt _ (by omega)) (min_le_right _ _)
    have hlen : (items.eraseIdx (pick n % min limit items.length)).length = n := by
      rw [List.length_eraseIdx_of_lt hk]
      omega
    simp only [completions, List.getElem?_eq_getElem hk]
    exact ((ih hlen).cons _).trans (List.getElem_cons_eraseIdx_perm hk)

theorem collect_eq_ok {refs : List PageRef} {fetched out : List (PageRef × Bytes)} {bytes : ℕ}
    (hbytes : bytes ≤ config.maxChapterBytes) :
    collect config (refs.map fun ref => (ref, a.fetch ref)) fetched bytes = .ok out ↔
      (∀ ref ∈ refs, ∃ image, a.fetch ref = .ok image) ∧
      bytes + fetchedSize a refs ≤ config.maxChapterBytes ∧
      out = fetched ++ refs.map fun ref => (ref, fetchedBytes a ref) := by
  induction refs generalizing fetched bytes with
  | nil => simp [collect, fetchedSize, hbytes, eq_comm]
  | cons ref refs ih =>
    cases hfetch : a.fetch ref with
    | error e => simp [collect, hfetch]
    | ok image =>
      have himage : fetchedBytes a ref = image := by simp [fetchedBytes, hfetch, Except.toOption]
      have hsize : fetchedSize a (ref :: refs) = image.length + fetchedSize a refs := by
        simp [fetchedSize, himage]
      simp only [List.map_cons, collect, hfetch, hsize, himage, List.forall_mem_cons]
      split
      · next hheavy =>
        simp only [reduceCtorEq, false_iff]
        rintro ⟨-, hlight, -⟩
        omega
      · next hfits =>
        rw [ih (Nat.le_of_not_lt hfits)]
        simp [Nat.add_assoc]

theorem arrivals_perm (config : DownloadConfig) (a : Answers) (refs : List PageRef) :
    (arrivals config a refs).Perm (refs.map fun ref => (ref, fetchedBytes a ref)) :=
  (completions_perm (by omega) a.pick rfl).map _

theorem fetchAll_eq_ok {refs : List PageRef} {out : List (PageRef × Bytes)} :
    fetchAll config a.fetch a.pick refs = .ok out ↔
      (∀ ref ∈ refs, ∃ image, a.fetch ref = .ok image) ∧
      fetchedSize a refs ≤ config.maxChapterBytes ∧ out = arrivals config a refs := by
  have hperm : (completions (max config.pageConcurrency 1) a.pick refs.length refs).Perm refs :=
    completions_perm (by omega) a.pick rfl
  have hsize : fetchedSize a (completions (max config.pageConcurrency 1) a.pick refs.length refs) =
      fetchedSize a refs := (hperm.map _).sum_eq
  rw [fetchAll, collect_eq_ok (Nat.zero_le _), hsize, Nat.zero_add, List.nil_append, arrivals]
  simp only [hperm.mem_iff]

/-- A list on which no page is text or in an archive gives references for all pages but the
images. -/
theorem mapM_toRef_eq_ok {places : List (Models.Page × ℕ)} {refs : List PageRef} :
    (places.filterMap fun (p, i) => mapPage (.ofNat i) p).mapM toRef = .ok refs ↔
      (∀ place ∈ places, place.1.IsUrl ∨ place.1.IsImage) ∧
      refs = places.filterMap fun (p, i) => fetchRef (.ofNat i) p := by
  induction places generalizing refs with
  | nil => simp [pure, Except.pure, eq_comm]
  | cons place places ih =>
    obtain ⟨p, i⟩ := place
    simp only [List.forall_mem_cons, List.filterMap_cons]
    cases hcontent : p.content with
    | url url context =>
      have hurl : p.IsUrl := ⟨url, context, hcontent⟩
      have hmap : mapPage (.ofNat i) p = some ⟨.ofNat i, .url url [], p.description⟩ := by
        simp only [mapPage, hcontent]
      have hfetch : fetchRef (.ofNat i) p = some ⟨.ofNat i, url, []⟩ := by
        simp only [fetchRef, hcontent]
      simp only [hmap, hfetch, List.mapM_cons, toRef, Results.bind_eq_ok, Except.ok.injEq,
        Results.pure_eq_ok, ih, hurl, true_or, true_and]
      constructor
      · rintro ⟨ref, rfl, rest, ⟨hrest, rfl⟩, rfl⟩
        exact ⟨hrest, rfl⟩
      · rintro ⟨hrest, rfl⟩
        exact ⟨_, rfl, _, ⟨hrest, rfl⟩, rfl⟩
    | text _ | zip _ _ =>
      have hneither : ¬ (p.IsUrl ∨ p.IsImage) := by
        simp [Models.Page.IsUrl, Models.Page.IsImage, hcontent]
      simp [mapPage, hcontent, toRef, hneither, bind, Except.bind]
    | image rid =>
      have himage : p.IsImage := ⟨rid, hcontent⟩
      have hmap : mapPage (.ofNat i) p = none := by simp only [mapPage, hcontent]
      have hfetch : fetchRef (.ofNat i) p = none := by simp only [fetchRef, hcontent]
      simp only [hmap, hfetch, ih, himage, or_true, true_and]

/-- Without text and archives as many pages are left as can be fetched. -/
theorem length_pages (h : ∀ p ∈ listed, p.IsUrl ∨ p.IsImage) :
    (pages listed).length = (fetchable listed).length := by
  have hsame : ∀ place ∈ listed.zipIdx, (mapPage (.ofNat place.2) place.1).isSome =
      (fetchRef (.ofNat place.2) place.1).isSome := by
    intro place hplace
    rcases h place.1 (List.fst_mem_of_mem_zipIdx hplace) with
      ⟨url, context, hcontent⟩ | ⟨rid, hcontent⟩
    · simp [mapPage, fetchRef, hcontent]
    · simp [mapPage, fetchRef, hcontent]
  rw [pages, fetchable, List.length_filterMap_eq_countP, List.length_filterMap_eq_countP]
  exact List.countP_congr fun place hplace => by rw [hsame place hplace]

private theorem toRefs_eq_ok {refs : List PageRef} :
    toRefs config (pages listed) = .ok refs ↔
      (∀ p ∈ listed, p.IsUrl ∨ p.IsImage) ∧ (fetchable listed).length ≤ config.maxPages ∧
      refs = fetchable listed := by
  have hlisted : (∀ place ∈ listed.zipIdx, place.1.IsUrl ∨ place.1.IsImage) ↔
      ∀ p ∈ listed, p.IsUrl ∨ p.IsImage := by
    refine ⟨fun h p hp => ?_, fun h place hplace => h _ (List.fst_mem_of_mem_zipIdx hplace)⟩
    rw [← List.zipIdx_map_fst 0 listed] at hp
    obtain ⟨place, hplace, rfl⟩ := List.mem_map.mp hp
    exact h place hplace
  have hmapM : (pages listed).mapM toRef = .ok refs ↔
      (∀ p ∈ listed, p.IsUrl ∨ p.IsImage) ∧ refs = fetchable listed := by
    rw [pages, mapM_toRef_eq_ok, hlisted, fetchable]
  rw [toRefs]
  split
  · next hmany =>
    simp only [reduceCtorEq, false_iff]
    rintro ⟨hsupported, hfew, -⟩
    rw [length_pages hsupported] at hmany
    omega
  · next hfew =>
    rw [hmapM]
    constructor
    · rintro ⟨hsupported, hrefs⟩
      rw [length_pages hsupported] at hfew
      exact ⟨hsupported, by omega, hrefs⟩
    · rintro ⟨hsupported, -, hrefs⟩
      exact ⟨hsupported, hrefs⟩

/-- The fetches give every page that can be fetched, or fail. -/
theorem fetchPages_eq_ok {chapterId : ChapterId} {out : List (PageRef × Bytes)} :
    fetchPages config a chapterId listed = .ok out ↔
      Fetches config a listed ∧ out = arrivals config a (fetchable listed) := by
  simp only [fetchPages, Results.bind_eq_ok, toRefs_eq_ok]
  constructor
  · rintro ⟨refs, ⟨hsupported, hfew, rfl⟩, hout⟩
    split at hout
    · cases hout
    · next hsome =>
      obtain ⟨hfetched, hlight, rfl⟩ := fetchAll_eq_ok.mp hout
      exact ⟨⟨hsupported, hfew, by simpa using hsome, hfetched, hlight⟩, rfl⟩
  · rintro ⟨hfetches, rfl⟩
    refine ⟨_, ⟨hfetches.supported, hfetches.few, rfl⟩, ?_⟩
    rw [if_neg (by simpa using hfetches.some_page)]
    exact fetchAll_eq_ok.mpr ⟨hfetches.fetched, hfetches.light, rfl⟩

end Fetching

section Handling
variable {crates : Crates} {config : DownloadConfig} {a : Answers} {job : Job} {files : Files}
  {downloads : DownloadTable} {manga : Manga} {chapter : Chapter} {listed : List Models.Page}

/-- The job gets to ask the source, which lists these pages. -/
structure Asks (a : Answers) (job : Job) (downloads : DownloadTable) (manga : Manga)
    (chapter : Chapter) (listed : List Models.Page) : Prop where
  found : ∃ id, payloadUuid a job "chapter_id" = .ok id ∧ a.chapter ⟨id⟩ = .ok chapter
  series : a.manga chapter.mangaId = .ok manga
  missing : alreadyDownloaded a downloads chapter = .ok false
  answered : a.pages manga.sourceId manga.externalKey chapter.externalKey = .ok listed

/-- The entries are one image for each page listed, in the order of the list and of their names. -/
structure OnePerPage (fetch : PageRef → Except DomainError Bytes) (listed : List Models.Page)
    (images : List Entry) : Prop where
  length : images.length = listed.length
  bytes : ∀ i (hi : i < listed.length) (hi' : i < images.length), ∃ url context,
    listed[i].content = .url url context ∧ fetch ⟨.ofNat i, url, []⟩ = .ok images[i].bytes
  sorted : (images.map Entry.name).Pairwise (· < ·)

/-- The archive placed has an image for every page, and its record, if any, is of it. -/
structure Archived (crates : Crates) (config : DownloadConfig) (a : Answers) (files : Files)
    (downloads : DownloadTable) (chapter : Chapter) (listed : List Models.Page) (o : Outcome)
    (path : String) (bytes : Bytes) (images : List Entry) : Prop where
  placed : o.placed = some path
  written : o.files = files.place path bytes
  zipped : ∃ info, crates.zip (⟨"ComicInfo.xml", info⟩ :: images) = .ok bytes
  complete : OnePerPage a.fetch listed images
  light : (images.map fun image => image.bytes.length).sum ≤ config.maxChapterBytes
  record : (∃ e, o.result = .error e ∧ o.downloads = downloads) ∨ o.result = .ok () ∧
    o.downloads = downloads.upsert
      ⟨chapter.id, path, bytes.length, checksum crates bytes, a.packagedAt⟩

/-- The job fails and changes nothing, or it places a complete archive. -/
def Complete (crates : Crates) (config : DownloadConfig) (a : Answers) (files : Files)
    (downloads : DownloadTable) (chapter : Chapter) (listed : List Models.Page)
    (o : Outcome) : Prop :=
  (∃ e, o = ⟨files, downloads, none, .error e⟩) ∨
  ∃ path bytes images, Archived crates config a files downloads chapter listed o path bytes images

/-- Whatever becomes of the images, the job places an archive: the pages that can be fetched are,
and can be packed. -/
def Places (crates : Crates) (config : DownloadConfig) (a : Answers) (manga : Manga)
    (chapter : Chapter) (listed : List Models.Page) : Prop :=
  Fetches config a listed ∧ ∃ path bytes, Packs crates manga chapter a.write
    (orderedImages (arrivals config a (fetchable listed))) path bytes

theorem gather_of_asks (config : DownloadConfig) (h : Asks a job downloads manga chapter listed) :
    ∃ id, gather config a job downloads = (do
      let fetched ← fetchPages config a id listed
      return some (manga, chapter, fetched)) := by
  obtain ⟨id, hid, hchapter⟩ := h.found
  refine ⟨⟨id⟩, ?_⟩
  simp only [gather, hid, hchapter, h.series, h.missing, h.answered, bind, Except.bind]
  rfl

theorem handle_fails (h : Asks a job downloads manga chapter listed)
    (hfails : ¬ Places crates config a manga chapter listed) :
    ∃ e, handle crates config a job files downloads = ⟨files, downloads, none, .error e⟩ := by
  obtain ⟨id, hgather⟩ := gather_of_asks config h
  cases hfetched : fetchPages config a id listed with
  | error e => exact ⟨e, by rw [handle, hgather, hfetched]; rfl⟩
  | ok fetched =>
    obtain ⟨hfetches, rfl⟩ := fetchPages_eq_ok.mp hfetched
    obtain ⟨e, hwrite⟩ := writeDownload_of_not_packs files a.packagedAt
      fun path bytes hpacks => hfails ⟨hfetches, path, bytes, hpacks⟩
    refine ⟨e, ?_⟩
    rw [handle, hgather, hfetched]
    simp only [bind, Except.bind, pure, Except.pure, hwrite]

theorem handle_places (files : Files) (h : Asks a job downloads manga chapter listed)
    (hfetches : Fetches config a listed) {path : String} {bytes : Bytes}
    (hpacks : Packs crates manga chapter a.write
      (orderedImages (arrivals config a (fetchable listed))) path bytes) :
    let o := handle crates config a job files downloads
    o.placed = some path ∧ o.files = files.place path bytes ∧
      ((∃ e, o.result = .error e ∧ o.downloads = downloads) ∨ o.result = .ok () ∧
        o.downloads = downloads.upsert
          ⟨chapter.id, path, bytes.length, checksum crates bytes, a.packagedAt⟩) := by
  obtain ⟨id, hgather⟩ := gather_of_asks config h
  have hfetched : fetchPages config a id listed = .ok (arrivals config a (fetchable listed)) :=
    fetchPages_eq_ok.mpr ⟨hfetches, rfl⟩
  have hsome : arrivals config a (fetchable listed) ≠ [] := fun hnil =>
    hfetches.some_page (by simpa [hnil] using arrivals_perm config a (fetchable listed))
  have hwrite := writeDownload_of_packs files a.packagedAt hsome hpacks
  rw [handle, hgather, hfetched]
  simp only [bind, Except.bind, pure, Except.pure, hwrite]
  cases a.recorded with
  | error e => exact ⟨rfl, rfl, .inl ⟨e, rfl, rfl⟩⟩
  | ok _ => exact ⟨rfl, rfl, .inr ⟨rfl, rfl⟩⟩

/-- Where every page is one to fetch the archive has them all, whatever order they came in. -/
theorem onePerPage_of_urls (config : DownloadConfig) (hurls : ∀ p ∈ listed, p.IsUrl)
    (hlen : listed.length ≤ 2 ^ 32)
    (hfetched : ∀ ref ∈ fetchable listed, ∃ image, a.fetch ref = .ok image) :
    OnePerPage a.fetch listed (pageEntries (orderedImages (arrivals config a (fetchable listed)))) ∧
      ((pageEntries (orderedImages (arrivals config a (fetchable listed)))).map
        fun image => image.bytes.length).sum = fetchedSize a (fetchable listed) := by
  have hindex : ((fetchable listed).map fun ref => (ref, fetchedBytes a ref)).Pairwise
      fun x y => x.1.index < y.1.index := List.pairwise_map.mpr (fetchable_sorted hlen)
  obtain ⟨hcount, hplaces⟩ := fetchable_of_urls hurls
  have hbytes : (pageEntries (orderedImages (arrivals config a (fetchable listed)))).map
      Entry.bytes = (fetchable listed).map (fetchedBytes a) := by
    rw [pageEntries_bytes, orderedImages_of_perm (arrivals_perm config a _) hindex]
    simp
  have hsorted := pageEntries_sorted (orderedImages (arrivals config a (fetchable listed)))
  generalize pageEntries (orderedImages (arrivals config a (fetchable listed))) = images
    at hbytes hsorted ⊢
  have hlength : images.length = (fetchable listed).length := by
    simpa using congrArg List.length hbytes
  refine ⟨⟨hlength.trans hcount, fun i hi hi' => ?_, hsorted⟩, ?_⟩
  · obtain ⟨url, context, hcontent, href⟩ := hplaces i hi (hlength ▸ hi')
    refine ⟨url, context, hcontent, ?_⟩
    obtain ⟨image, himage⟩ := hfetched _ (List.getElem_mem (hlength ▸ hi'))
    rw [href] at himage
    have hat := List.getElem_of_eq hbytes (by simpa using hi')
    rw [List.getElem_map, List.getElem_map, href] at hat
    rw [hat, fetchedBytes, himage]
    rfl
  · have hsizes := congrArg (fun all => (all.map List.length).sum) hbytes
    simpa [fetchedSize, Function.comp_def] using hsizes

/-- A job that asks its source is as it should be exactly if the source lists no page that the
adapter drops, or nothing is placed anyway. -/
theorem download_complete_iff (h : Asks a job downloads manga chapter listed)
    (hconfig : config.maxPages ≤ 2 ^ 32) :
    Complete crates config a files downloads chapter listed
        (handle crates config a job files downloads) ↔
      (∀ p ∈ listed, ¬ p.IsImage) ∨ ¬ Places crates config a manga chapter listed := by
  by_cases hplaces : Places crates config a manga chapter listed
  · obtain ⟨hfetches, path, bytes, hpacks⟩ := hplaces
    obtain ⟨hplaced, hfiles, hrecord⟩ := handle_places files h hfetches hpacks
    constructor
    · rintro (⟨e, hfailed⟩ | ⟨path', bytes', images, harchived⟩)
      · rw [hfailed] at hplaced
        cases hplaced
      · left
        rintro p hp ⟨rid, himage⟩
        obtain ⟨i, hi, rfl⟩ := List.getElem_of_mem hp
        obtain ⟨url, context, hurl, -⟩ :=
          harchived.complete.bytes i hi (harchived.complete.length ▸ hi)
        rw [himage] at hurl
        cases hurl
    · rintro (hnone | hfails)
      · right
        have hurls : ∀ p ∈ listed, p.IsUrl := fun p hp =>
          (hfetches.supported p hp).resolve_right (hnone p hp)
        have hlen : listed.length ≤ 2 ^ 32 := by
          rw [← (fetchable_of_urls hurls).1]
          exact hfetches.few.trans hconfig
        obtain ⟨hcomplete, hsize⟩ := onePerPage_of_urls config hurls hlen hfetches.fetched
        exact ⟨path, bytes, _, hplaced, hfiles, ⟨_, hpacks.zipped⟩, hcomplete,
          hsize ▸ hfetches.light, hrecord⟩
      · exact absurd ⟨hfetches, path, bytes, hpacks⟩ hfails
  · exact ⟨fun _ => .inr hplaces, fun _ => .inl (handle_fails h hplaces)⟩

end Handling

/-- The libraries, with archives that are the contents of their entries one after another. -/
def copyCrates : Crates where
  nfc := id
  zip entries := .ok (entries.flatMap Entry.bytes)
  sha256 := id

def blue : Manga := ⟨⟨1⟩, ⟨1⟩, "key", "Blue", .unknown⟩

def blueOne : Chapter := ⟨⟨1⟩, ⟨1⟩, "chapter", some 0x3F800000, none⟩

def blueJob : Job := ⟨⟨1⟩, .downloadChapter, .running, .about "chapter_id" 1, 0, 0, 1, 5, none, 0⟩

/-- The source lists these pages, and everything goes well. -/
def allOk (listed : List Models.Page) : Answers where
  malformed _ := ""
  chapter _ := .ok blueOne
  manga _ := .ok blue
  read := .ok ()
  resolved := .ok ()
  stat := .notFound
  pages _ _ _ := .ok listed
  fetch _ := .ok [0xFF, 0xD8, 0xFF]
  pick _ := 0
  write := ⟨.ok (), .ok (), .ok (), .ok ()⟩
  packagedAt := 0
  recorded := .ok ()

theorem asks_allOk (listed : List Models.Page) :
    Asks (allOk listed) blueJob Table.empty blue blueOne listed where
  found := ⟨1, payloadUuid_about rfl, rfl⟩
  series := rfl
  missing := rfl
  answered := rfl

/-- Two pages to fetch. -/
def urlPages : List Models.Page :=
  [{ content := .url "https://blue.example/a.jpg" none },
    { content := .url "https://blue.example/b.jpg" none }]

theorem urlPages_complete :
    Complete copyCrates {} (allOk urlPages) (fun _ => none) Table.empty blueOne urlPages
      (handle copyCrates {} (allOk urlPages) blueJob (fun _ => none) Table.empty) := by
  refine (download_complete_iff (asks_allOk urlPages) (by decide)).mpr (.inl ?_)
  rintro p hp ⟨rid, himage⟩
  simp only [urlPages, List.mem_cons, List.not_mem_nil, or_false] at hp
  rcases hp with rfl | rfl
  · cases himage
  · cases himage

/-- A page that the guest holds, before one to fetch. -/
def imagePages : List Models.Page :=
  [{ content := .image 7 }, { content := .url "https://blue.example/b.jpg" none }]

theorem imagePages_places : Places copyCrates {} (allOk imagePages) blue blueOne imagePages := by
  have hfetches : Fetches {} (allOk imagePages) imagePages := {
    supported := by
      simp only [imagePages, List.forall_mem_cons, List.not_mem_nil, false_imp_iff, implies_true,
        and_true]
      exact ⟨.inr ⟨7, rfl⟩, .inl ⟨_, _, rfl⟩⟩
    few := by decide
    some_page := by decide
    fetched := fun _ _ => ⟨_, rfl⟩
    light := by decide }
  have hnamed : (relativePath copyCrates blue.title none blueOne.volume blueOne.number).isOk =
      true := by decide
  obtain ⟨path, hpath⟩ := Results.isOk_iff.mp hnamed
  exact ⟨hfetches, path, _, hpath, rfl, rfl, rfl, rfl, rfl⟩

/-- The archive then lacks the first page, and is recorded as the chapter. -/
theorem imagePages_not_complete : ¬ ∀ (crates : Crates) (config : DownloadConfig) (a : Answers)
    (job : Job) (files : Files) (downloads : DownloadTable) (manga : Manga) (chapter : Chapter)
    (listed : List Models.Page), Asks a job downloads manga chapter listed →
    Complete crates config a files downloads chapter listed
      (handle crates config a job files downloads) := by
  intro h
  obtain ⟨hfetches, path, bytes, hpacks⟩ := imagePages_places
  obtain ⟨hplaced, -, -⟩ := handle_places (fun _ => none) (asks_allOk imagePages)
    hfetches hpacks
  rcases h copyCrates {} _ _ (fun _ => none) _ _ _ _ (asks_allOk imagePages) with
    ⟨e, hfailed⟩ | ⟨path', bytes', images, harchived⟩
  · rw [hfailed] at hplaced
    cases hplaced
  · obtain ⟨url, context, hurl, -⟩ := harchived.complete.bytes 0 (by decide)
      (by rw [harchived.complete.length]; decide)
    cases hurl

end Nyuka.Jobs
