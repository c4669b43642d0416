import Nyuka.Foundation.Paging
import Nyuka.Persistence.Upserts
import Nyuka.Runtime.Replays
import Nyuka.Runtime.Wire

/-! Running a source: an instance of its module is made for one call, the arguments are passed as
buffers, an export is called and what it returns is decoded. Above it the ports of the domain. -/
namespace Nyuka
namespace Runtime
open Codecs Paging

/-- How an export ends. -/
inductive Ending where
  | returned (ret : Int32)
  | trapped (error : String)
deriving DecidableEq, Repr

/-- What an export does when it is called. -/
structure Running where
  steps : List GuestStep
  ending : Ending

/-- A module, which does in each state what it does. -/
structure GuestModule (σ Doc : Type) where
  /-- The memory that an instance exports, or why none can be made. -/
  instantiate : Except String (Option Memory)
  exports : String → Option (HostState σ Doc → List Int32 → Running)

/-- What sources are run with. -/
structure SourceHost (σ Doc : Type) extends Imports σ Doc where
  /-- What the decoder says of bytes that it cannot decode. -/
  undecodable : Bytes → String
  /-- What the decoder says of filters that it refuses. -/
  refused : JsonValue → String
  /-- What is said of a task that panicked. -/
  panicked : String
  /-- `{:?}` -/
  quoted : String → String

/-- `RunError`, with what else than a return can be wrong. -/
inductive CallError where
  | run (error : RunError)
  | missingExport (name : String)
  | decode (entry source : String)
  | wasm (error : String)
deriving DecidableEq, Repr

/-- What a call leaves and answers, unless the host panics. -/
abbrev Called (σ Doc α : Type) := Option (HostState σ Doc × Except CallError α)

/-- An argument of an export. -/
inductive Argument : Type 1 where
  | text (content : String)
  | encoded {α : Type} (codec : Codec α) (value : α)
  | number (n : Int32)

/-- An entry point, and how what it answers is decoded. -/
structure Entry (α : Type) where
  name : String
  codec : Codec α
  arguments : List Argument

section Calls
variable {σ Doc α : Type} (env : SourceHost σ Doc) (m : GuestModule σ Doc)

/-- `put_bytes` -/
def HostState.putBuffer (s : HostState σ Doc) (bytes : Bytes) : Option (HostState σ Doc × Int32) :=
  if s.table.next + 1 < 2 ^ 31 then
    some ((s.put (.buffer bytes)).1, Int32.ofInt (s.table.next + 1))
  else none

def HostState.pass (s : HostState σ Doc) : Argument → Option (HostState σ Doc × Int32)
  | .text text => s.putBuffer (Text.utf8 text.toList)
  | .encoded codec value => s.putBuffer (codec.write value)
  | .number n => some (s, n)

/-- The arguments are put in order. -/
def HostState.passAll : HostState σ Doc → List Argument → Option (HostState σ Doc × List Int32)
  | s, [] => some (s, [])
  | s, argument :: rest => do
    let (t, value) ← s.pass argument
    let (u, values) ← t.passAll rest
    return (u, value :: values)

/-- `Func::call` -/
def runExport (s : HostState σ Doc) (f : HostState σ Doc → List Int32 → Running)
    (args : List Int32) : Called σ Doc Int32 :=
  (Runs.exec (HostState.step env.toImports) s (f s args).steps).map fun t =>
    (t, match (f s args).ending with
      | .returned ret => .ok ret
      | .trapped error => .error (.wasm error))

/-- Instantiates a module and runs its `start` function. -/
def Invocation.new (defaults : σ) : Called σ Doc Unit :=
  match m.instantiate with
  | .error error => some (.new none defaults, .error (.wasm error))
  | .ok memory => match m.exports "start" with
    | none => some (.new memory defaults, .ok ())
    | some start => (runExport env (.new memory defaults) start []).map fun (s, result) =>
      (s, result.map fun _ => ())

/-- Hands the allocation of a result back. -/
def freeResult (s : HostState σ Doc) (ret : Int32) (value : α) : Called σ Doc α :=
  match m.exports "free_result" with
  | none => some (s, .ok value)
  | some free => (runExport env s free [ret]).map fun (t, result) =>
    (t, result.map fun _ => value)

/-- What an export returned, decoded. -/
def finishCall (codec : Codec α) (name : String) (s : HostState σ Doc) (ret : Int32) :
    Called σ Doc α :=
  match decodeReturn env.checks s.memory ret with
  | .error .overflow => none
  | .error (.run error) => some (s, .error (.run error))
  | .ok payload => match codec.decode payload with
    | none => some (s, .error (.decode name (env.undecodable payload)))
    | some value => freeResult env m s ret value

/-- Calls an export and decodes its result. -/
def callExport (codec : Codec α) (name : String) (s : HostState σ Doc) (args : List Int32) :
    Called σ Doc α :=
  match m.exports name with
  | none => some (s, .error (.missingExport name))
  | some f => (runExport env s f args).bind fun run => match run.2 with
    | .error error => some (run.1, .error error)
    | .ok ret => finishCall env m codec name run.1 ret

def Entry.call (e : Entry α) (s : HostState σ Doc) : Called σ Doc α :=
  (s.passAll e.arguments).bind fun (t, args) => callExport env m e.codec e.name t args

end Calls

/-! The entry points. -/

/-- The query is raw UTF-8. -/
def search (query : Option String) (page : Int32) (filters : List FilterValue) :
    Entry Models.MangaPageResult :=
  ⟨"get_search_manga_list", Wire.mangaPageResult,
    [.text (query.getD ""), .number page, .encoded Wire.filters filters]⟩

def flag (b : Bool) : Int32 := if b then 1 else 0

def mangaUpdate (manga : Models.Manga) (needsDetails needsChapters : Bool) : Entry Models.Manga :=
  ⟨"get_manga_update", Wire.manga,
    [.encoded Wire.manga manga, .number (flag needsDetails), .number (flag needsChapters)]⟩

def pageList (manga : Models.Manga) (chapter : Models.Chapter) : Entry (List Models.Page) :=
  ⟨"get_page_list", Wire.pages, [.encoded Wire.manga manga, .encoded Wire.chapter chapter]⟩

/-! Wire types to domain types. -/

structure SourceManga where
  key : ExternalKey
  title : String
  cover : Option String
  authors : List String
  artists : List String
  description : Option String
  url : Option String
  tags : List String
  status : Models.MangaStatus
  contentRating : Models.ContentRating
  direction : ReadingDirection
  /-- Present when the source returned chapters alongside the details. -/
  chapters : Option (List Persistence.ListedChapter)
deriving DecidableEq

/-- `DateTime::from_timestamp` -/
def fromTimestamp (secs : Int64) : Option Time :=
  if -8334601228800 ≤ secs.toInt ∧ secs.toInt < 8210266876800 then some (.seconds secs.toInt)
  else none

def mapChapter (c : Models.Chapter) : Persistence.ListedChapter where
  key := c.key
  title := c.title
  number := c.chapterNumber
  volume := c.volumeNumber
  publishedAt := c.dateUploaded.bind fromTimestamp
  scanlators := c.scanlators.getD []
  url := c.url
  language := c.language
  locked := c.locked

/-- A layout is not a direction. -/
def mapDirection : Models.Viewer → ReadingDirection
  | .rightToLeft => .rightToLeft
  | .leftToRight | .vertical | .webtoon => .leftToRight
  | .unknown => .unknown

def mapManga (m : Models.Manga) : SourceManga where
  key := m.key
  title := m.title
  cover := m.cover
  authors := m.authors.getD []
  artists := m.artists.getD []
  description := m.description
  url := m.url
  tags := m.tags.getD []
  status := m.status
  contentRating := m.contentRating
  direction := mapDirection m.viewer
  chapters := m.chapters.map fun chapters => chapters.map mapChapter

/-- What a guest error code means, in words. -/
def guestReason (code : ℤ) : String :=
  if code = -2 then "it does not implement this"
  else if code = -3 then "a request it made did not succeed"
  else if code = -4 then "it could not read the page it was given"
  else if code = -5 then "it needs script evaluation, which this server does not run"
  else if code = -6 then "it needs image processing, which this server does not do"
  else if code = -7 then "it received text it could not decode"
  else if code = -8 then "it could not parse the site's response"
  else if code = -9 then "it produced data this server could not read"
  else s!"error code {code}"

/-- Maps a failure, deciding whether it is worth retrying. -/
def mapRunError : CallError → DomainError
  | .run (.guest code) => .source s!"the source failed: {guestReason code}" (code = -3)
  | .run (.message text) => .source text false
  | .missingExport name => .source s!"source does not implement {name}" false
  | .run (.malformed detail) => .source s!"source returned malformed data: {detail}" false
  | .decode entry source => .source s!"source returned undecodable {entry}: {source}" false
  | .wasm error => .source s!"source trapped: {error}" false

section Ports
variable {σ Doc α : Type} (env : SourceHost σ Doc) (loaded : Option (GuestModule σ Doc))
  (source : SourceId) (defaults : σ)

/-- Runs one invocation on a thread of its own. -/
def runSource (e : Entry α) : Except DomainError α :=
  match loaded with
  | none => .error (.source (s!"source {source.uuid.hyphenated} is installed but not loaded; " ++
      "its package is missing or would not compile — reinstall it") false)
  | some m => match (Invocation.new env m defaults).bind fun (s, started) => match started with
      | .error error => some (.error error)
      | .ok () => (e.call env m s).map Prod.snd with
    | none => .error (.internal s!"source task failed: {env.panicked}")
    | some outcome => outcome.mapError mapRunError

/-- The minimum a source needs to identify a series it is asked about. -/
def probeManga (key : ExternalKey) : Models.Manga := { key := key }

def details (key : ExternalKey) : Except DomainError SourceManga :=
  (runSource env loaded source defaults (mangaUpdate (probeManga key) true false)).map mapManga

def chapters (key : ExternalKey) : Except DomainError (List Persistence.ListedChapter) :=
  (runSource env loaded source defaults (mangaUpdate (probeManga key) false true)).map fun m =>
    (m.chapters.getD []).map mapChapter

def chapterPages (manga chapter : ExternalKey) : Except DomainError (List SourcePage) :=
  (runSource env loaded source defaults
    (pageList (probeManga manga) { key := chapter })).map pages

/-- `str::parse::<i32>` -/
def parseI32 (s : List Char) : Option ℤ :=
  let negative := s.head? = some '-'
  let digits := if negative || s.head? = some '+' then s.tail else s
  if digits = [] || !digits.all Char.isDigit then none
  else
    let n : ℤ := Nat.ofDigitChars 10 digits 0
    let value := if negative then -n else n
    if Fits value then some value else none

/-- A cursor that is not a page number is a client error. -/
def pageNumber : Option String → Except DomainError Int32
  | none => .ok 1
  | some cursor => match parseI32 cursor.toList with
    | some n => .ok (.ofInt n)
    | none => .error (.invalid s!"cursor {env.quoted cursor} is not a page number")

/-- What ends a listing: an error, or a page number that does not fit. -/
inductive ListFailure where
  | error (e : DomainError)
  | overflow
deriving DecidableEq, Repr

/-- The cursor of the page after this one. -/
def nextCursor (hasNext : Bool) (page : Int32) : Except ListFailure (Option String) :=
  if hasNext then
    match i32 env.checks (page.toInt + 1) with
    | .ok next => .ok (some (toString next))
    | .error _ => .error .overflow
  else .ok none

/-- The source pages by number, so the cursor carries one. -/
def list (query : Option String) (filters : JsonValue) (cursor : Option String) :
    Except ListFailure (Page SourceManga String) := do
  let page ← (pageNumber env cursor).mapError .error
  let filters ← (parseFilters env.refused filters).mapError .error
  let result ← (runSource env loaded source defaults (search query page filters)).mapError .error
  let next ← nextCursor env result.hasNextPage page
  return ⟨result.entries.map mapManga, next⟩

end Ports

/-! A source with two pages of its catalogue, and no luck with a chapter. -/

def catalogueHost : SourceHost MemoryDefaults Unit :=
  { linkImports with
    undecodable := fun _ => "Hit the end of buffer, expected more data"
    refused := fun _ => "invalid type"
    panicked := "task panicked"
    quoted := String.quote }

def catalogueModule : GuestModule MemoryDefaults Unit where
  instantiate := .ok (some (List.replicate 16 0))
  exports name :=
    if name = "get_search_manga_list" then
      some fun _ args => ⟨[.store 0 [10, 0, 0, 0, 10, 0, 0, 0, 0,
        if args[1]? = some 1 then 1 else 0]], .returned 0⟩
    else if name = "get_page_list" then some fun _ _ => ⟨[], .returned (-3)⟩
    else none

/-- An instance of it. -/
def catalogued : HostState MemoryDefaults Unit :=
  .new (some (List.replicate 16 0)) ⟨fun _ => none⟩

/-! Arguments. -/

/-- In whatever state the guest comes to without destroying it, the buffer is there to be read. -/
def Kept {σ Doc : Type} (env : Imports σ Doc) (s : HostState σ Doc) (rid : Int32) (bytes : Bytes) :
    Prop :=
  ∀ steps t, .call (.destroy rid) ∉ steps → Runs.exec (HostState.step env) s steps = some t →
    HandsOver env t rid bytes

section Arguments
variable {σ Doc : Type} {env : Imports σ Doc} {s t u : HostState σ Doc} {bytes : Bytes}
  {rid value : Int32} {argument : Argument} {arguments : List Argument} {values : List Int32}

/-- The buffers of one state are there in another. -/
def Buffered (s t : HostState σ Doc) : Prop :=
  ∀ id bytes, s.table.entries id = some (.buffer bytes) → t.table.entries id = some (.buffer bytes)

/-- An argument that is a buffer stands there, written. -/
def Argument.Stands (s : HostState σ Doc) (value : Int32) : Argument → Prop
  | .text content => s.table.entries value.toInt = some (.buffer (Text.utf8 content.toList))
  | .encoded codec x => s.table.entries value.toInt = some (.buffer (codec.write x))
  | .number n => value = n

theorem Argument.Stands.later (h : argument.Stands s value) (hlater : Buffered s t) :
    argument.Stands t value := by
  cases argument with
  | text | encoded => exact hlater _ _ h
  | number => exact h

end Arguments

/-! Results. -/

/-- Called in the first state, the entry point returns this in the second. -/
structure Entry.Returns {σ Doc α : Type} (env : SourceHost σ Doc) (m : GuestModule σ Doc)
    (e : Entry α) (s t : HostState σ Doc) (ret : Int32) : Prop where
  exists_run : ∃ f u args, m.exports e.name = some f ∧ s.passAll e.arguments = some (u, args) ∧
    Runs.exec (HostState.step env.toImports) u (f u args).steps = some t ∧
      (f u args).ending = .returned ret

section Results
variable {σ Doc α : Type} {env : SourceHost σ Doc} {m : GuestModule σ Doc} {e : Entry α}
  {s t : HostState σ Doc} {ret : Int32} {memory : Memory} {value : α}
  {result : Except CallError α}

/-- Freeing a result does not change it. -/
theorem freeResult_value {found : α} (h : freeResult env m s ret found = some (t, .ok value)) :
    found = value := by
  unfold freeResult at h
  split at h
  · cases h
    rfl
  · obtain ⟨⟨u, answer⟩, -, heq⟩ := Option.map_eq_some_iff.mp h
    cases answer with
    | ok ret =>
      cases heq
      rfl
    | error error => cases heq

theorem Entry.Returns.call (h : e.Returns env m s t ret) :
    e.call env m s = finishCall env m e.codec e.name t ret := by
  obtain ⟨f, u, args, hexport, hpass, hexec, hending⟩ := h.exists_run
  simp only [Entry.call, hpass, Option.bind_some, callExport, hexport, runExport, hexec,
    Option.map_some, hending]

/-- Unless it returns, a call ends with an error that is not the guest's. -/
theorem returns_or (h : e.call env m s = some (t, result)) :
    (∃ u ret, e.Returns env m s u ret) ∨ (∃ name, result = .error (.missingExport name)) ∨
      ∃ error, result = .error (.wasm error) := by
  obtain ⟨⟨u, args⟩, hpass, hcall⟩ := Option.bind_eq_some_iff.mp h
  dsimp only [callExport] at hcall
  cases hexport : m.exports e.name with
  | none =>
    rw [hexport] at hcall
    cases hcall
    exact .inr (.inl ⟨_, rfl⟩)
  | some f =>
    rw [hexport] at hcall
    obtain ⟨run, hrun, hrest⟩ := Option.bind_eq_some_iff.mp hcall
    obtain ⟨v, hexec, rfl⟩ := Option.map_eq_some_iff.mp hrun
    cases hending : (f u args).ending with
    | returned ret => exact .inl ⟨v, ret, ⟨f, u, args, hexport, hpass, hexec, hending⟩⟩
    | trapped error =>
      rw [hending] at hrest
      cases hrest
      exact .inr (.inr ⟨error, rfl⟩)

theorem call_of_block {payload : Bytes} (h : e.Returns env m s t ret)
    (hmemory : t.memory = some memory) (hexact : ExactReturn memory ret)
    (hblock : ResultBlock memory ret.toInt payload) :
    e.call env m s = match e.codec.decode payload with
      | none => some (t, .error (.decode e.name (env.undecodable payload)))
      | some value => freeResult env m t ret value := by
  rw [h.call, finishCall, hmemory, hexact.result env.checks payload hblock]

/-- A value is answered only when it is what a block decodes to. -/
theorem block_of_call {u : HostState σ Doc} (h : e.Returns env m s t ret)
    (hmemory : t.memory = some memory) (hexact : ExactReturn memory ret)
    (hcall : e.call env m s = some (u, .ok value)) :
    ∃ payload, ResultBlock memory ret.toInt payload ∧ e.codec.decode payload = some value ∧
      freeResult env m t ret value = some (u, .ok value) := by
  by_cases hresult : ∃ payload, ResultBlock memory ret.toInt payload
  · obtain ⟨payload, hblock⟩ := hresult
    refine ⟨payload, hblock, ?_⟩
    rw [call_of_block h hmemory hexact hblock] at hcall
    split at hcall
    · cases hcall
    · next found hdecode =>
      obtain rfl := freeResult_value hcall
      exact ⟨hdecode, hcall⟩
  · rw [h.call, finishCall, hmemory] at hcall
    by_cases hmessage : ∃ bytes, MessageBlock memory ret.toInt bytes
    · obtain ⟨bytes, hblock⟩ := hmessage
      rw [hexact.message env.checks bytes hblock] at hcall
      cases hcall
    · obtain ⟨error, herror, -⟩ :=
        hexact.other env.checks (not_exists.mp hresult) (not_exists.mp hmessage)
      rw [herror] at hcall
      cases hcall

/-- What a call answers of what was returned. -/
structure Conveys (env : SourceHost σ Doc) (m : GuestModule σ Doc) (e : Entry α)
    (s t : HostState σ Doc) (ret : Int32) (memory : Memory) : Prop where
  value : ∀ value rest, e.codec.Valid value →
    ResultBlock memory ret.toInt (e.codec.write value ++ rest) →
      e.call env m s = freeResult env m t ret value
  undecodable : ∀ payload, ResultBlock memory ret.toInt payload → e.codec.decode payload = none →
    e.call env m s = some (t, .error (.decode e.name (env.undecodable payload)))
  message : ∀ text, MessageBlock memory ret.toInt (Text.utf8 text) →
    e.call env m s = some (t, .error (.run (.message (String.ofList text))))
  only : ∀ u value, e.call env m s = some (u, .ok value) →
    ∃ payload, ResultBlock memory ret.toInt payload ∧ e.codec.decode payload = some value

/-- What a source leaves as a result is what the call answers: its value if that is written there,
its words if those are, and never a value that it did not write. -/
theorem result_arrives (h : e.Returns env m s t ret) (hmemory : t.memory = some memory)
    (hroom : RoomyReturn memory ret.toInt) : Conveys env m e s t ret memory := by
  have hexact := hroom.exact
  refine ⟨fun value rest hvalid hblock => ?_, fun payload hblock hdecode => ?_,
    fun text hblock => ?_, fun u value hcall => ?_⟩
  · rw [call_of_block h hmemory hexact hblock, e.codec.decode_write hvalid rest]
  · rw [call_of_block h hmemory hexact hblock, hdecode]
  · rw [h.call, finishCall, hmemory, hexact.message_text hblock]
  · obtain ⟨payload, hblock, hdecode, -⟩ := block_of_call h hmemory hexact hcall
    exact ⟨payload, hblock, hdecode⟩

/-- The first page has no series and says that there is a second one. -/
theorem catalogue_arrives : ∃ t, (search none 1 []).call catalogueHost catalogueModule catalogued =
    some (t, .ok ⟨[], true⟩) := by
  have hwritten : Wire.mangaPageResult.write ⟨[], true⟩ = [0, 1] := by
    change writeVarint 0 ++ [] ++ [1] = _
    rw [writeVarint]
    rfl
  have hreturns : ∃ t memory,
      (search none 1 []).Returns catalogueHost catalogueModule catalogued t 0 ∧
        t.memory = some memory ∧ RoomyReturn memory (0 : Int32).toInt ∧
          ResultBlock memory (0 : Int32).toInt [0, 1] :=
    ⟨_, _, ⟨_, _, _, rfl, rfl, rfl, rfl⟩, rfl,
      ⟨fun _ _ => by decide, fun _ _ h => absurd h (by decide), fun _ _ _ => by decide⟩,
      by decide, by decide, by decide, by decide⟩
  obtain ⟨t, memory, hreturns, hmemory, hroom, hblock⟩ := hreturns
  have hvalid : Wire.mangaPageResult.Valid ⟨[], true⟩ := by
    rw [Wire.mangaPageResult_valid]
    exact ⟨by decide, fun _ h => by cases h⟩
  have hcall := (result_arrives hreturns hmemory hroom).value _ [] hvalid
    (by
      change ResultBlock memory _ (Wire.mangaPageResult.write ⟨[], true⟩ ++ [])
      rwa [hwritten])
  exact ⟨t, hcall.trans rfl⟩

end Results

/-! What the ports answer. -/

/-- The source is started, its export leaves the value in a block and has the block freed. -/
structure Leaves {σ Doc α : Type} (env : SourceHost σ Doc) (m : GuestModule σ Doc) (defaults : σ)
    (e : Entry α) (value : α) : Prop where
  exists_block : ∃ s t u ret memory payload, Invocation.new env m defaults = some (s, .ok ()) ∧
    e.Returns env m s t ret ∧ t.memory = some memory ∧ ResultBlock memory ret.toInt payload ∧
      e.codec.decode payload = some value ∧ freeResult env m t ret value = some (u, .ok value)

/-- What the source can return to a call has room for a message's header. -/
def Entry.Roomy {σ Doc α : Type} (env : SourceHost σ Doc) (m : GuestModule σ Doc) (defaults : σ)
    (e : Entry α) : Prop :=
  ∀ s t ret memory, Invocation.new env m defaults = some (s, .ok ()) → e.Returns env m s t ret →
    t.memory = some memory → RoomyReturn memory ret.toInt

section PortAnswers
variable {σ Doc α : Type} {env : SourceHost σ Doc} {m : GuestModule σ Doc} {source : SourceId}
  {defaults : σ} {e : Entry α} {value : α}

theorem runSource_eq_ok :
    runSource env (some m) source defaults e = .ok value ↔ ∃ s t,
      Invocation.new env m defaults = some (s, .ok ()) ∧
        e.call env m s = some (t, .ok value) := by
  simp only [runSource]
  cases hnew : Invocation.new env m defaults with
  | none => simp
  | some started =>
    obtain ⟨s, result⟩ := started
    rw [Option.bind_some]
    cases result with
    | error error => simp [Except.mapError]
    | ok =>
      dsimp only
      cases hcall : e.call env m s with
      | none => simp [hcall]
      | some called =>
        obtain ⟨t, answer⟩ := called
        cases answer <;> simp [hcall, Except.mapError]

theorem runSource_ok_iff (hroomy : e.Roomy env m defaults) :
    runSource env (some m) source defaults e = .ok value ↔ Leaves env m defaults e value := by
  rw [runSource_eq_ok]
  constructor
  · rintro ⟨s, u, hnew, hcall⟩
    obtain ⟨t, ret, hreturns⟩ | ⟨name, hname⟩ | ⟨text, htext⟩ := returns_or hcall
    · cases hmemory : t.memory with
      | none =>
        rw [hreturns.call, finishCall, hmemory, decodeReturn] at hcall
        split_ifs at hcall
        · cases hcall
        · cases hcall
      | some memory =>
        have hexact := (hroomy s t ret memory hnew hreturns hmemory).exact
        obtain ⟨payload, hblock, hdecode, hfree⟩ := block_of_call hreturns hmemory hexact hcall
        exact ⟨s, t, u, ret, memory, payload, hnew, hreturns, hmemory, hblock, hdecode, hfree⟩
    · cases hname
    · cases htext
  · rintro ⟨s, t, u, ret, memory, payload, hnew, hreturns, hmemory, hblock, hdecode, hfree⟩
    have hexact := (hroomy s t ret memory hnew hreturns hmemory).exact
    refine ⟨s, u, hnew, ?_⟩
    rw [call_of_block hreturns hmemory hexact hblock, hdecode]
    exact hfree

/-- A port answers exactly what becomes of a value that its source has left as the result of its
own export, called with nothing but the keys. -/
theorem ports_answer (source : SourceId) (manga key : ExternalKey)
    (hdetails : (mangaUpdate (probeManga manga) true false).Roomy env m defaults)
    (hchapters : (mangaUpdate (probeManga manga) false true).Roomy env m defaults)
    (hpages : (pageList (probeManga manga) { key }).Roomy env m defaults) :
    (∀ found, details env (some m) source defaults manga = .ok found ↔ ∃ value,
      Leaves env m defaults (mangaUpdate (probeManga manga) true false) value ∧
        mapManga value = found) ∧
    (∀ found, chapters env (some m) source defaults manga = .ok found ↔ ∃ value,
      Leaves env m defaults (mangaUpdate (probeManga manga) false true) value ∧
        (value.chapters.getD []).map mapChapter = found) ∧
    ∀ found, chapterPages env (some m) source defaults manga key = .ok found ↔ ∃ value,
      Leaves env m defaults (pageList (probeManga manga) { key }) value ∧ pages value = found := by
  refine ⟨fun found => ?_, fun found => ?_, fun found => ?_⟩
  · simp only [details, Results.map_eq_ok, runSource_ok_iff hdetails]
  · simp only [chapters, Results.map_eq_ok, runSource_ok_iff hchapters]
  · simp only [chapterPages, Results.map_eq_ok, runSource_ok_iff hpages]

/-- A source with a chapter of one page. -/
def chapterModule : GuestModule MemoryDefaults Unit where
  instantiate := .ok (some (List.replicate 16 0))
  exports name :=
    if name = "get_page_list" then
      some fun _ _ => ⟨[.store 0 [16, 0, 0, 0, 16, 0, 0, 0, 1, 0, 1, 97, 0, 0, 0, 0]], .returned 0⟩
    else none

theorem chapter_answered :
    chapterPages catalogueHost (some chapterModule) ⟨0⟩ ⟨fun _ => none⟩ "b" "c" =
      .ok [⟨0, .url "a" [], none⟩] := by
  have hnone (needsDetails needsChapters : Bool) :
      (mangaUpdate (probeManga "b") needsDetails needsChapters).Roomy catalogueHost chapterModule
        ⟨fun _ => none⟩ := by
    rintro s t ret memory - ⟨f, u, args, hexport, -⟩
    cases hexport
  have hpages : (pageList (probeManga "b") { key := "c" }).Roomy catalogueHost chapterModule
      ⟨fun _ => none⟩ := by
    rintro s t ret memory hnew ⟨f, u, args, hexport, hpass, hexec, hending⟩ hmemory
    cases hnew
    cases hexport
    cases hpass
    cases hexec
    cases hending
    cases hmemory
    exact ⟨fun _ _ => by decide, fun _ _ h => absurd h (by decide), fun _ _ _ => by decide⟩
  refine ((ports_answer ⟨0⟩ "b" "c" (hnone _ _) (hnone _ _) hpages).2.2 _).mpr
    ⟨[⟨.url "a" none, none, false, none⟩], ⟨_, _, _, 0, _, [1, 0, 1, 97, 0, 0, 0, 0], rfl,
      ⟨_, _, _, rfl, rfl, rfl, rfl⟩, rfl, ⟨by decide, by decide, by decide, by decide⟩, rfl,
      rfl⟩, rfl⟩

end PortAnswers

/-! Retries. -/

/-- A failure that is not a code of the guest. -/
def Failure.NotGuest (e : Failure) : Prop := ∀ code, e ≠ .run (.guest code)

section Retries
variable {m : Memory} {checks : Bool} {n ptr : ℤ} {failure : Failure} {ret : Int32} {code : ℤ}

theorem readAt_error {offset len : ℕ} (h : m.readAt offset len = .error failure) :
    failure.NotGuest := by
  unfold Memory.readAt at h
  split at h
  · cases h
  · cases h
    exact fun _ h => by cases h

theorem i32_error (h : i32 checks n = .error failure) : failure.NotGuest := by
  unfold i32 at h
  split_ifs at h
  cases h
  exact fun _ h => by cases h

theorem readErrorMessage_error (h : readErrorMessage checks m ptr = .error failure) :
    failure.NotGuest := by
  obtain h | ⟨header, -, h⟩ := Results.bind_eq_error.mp h
  · exact readAt_error h
  split_ifs at h
  obtain h | ⟨len, -, h⟩ := Results.bind_eq_error.mp h
  · exact i32_error h
  split_ifs at h
  · cases h
    exact fun _ h => by cases h
  obtain h | ⟨start, -, h⟩ := Results.bind_eq_error.mp h
  · exact i32_error h
  obtain h | ⟨bytes, -, h⟩ := Results.bind_eq_error.mp h
  · exact readAt_error h
  · cases h

private theorem readResult_error (h : readResult checks m ptr = .error failure) :
    failure.NotGuest := by
  obtain h | ⟨header, -, h⟩ := Results.bind_eq_error.mp h
  · exact readAt_error h
  dsimp only at h
  split_ifs at h
  · cases h
    exact fun _ h => by cases h
  obtain h | ⟨start, -, h⟩ := Results.bind_eq_error.mp h
  · exact i32_error h
  · exact readAt_error h

theorem decodeReturn_guest {memory : Option Memory} :
    decodeReturn checks memory ret = .error (.run (.guest code)) ↔ ret.toInt = code ∧ code < 0 := by
  constructor
  · intro h
    unfold decodeReturn at h
    split_ifs at h with hneg
    · cases h
      exact ⟨rfl, hneg⟩
    · split at h
      · cases h
      obtain h | ⟨message, -, h⟩ := Results.bind_eq_error.mp h
      · exact absurd rfl (readErrorMessage_error h code)
      split at h
      · cases h
      · exact absurd rfl (readResult_error h code)
  · rintro ⟨rfl, hneg⟩
    exact decodeReturn_of_neg hneg

variable {σ Doc α : Type} {env : SourceHost σ Doc} {module : GuestModule σ Doc} {e : Entry α}
  {s t : HostState σ Doc} {loaded : Option (GuestModule σ Doc)} {source : SourceId} {defaults : σ}

theorem runExport_error {f : HostState σ Doc → List Int32 → Running} {args : List Int32}
    {error : CallError} (h : runExport env s f args = some (t, .error error)) :
    ∃ text, error = .wasm text := by
  obtain ⟨u, -, heq⟩ := Option.map_eq_some_iff.mp h
  obtain ⟨-, hending⟩ := Prod.mk.inj heq
  split at hending
  · cases hending
  · cases hending
    exact ⟨_, rfl⟩

theorem new_error {error : CallError}
    (h : Invocation.new env module defaults = some (t, .error error)) :
    ∃ text, error = .wasm text := by
  unfold Invocation.new at h
  split at h
  · cases h
    exact ⟨_, rfl⟩
  · split at h
    · cases h
    · obtain ⟨⟨u, answer⟩, hrun, heq⟩ := Option.map_eq_some_iff.mp h
      cases answer with
      | ok ret => cases heq
      | error error =>
        cases heq
        exact runExport_error hrun

/-- A call ends with a code of the guest exactly when that is what the guest returned. -/
theorem call_guest : (∃ t, e.call env module s = some (t, .error (.run (.guest code)))) ↔
    code < 0 ∧ ∃ t ret, e.Returns env module s t ret ∧ ret.toInt = code := by
  constructor
  · rintro ⟨t, h⟩
    obtain ⟨u, ret, hreturns⟩ | ⟨name, hname⟩ | ⟨text, htext⟩ := returns_or h
    · rw [hreturns.call] at h
      unfold finishCall at h
      split at h
      · cases h
      · next error herror =>
        cases h
        obtain ⟨hret, hneg⟩ := decodeReturn_guest.mp herror
        exact ⟨hneg, _, ret, hreturns, hret⟩
      · split at h
        · cases h
        · unfold freeResult at h
          split at h
          · cases h
          · obtain ⟨⟨v, answer⟩, hrun, heq⟩ := Option.map_eq_some_iff.mp h
            cases answer with
            | ok ret => cases heq
            | error error =>
              cases heq
              obtain ⟨text, htext⟩ := runExport_error hrun
              cases htext
    · cases hname
    · cases htext
  · rintro ⟨hneg, t, ret, hreturns, hret⟩
    refine ⟨t, ?_⟩
    rw [hreturns.call, finishCall, decodeReturn_guest.mpr ⟨hret, hneg⟩]

@[simp] private theorem mapRunError_retryable {error : CallError} :
    (mapRunError error).isRetryable = true ↔ error = .run (.guest (-3)) := by
  cases error with
  | run error => cases error <;> simp [mapRunError, DomainError.isRetryable]
  | _ => simp [mapRunError, DomainError.isRetryable]

/-- A source that is not loaded or does not start fails for good. -/
private theorem not_retryable_of_not_started {error : DomainError}
    (h : runSource env loaded source defaults e = .error error)
    (hnot : ∀ module s, loaded = some module →
      Invocation.new env module defaults ≠ some (s, .ok ())) : error.isRetryable = false := by
  cases loaded with
  | none =>
    cases h
    rfl
  | some module =>
    simp only [runSource] at h
    cases hnew : Invocation.new env module defaults with
    | none =>
      rw [hnew] at h
      cases h
      rfl
    | some started =>
      obtain ⟨s, result⟩ := started
      cases result with
      | error failure =>
        obtain ⟨text, rfl⟩ := new_error hnew
        rw [hnew] at h
        cases h
        rfl
      | ok => exact absurd hnew (hnot module s rfl)

/-- What is left of a source that was started is what its export answered. -/
private theorem retryable_iff_of_started {error : DomainError} {module : GuestModule σ Doc}
    {s : HostState σ Doc} (hnew : Invocation.new env module defaults = some (s, .ok ()))
    (h : runSource env (some module) source defaults e = .error error) :
    error.isRetryable = true ↔
      ∃ t, e.call env module s = some (t, .error (.run (.guest (-3)))) := by
  simp only [runSource] at h
  rw [hnew, Option.bind_some] at h
  cases hcall : e.call env module s with
  | none =>
    rw [hcall] at h
    cases h
    exact ⟨fun h => (by cases h), fun ⟨_, h⟩ => (by cases h)⟩
  | some called =>
    obtain ⟨t, answer⟩ := called
    rw [hcall] at h
    cases answer with
    | ok value => cases h
    | error failure =>
      cases h
      rw [mapRunError_retryable]
      constructor
      · rintro rfl
        exact ⟨t, rfl⟩
      · rintro ⟨t', h⟩
        cases h
        rfl

/-- A failure is worth another attempt exactly when the source was started and its export then said
that a request had failed. -/
theorem retryable_iff {error : DomainError}
    (h : runSource env loaded source defaults e = .error error) :
    error.isRetryable = true ↔ ∃ module s t ret, loaded = some module ∧
      Invocation.new env module defaults = some (s, .ok ()) ∧ e.Returns env module s t ret ∧
        ret.toInt = -3 := by
  constructor
  · intro hretryable
    by_cases hstarted : ∃ module s, loaded = some module ∧
        Invocation.new env module defaults = some (s, .ok ())
    · obtain ⟨module, s, rfl, hnew⟩ := hstarted
      obtain ⟨-, t, ret, hreturns, hret⟩ :=
        call_guest.mp ((retryable_iff_of_started hnew h).mp hretryable)
      exact ⟨module, s, t, ret, rfl, hnew, hreturns, hret⟩
    · have hfinal := not_retryable_of_not_started h fun module s hloaded hnew =>
        hstarted ⟨module, s, hloaded, hnew⟩
      rw [hfinal] at hretryable
      cases hretryable
  · rintro ⟨module, s, t, ret, rfl, hnew, hreturns, hret⟩
    exact (retryable_iff_of_started hnew h).mpr
      (call_guest.mpr ⟨by decide, t, ret, hreturns, hret⟩)

theorem chapter_retryable : ∃ error,
    runSource catalogueHost (some catalogueModule) ⟨0⟩ ⟨fun _ => none⟩
      (pageList (probeManga "a") { key := "b" }) = .error error ∧ error.isRetryable = true := by
  have hfailed : ∃ module s t ret, some catalogueModule = some module ∧
      Invocation.new catalogueHost module ⟨fun _ => none⟩ = some (s, .ok ()) ∧
        (pageList (probeManga "a") { key := "b" }).Returns catalogueHost module s t ret ∧
          ret.toInt = -3 :=
    ⟨_, _, _, -3, rfl, rfl, ⟨_, _, _, rfl, rfl, rfl, rfl⟩, by decide⟩
  exact ⟨_, rfl, (@retryable_iff _ _ _ _ _ _ ⟨0⟩ _ _ rfl).mpr hfailed⟩

end Retries

/-! Listing. -/

section Listing
variable {σ Doc : Type} {env : SourceHost σ Doc} {loaded : Option (GuestModule σ Doc)}
  {source : SourceId} {defaults : σ} {query : Option String} {filters : JsonValue}
  {values : List FilterValue} {cursor : Option String} {k : ℕ}

end Listing

end Runtime
end Nyuka
