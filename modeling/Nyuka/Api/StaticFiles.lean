import Nyuka.Api.Ranges
import Nyuka.Foundation.HttpCaches

/-! The frontend that is built into the binary: which file a URL is answered with, how long a
browser may keep it, and what a browser then shows over many deployments. -/
namespace Nyuka
namespace Api
namespace StaticFiles
open Packaging Queue Text

/-- How long a content-hashed asset may be cached. -/
def immutableCache : String := "public, max-age=31536000, immutable"

def htmlCache : String := "no-cache"

/-- The length of the hash that the bundler appends. -/
def hashLen : ℕ := 8

/-- `Path::file_name`: the last component, unless that leads upwards. -/
def fileName (path : List Char) : Option (List Char) :=
  (((path.splitOn '/').filter fun c => c ≠ [] ∧ c ≠ ['.']).getLast?).filter (· ≠ ['.', '.'])

/-- `Path::file_stem`: the name up to its last dot, all of it when that dot comes first. -/
def fileStem (path : List Char) : Option (List Char) :=
  (fileName path).map fun name =>
    if '.' ∈ name.tail then (name.rdropWhile (· ≠ '.')).dropLast else name

def isHashChar (c : Char) : Bool :=
  (c.isDigit || c.isUpper || c.isLower) || c = '_' || c = '-'

/-- Whether a path is safe to serve as immutable. Nothing comes back where the source cuts the
stem inside a character. -/
def isContentHashed (path : List Char) : Option Bool :=
  if !"assets/".toList.isPrefixOf path then some false
  else
    match fileStem path with
    | none => some false
    | some stem =>
      if bytes stem ≤ hashLen + 1 then some false
      else
        (splitAtByte (bytes stem - hashLen - 1) stem).bind fun (name, suffix) =>
          if name ≠ [] ∧ suffix.head? ≠ some '-' then some false
          else
            (splitAtByte 1 suffix).map fun (_, hash) =>
              bytes hash = hashLen && hash.all isHashChar

/-- The name of an asset with the hash of its content. -/
structure Hashed (path : List Char) : Prop where
  folder : "assets/".toList <+: path
  stem : ∃ name hash, fileStem path = some (name ++ '-' :: hash) ∧ name ≠ [] ∧
    hash.length = hashLen ∧ ∀ c ∈ hash, isHashChar c = true

private theorem utf8Size_of_isHashChar {c : Char} (h : isHashChar c = true) : c.utf8Size = 1 := by
  have hsmall : c.toNat ≤ 127 := by
    simp only [isHashChar, Bool.or_eq_true, decide_eq_true_eq] at h
    rcases h with (((h | h) | h) | rfl) | rfl
    · exact (isDigit_bounds h).2.trans (by decide)
    · exact (isUpper_bounds h).2.trans (by decide)
    · exact (isLower_bounds h).2.trans (by decide)
    · decide
    · decide
  exact Char.utf8Size_eq_one_iff.mpr (UInt32.le_iff_toNat_le.mpr hsmall)

theorem bytes_of_isHashChar {s : List Char} (h : ∀ c ∈ s, isHashChar c = true) :
    bytes s = s.length := by
  induction s with
  | nil => rfl
  | cons c s ih =>
    have hc := utf8Size_of_isHashChar (h c List.mem_cons_self)
    have hs := ih fun d hd => h d (List.mem_cons_of_mem c hd)
    simp only [bytes, List.map_cons, List.sum_cons, List.length_cons] at hs ⊢
    omega

@[simp]
private theorem splitAtByte_hyphen (s : List Char) : splitAtByte 1 ('-' :: s) = some (['-'], s) :=
  splitAtByte_eq_some.mpr ⟨rfl, rfl⟩

/-- The check finds these names and no others. -/
theorem isContentHashed_iff {path : List Char} :
    isContentHashed path = some true ↔ Hashed path := by
  unfold isContentHashed
  constructor
  · intro h
    split at h
    · cases h
    · next hfolder =>
      split at h
      · cases h
      · next stem hstem =>
        split at h
        · cases h
        · next hlong =>
          obtain ⟨⟨name, suffix⟩, hcut, hrest⟩ := Option.bind_eq_some_iff.mp h
          obtain ⟨rfl, hname⟩ := splitAtByte_eq_some.mp hcut
          have hne : name ≠ [] := by
            rintro rfl
            simp only [bytes, hashLen, List.map_nil, List.sum_nil, List.nil_append] at hname hlong
            omega
          have hhead : suffix.head? = some '-' := by
            by_contra hno
            change (if name ≠ [] ∧ suffix.head? ≠ some '-' then some false else _) = some true
              at hrest
            rw [if_pos ⟨hne, hno⟩] at hrest
            cases hrest
          change (if name ≠ [] ∧ suffix.head? ≠ some '-' then some false else _) = some true
            at hrest
          rw [if_neg fun h => h.2 hhead] at hrest
          cases suffix with
          | nil => cases hhead
          | cons c hash =>
            obtain rfl : c = '-' := Option.some.inj hhead
            rw [splitAtByte_hyphen, Option.map_some] at hrest
            have hchars := Option.some.inj hrest
            simp only [Bool.and_eq_true, decide_eq_true_eq, List.all_eq_true] at hchars
            obtain ⟨hlen, hall⟩ := hchars
            refine ⟨by simpa using hfolder, name, hash, hstem, hne, ?_, hall⟩
            rw [← bytes_of_isHashChar hall, hlen]
  · rintro ⟨hfolder, name, hash, hstem, hne, hlen, hall⟩
    have hhash := bytes_of_isHashChar hall
    have hhyphen : '-'.utf8Size = 1 := rfl
    have hpos : 0 < bytes name := by
      obtain ⟨c, rest, rfl⟩ := List.exists_cons_of_ne_nil hne
      have hc := c.utf8Size_pos
      simp only [bytes, List.map_cons, List.sum_cons]
      omega
    have htotal : bytes (name ++ '-' :: hash) = bytes name + hashLen + 1 := by
      rw [bytes_append]
      simp only [bytes, List.map_cons, List.sum_cons] at hhash ⊢
      omega
    have hcut : splitAtByte (bytes (name ++ '-' :: hash) - hashLen - 1) (name ++ '-' :: hash) =
        some (name, '-' :: hash) := splitAtByte_eq_some.mpr ⟨rfl, by omega⟩
    rw [if_neg (by simpa using hfolder), hstem]
    simp only [if_neg (show ¬ bytes (name ++ '-' :: hash) ≤ hashLen + 1 by omega), hcut,
      Option.bind_some, List.head?_cons, ne_eq, not_true_eq_false, and_false, if_false,
      splitAtByte_hyphen,
      Option.map_some, hhash, hlen, decide_true, Bool.true_and, List.all_eq_true.mpr hall]

/-- A file of a build, with the digest taken of it when the binary was built. -/
structure EmbeddedFile where
  data : Bytes
  sha256Hash : Bytes
deriving DecidableEq

/-- `Assets::get` of one build. -/
abbrev Build := List Char → Option EmbeddedFile

structure Uri where
  path : List Char
  query : Option (List Char)
deriving DecidableEq

/-- Whether a path belongs to the API. -/
def isApiPath (path : List Char) : Bool :=
  path = "/api/v1".toList || "/api/v1/".toList.isPrefixOf path

def noSuchEndpoint : Problem :=
  .new 404 "no-such-endpoint" "No such endpoint" "This URL is not part of the API."

def hex (bytes : Bytes) : String :=
  String.ofList (bytes.flatMap fun b => hexDigits 2 b.toNat)

def matchesEtag (candidate : List Char) (etag : String) : Bool :=
  trim candidate = ['*'] || ((candidate.splitOn ',').map trim).any fun c =>
    (stripPrefix "W/".toList c).getD c = etag.toList

def etagOf (file : EmbeddedFile) : String := Api.etagOf (hex file.sha256Hash)

section Serve
variable (mime : List Char → String)

/-- Nothing comes back where the check of the name fails. -/
def respond (path : List Char) (file : EmbeddedFile) (ifNoneMatch : Option Bytes) :
    Option Response :=
  if ((ifNoneMatch.bind headerToStr).any fun c => matchesEtag c.toList (etagOf file)) then
    some { status := 304, headers := [("etag", etagOf file)], body := [] }
  else
    (isContentHashed path).map fun hashed =>
      { status := 200
        headers :=
          [("content-type",
              if headerSafe (mime path) then mime path else "application/octet-stream"),
            ("cache-control", if hashed then immutableCache else htmlCache)] ++
          (if headerSafe (etagOf file) then [("etag", etagOf file)] else [])
        body := file.data }

def indexHtml : List Char := "index.html".toList

/-- The path looked up in the build. -/
def lookupPath (uri : Uri) : List Char :=
  let path := uri.path.dropWhile (· = '/')
  if path = [] then indexHtml else path

def serve (build : Build) (uri : Uri) (ifNoneMatch : Option Bytes) :
    Option (Except Problem Response) :=
  if isApiPath uri.path then some (.error noSuchEndpoint)
  else
    match build (lookupPath uri) with
    | some file => (respond mime (lookupPath uri) file ifNoneMatch).map .ok
    | none =>
      match build indexHtml with
      | some shell => (respond mime indexHtml shell ifNoneMatch).map .ok
      | none => some (.ok
          { status := 404
            headers := [("content-type", "text/plain; charset=utf-8")]
            body := "No frontend is embedded in this build.".toUTF8.toList })

/-- The file that a build has for a URL, under its own name or as the shell. -/
def chosen (build : Build) (uri : Uri) : Option (List Char × EmbeddedFile) :=
  if isApiPath uri.path then none
  else
    match build (lookupPath uri) with
    | some file => some (lookupPath uri, file)
    | none => (build indexHtml).map fun shell => (indexHtml, shell)

/-- What a browser takes from an answer. It may use one again that is not marked as `no-cache`. -/
def taken (r : Response) : Option (HttpCaches.Reply String Bytes) :=
  if r.status = 304 then some .notModified
  else if r.status = 200 then
    (r.header "etag").map fun tag =>
      .answer ⟨tag, r.header "cache-control" != some htmlCache, r.body⟩
  else none

def origin (build : Build) (uri : Uri) (tag : Option String) :
    Option (HttpCaches.Reply String Bytes) :=
  match serve mime build uri (tag.map fun t => headerValue t.toList) with
  | some (.ok r) => taken r
  | _ => none

end Serve

/-- What a build has to show under a URL, with its tag. -/
def content (build : Build) (uri : Uri) : Option (String × Bytes) :=
  (chosen build uri).map fun c => (etagOf c.2, c.2.data)

theorem hexChar {bytes : Bytes} {c : Char} (hc : c ∈ (hex bytes).toList) :
    c.isDigit = true ∨ c.isLower = true := by
  have hdigit : ∀ d < 16, (Nat.digitChar d).isDigit = true ∨ (Nat.digitChar d).isLower = true := by
    decide
  rw [hex, String.toList_ofList] at hc
  obtain ⟨b, -, hb⟩ := List.mem_flatMap.mp hc
  simp only [hexDigits, List.nil_append, List.cons_append, List.mem_cons, List.not_mem_nil,
    or_false] at hb
  rcases hb with rfl | rfl
  · exact hdigit _ (Nat.mod_lt _ (by decide))
  · exact hdigit _ (Nat.mod_lt _ (by decide))

theorem hex_inj {a b : Bytes} (h : hex a = hex b) : a = b := by
  have hchars := String.ofList_injective h
  induction a generalizing b with
  | nil =>
    cases b with
    | nil => rfl
    | cons y b => simp [hexDigits] at hchars
  | cons x a ih =>
    cases b with
    | nil => simp [hexDigits] at hchars
    | cons y b =>
      rw [List.flatMap_cons, List.flatMap_cons] at hchars
      obtain ⟨hhead, htail⟩ := List.append_inj hchars (by simp)
      have hxy : x = y :=
        UInt8.toNat_inj.mp (hexDigits_inj x.toNat_lt y.toNat_lt hhead)
      rw [hxy, ih (congrArg String.ofList htail) htail]

private theorem etagChar {file : EmbeddedFile} {c : Char} (hc : c ∈ (etagOf file).toList) :
    c = quote ∨ c.isDigit = true ∨ c.isLower = true := by
  rw [etagOf, Api.etagOf, String.toList_ofList] at hc
  rcases List.mem_cons.mp hc with rfl | hc
  · exact .inl rfl
  · rcases List.mem_append.mp hc with hc | hc
    · exact .inr (hexChar hc)
    · exact .inl (List.mem_singleton.mp hc)

/-- A tag has none of the characters that a header or a list of tags treats as its own. -/
theorem etagChar_plain {file : EmbeddedFile} {c : Char} (hc : c ∈ (etagOf file).toList) :
    (32 ≤ c.toNat ∧ c.toNat < 127) ∧ isWhitespace c = false ∧ c ≠ ',' ∧ c ≠ '*' ∧ c ≠ 'W' := by
  have hcode : c.toNat = 34 ∨ (48 ≤ c.toNat ∧ c.toNat ≤ 57) ∨ (97 ≤ c.toNat ∧ c.toNat ≤ 122) := by
    rcases etagChar hc with rfl | h | h
    · exact .inl rfl
    · exact .inr (.inl (isDigit_bounds h))
    · exact .inr (.inr (isLower_bounds h))
  refine ⟨by omega, ?_, ?_, ?_, ?_⟩
  · simp only [isWhitespace, Bool.or_eq_false_iff, Bool.and_eq_false_iff, decide_eq_false_iff_not]
    omega
  · rintro rfl
    exact absurd hcode (by decide)
  · rintro rfl
    exact absurd hcode (by decide)
  · rintro rfl
    exact absurd hcode (by decide)

@[simp] theorem headerSafe_etagOf (file : EmbeddedFile) : headerSafe (etagOf file) = true := by
  rw [headerSafe, List.all_eq_true]
  intro c hc
  have hplain := (etagChar_plain hc).1
  simp only [Bool.or_eq_true, Bool.and_eq_true, decide_eq_true_eq]
  omega

/-- The tag of a file matches that of another only if they are the same. -/
theorem matchesEtag_etagOf {f g : EmbeddedFile} :
    matchesEtag (etagOf f).toList (etagOf g) = true ↔ etagOf f = etagOf g := by
  have htrim : trim (etagOf f).toList = (etagOf f).toList :=
    trimMatches_of_none fun c hc => (etagChar_plain hc).2.1
  have hcomma : ',' ∉ (etagOf f).toList := fun hc => (etagChar_plain hc).2.2.1 rfl
  have hstar : (etagOf f).toList ≠ ['*'] := by
    intro hstar
    exact (etagChar_plain (hstar ▸ List.mem_singleton_self '*')).2.2.2.1 rfl
  have hweak : stripPrefix "W/".toList (etagOf f).toList = none := by
    rw [stripPrefix, if_neg]
    intro hprefix
    have hmem : 'W' ∈ (etagOf f).toList :=
      (List.isPrefixOf_iff_prefix.mp hprefix).subset List.mem_cons_self
    exact (etagChar_plain hmem).2.2.2.2 rfl
  rw [matchesEtag, htrim, List.splitOn_eq_singleton hcomma, List.map_singleton, htrim]
  simp only [decide_eq_false hstar, Bool.false_or, List.any_cons, List.any_nil, Bool.or_false,
    hweak, Option.getD_none, decide_eq_true_eq, String.toList_inj]

theorem digest_of_etagOf {f g : EmbeddedFile} (h : etagOf f = etagOf g) :
    f.sha256Hash = g.sha256Hash := by
  have hchars := congrArg String.toList h
  rw [etagOf, etagOf, Api.etagOf, Api.etagOf, String.toList_ofList, String.toList_ofList] at hchars
  exact hex_inj (String.toList_inj.mp (List.append_cancel_right (List.cons.inj hchars).2))

section Answers
variable {mime : List Char → String} {path : List Char} {file : EmbeddedFile} {build : Build}
  {uri : Uri} {tag : Option String} {a : HttpCaches.Answer String Bytes}

theorem serve_chosen {ifNoneMatch : Option Bytes} (h : chosen build uri = some (path, file)) :
    serve mime build uri ifNoneMatch = (respond mime path file ifNoneMatch).map .ok := by
  unfold chosen at h
  unfold serve
  split at h
  · cases h
  · next hapi =>
    rw [if_neg hapi]
    split at h
    · cases h
      rfl
    · obtain ⟨shell, hshell, hpair⟩ := Option.map_eq_some_iff.mp h
      cases hpair
      rw [hshell]

/-- Where no file is chosen, there is nothing that a browser keeps. -/
theorem origin_of_chosen_none (h : chosen build uri = none) : origin mime build uri tag = none := by
  unfold chosen at h
  unfold origin serve
  split at h
  · next hapi => rw [if_pos hapi]
  · next hapi =>
    rw [if_neg hapi]
    split at h
    · cases h
    · rw [Option.map_eq_none_iff.mp h]
      rfl

private theorem respond_eq_some {ifNoneMatch : Option Bytes} {r : Response}
    (h : respond mime path file ifNoneMatch = some r) :
    (taken r = some .notModified ∧
      ((ifNoneMatch.bind headerToStr).any fun c => matchesEtag c.toList (etagOf file)) = true) ∨
    ∃ hashed, isContentHashed path = some hashed ∧
      taken r = some (.answer ⟨etagOf file, hashed, file.data⟩) := by
  unfold respond at h
  split at h
  · next hmatch =>
    cases h
    exact .inl ⟨rfl, hmatch⟩
  · obtain ⟨hashed, hhashed, hr⟩ := Option.map_eq_some_iff.mp h
    rw [if_pos (headerSafe_etagOf file)] at hr
    subst hr
    refine .inr ⟨hashed, hhashed, ?_⟩
    cases hashed <;> rfl

/-- A browser takes the file that was chosen, to be kept when its name has the hash, or the
confirmation of a tag that matches. -/
theorem origin_eq_some {reply : HttpCaches.Reply String Bytes}
    (h : origin mime build uri tag = some reply) :
    ∃ path file, chosen build uri = some (path, file) ∧
      ((reply = .notModified ∧ ((tag.map fun t => headerValue t.toList).bind headerToStr).any
        (fun c => matchesEtag c.toList (etagOf file)) = true) ∨
      ∃ hashed, isContentHashed path = some hashed ∧
        reply = .answer ⟨etagOf file, hashed, file.data⟩) := by
  cases hchosen : chosen build uri with
  | none =>
    rw [origin_of_chosen_none hchosen] at h
    cases h
  | some c =>
    obtain ⟨path, file⟩ := c
    refine ⟨path, file, rfl, ?_⟩
    rw [origin, serve_chosen hchosen] at h
    cases hrespond : respond mime path file (tag.map fun t => headerValue t.toList) with
    | none =>
      rw [hrespond] at h
      cases h
    | some r =>
      rw [hrespond] at h
      change taken r = some reply at h
      rcases respond_eq_some hrespond with ⟨htaken, hmatch⟩ | ⟨hashed, hhashed, htaken⟩
      · exact .inl ⟨Option.some.inj (h.symm.trans htaken), hmatch⟩
      · exact .inr ⟨hashed, hhashed, Option.some.inj (h.symm.trans htaken)⟩

theorem validates (mime : List Char → String) : HttpCaches.Validates (origin mime) content where
  answer {build uri tag a} h := by
    obtain ⟨path, file, hchosen, ⟨hreply, -⟩ | ⟨hashed, -, hreply⟩⟩ := origin_eq_some h
    · cases hreply
    · cases hreply
      rw [content, hchosen]
      rfl
  confirm {build uri before uri' tag body} hbefore h := by
    obtain ⟨path, file, hchosen, ⟨-, hmatch⟩ | ⟨hashed, -, hreply⟩⟩ := origin_eq_some h
    · obtain ⟨⟨path', file'⟩, -, hpair⟩ := Option.map_eq_some_iff.mp hbefore
      obtain ⟨rfl, rfl⟩ := Prod.mk.inj hpair
      rw [Option.map_some, Option.bind_some,
        headerToStr_headerValue fun c hc => (etagChar_plain hc).1, Option.any_some,
        String.ofList_toList, matchesEtag_etagOf] at hmatch
      refine ⟨file.data, ?_⟩
      rw [content, hchosen]
      exact congrArg (fun t => some (t, file.data)) hmatch.symm
    · cases hreply

end Answers

/-- What the builds of all deployments are taken to agree on: the digests tell the contents apart,
and a name with the hash of a content has the same content in every build. -/
structure Deployed (builds : Set Build) : Prop where
  digests : ∀ b ∈ builds, ∀ b' ∈ builds, ∀ p p' f f', b p = some f → b' p' = some f' →
    f.sha256Hash = f'.sha256Hash → f.data = f'.data
  hashed : ∀ b ∈ builds, ∀ b' ∈ builds, ∀ p f f', Hashed p → b p = some f → b' p = some f' →
    f.data = f'.data

theorem mem_of_chosen {build : Build} {uri : Uri} {path : List Char} {file : EmbeddedFile}
    (h : chosen build uri = some (path, file)) :
    build path = some file ∧ (path = lookupPath uri ∨ path = indexHtml) := by
  unfold chosen at h
  split at h
  · cases h
  · split at h
    · next hfile =>
      cases h
      exact ⟨hfile, .inl rfl⟩
    · obtain ⟨shell, hshell, hpair⟩ := Option.map_eq_some_iff.mp h
      cases hpair
      exact ⟨hshell, .inr rfl⟩

theorem not_hashed_indexHtml : ¬ Hashed indexHtml := by
  intro h
  exact absurd h.folder (by decide)

/-- Over any deployments, reloads and evictions, what a browser shows under a URL is the file that
the current build chooses for it, or an asset of an earlier build whose name the current one no
longer has. -/
theorem shown_of_builds {mime : List Char → String} {builds : Set Build}
    (hbuilds : Deployed builds) {first : Build} (hfirst : first ∈ builds)
    {acts : List (HttpCaches.Act Build Uri)} (hacts : ∀ b, .publish b ∈ acts → b ∈ builds)
    {s : HttpCaches.Cache Build Uri String Bytes}
    (h : Runs.exec (HttpCaches.Cache.step (origin mime)) (.init first) acts = some s)
    {uri : Uri} {body : Bytes} (hshown : s.shown = some (uri, body)) :
    (∃ path file, chosen s.version uri = some (path, file) ∧ body = file.data) ∨
    (Hashed (lookupPath uri) ∧ s.version (lookupPath uri) = none ∧
      ∃ build ∈ builds, ∃ file, build (lookupPath uri) = some file ∧ body = file.data) := by
  have htags : ∀ v ∈ builds, ∀ v' ∈ builds, ∀ k k' tag b b', content v k = some (tag, b) →
      content v' k' = some (tag, b') → b = b' := by
    intro v hv v' hv' k k' tag b b' hb hb'
    obtain ⟨⟨path, file⟩, hchosen, hpair⟩ := Option.map_eq_some_iff.mp hb
    obtain ⟨⟨path', file'⟩, hchosen', hpair'⟩ := Option.map_eq_some_iff.mp hb'
    cases hpair
    obtain ⟨htag, rfl⟩ := Prod.mk.inj hpair'
    exact hbuilds.digests v hv v' hv' path path' file file' (mem_of_chosen hchosen).1
      (mem_of_chosen hchosen').1 (digest_of_etagOf htag.symm)
  have hsound := HttpCaches.Cache.shown_current (validates mime) htags
    (HttpCaches.Cache.sound_init hfirst) hacts h
  rcases hsound.shown uri body hshown with hcurrent | ⟨a, ⟨v, hv, tag, hgiven⟩, hfixed, rfl⟩
  · left
    obtain ⟨⟨tag, data⟩, hcontent, rfl⟩ := Option.map_eq_some_iff.mp hcurrent
    obtain ⟨⟨path, file⟩, hchosen, hpair⟩ := Option.map_eq_some_iff.mp hcontent
    cases hpair
    exact ⟨path, file, hchosen, rfl⟩
  · obtain ⟨path, file, hchosen, ⟨hreply, -⟩ | ⟨hashed, hhashed, hreply⟩⟩ := origin_eq_some hgiven
    · cases hreply
    · cases hreply
      obtain rfl : hashed = true := hfixed
      have hname := isContentHashed_iff.mp hhashed
      obtain ⟨hfile, rfl | rfl⟩ := mem_of_chosen hchosen
      · cases hnow : s.version (lookupPath uri) with
        | none => exact .inr ⟨hname, rfl, v, hv, file, hfile, rfl⟩
        | some file' =>
          -- the current build has the name too, so it has the same content
          have hdata := hbuilds.hashed v hv s.version hsound.version _ file file' hname hfile hnow
          have hapi : ¬ isApiPath uri.path = true := by
            intro hapi
            rw [chosen, if_pos hapi] at hchosen
            cases hchosen
          refine .inl ⟨lookupPath uri, file', ?_, hdata⟩
          rw [chosen, if_neg hapi, hnow]
      · exact absurd hname not_hashed_indexHtml

section Builds

def oldPage : EmbeddedFile where
  data := [111, 108, 100, 32, 112, 97, 103, 101]
  sha256Hash := [
    101, 226, 196, 26, 201, 65, 114, 246, 224, 11, 147, 170, 253, 198, 139, 2, 107, 37, 121, 28,
    68, 85, 128, 159, 36, 224, 79, 82, 253, 205, 40, 183]

def newPage : EmbeddedFile where
  data := [110, 101, 119, 32, 112, 97, 103, 101]
  sha256Hash := [
    8, 178, 102, 83, 197, 60, 136, 102, 175, 204, 228, 15, 153, 157, 190, 194, 109, 190, 218,
    233, 220, 17, 233, 252, 189, 210, 175, 247, 84, 31, 124, 225]

def oldScript : EmbeddedFile where
  data := [111, 108, 100, 40, 41]
  sha256Hash := [
    49, 51, 174, 206, 14, 201, 143, 91, 43, 34, 80, 194, 11, 54, 30, 74, 99, 233, 68, 208, 170,
    5, 158, 253, 161, 16, 174, 139, 157, 172, 18, 28]

def newScript : EmbeddedFile where
  data := [110, 101, 119, 40, 41]
  sha256Hash := [
    178, 189, 182, 25, 251, 6, 115, 197, 87, 217, 243, 211, 229, 28, 233, 38, 123, 233, 0, 95,
    14, 190, 193, 85, 7, 73, 122, 181, 50, 66, 176, 53]

def embedded (files : List (List Char × EmbeddedFile)) : Build := fun path => files.lookup path

def oldFiles : List (List Char × EmbeddedFile) :=
  [(indexHtml, oldPage), ("assets/index-CzojFC5Q.js".toList, oldScript)]

def newFiles : List (List Char × EmbeddedFile) :=
  [(indexHtml, newPage), ("assets/index-BGofoWnB.js".toList, newScript)]

private theorem mem_of_embedded {files : List (List Char × EmbeddedFile)} {path : List Char}
    {file : EmbeddedFile} (h : embedded files path = some file) : (path, file) ∈ files := by
  obtain ⟨l, r, rfl, -⟩ := List.lookup_eq_some_iff.mp h
  exact List.mem_append_right l List.mem_cons_self

theorem deployed_old_new : Deployed {embedded oldFiles, embedded newFiles} := by
  have hfiles : ∀ b ∈ ({embedded oldFiles, embedded newFiles} : Set Build), ∀ p f,
      b p = some f → (p, f) ∈ oldFiles ++ newFiles := by
    intro b hb p f hf
    rcases hb with rfl | rfl
    · exact List.mem_append_left _ (mem_of_embedded hf)
    · exact List.mem_append_right _ (mem_of_embedded hf)
  have hdigests : ∀ x ∈ oldFiles ++ newFiles, ∀ y ∈ oldFiles ++ newFiles,
      x.2.sha256Hash = y.2.sha256Hash → x.2.data = y.2.data := by decide
  have hnames : ∀ x ∈ oldFiles ++ newFiles, ∀ y ∈ oldFiles ++ newFiles, x.1 = y.1 →
      x.1 = indexHtml ∨ x.2.data = y.2.data := by decide
  constructor
  · intro b hb b' hb' p p' f f' hf hf' hdigest
    exact hdigests _ (hfiles b hb p f hf) _ (hfiles b' hb' p' f' hf') hdigest
  · intro b hb b' hb' p f f' hname hf hf'
    rcases hnames _ (hfiles b hb p f hf) _ (hfiles b' hb' p f' hf') rfl with rfl | hdata
    · exact absurd hname not_hashed_indexHtml
    · exact hdata

def script : Uri := ⟨"/assets/index-CzojFC5Q.js".toList, none⟩

/-- An open page still has the script of the build it was loaded from. -/
theorem old_script_shown : ∃ s, Runs.exec
      (HttpCaches.Cache.step (origin fun _ => "text/javascript")) (.init (embedded oldFiles))
      [.request script, .publish (embedded newFiles), .reuse script] = some s ∧
    s.shown = some (script, oldScript.data) ∧
    ((∃ path file, chosen s.version script = some (path, file) ∧ oldScript.data = file.data) ∨
    (Hashed (lookupPath script) ∧ s.version (lookupPath script) = none ∧
      ∃ build ∈ ({embedded oldFiles, embedded newFiles} : Set Build), ∃ file,
        build (lookupPath script) = some file ∧ oldScript.data = file.data)) := by
  have horigin : origin (fun _ => "text/javascript") (embedded oldFiles) script none =
      some (.answer ⟨etagOf oldScript, true, oldScript.data⟩) := by rfl
  have hrun : Runs.exec
      (HttpCaches.Cache.step (origin fun _ => "text/javascript")) (.init (embedded oldFiles))
      [.request script, .publish (embedded newFiles), .reuse script] =
      some ⟨embedded newFiles, Function.update (fun _ => none) script
        (some ⟨etagOf oldScript, true, oldScript.data⟩), some (script, oldScript.data)⟩ := by
    simp [Runs.exec, HttpCaches.Cache.step, HttpCaches.Cache.init, horigin]
  refine ⟨_, hrun, rfl, shown_of_builds deployed_old_new (.inl rfl) (fun b hb => ?_) hrun rfl⟩
  have hnew : b = embedded newFiles := by simpa using hb
  exact .inr hnew

end Builds

end StaticFiles
end Api
end Nyuka
