import Nyuka.Runtime.Guests

/-! What a guest can rely on through its run: which of its memory is written, that a failed call
changes nothing, that an answered text is handed over as it was, that documents keep their base, and
what the codes of each module mean. -/
namespace Nyuka
namespace Runtime
variable {σ Doc : Type} {env : Imports σ Doc} {s t u : HostState σ Doc} {c : HostCall}
  {steps : List GuestStep}

/-! A page with one link, as a source fetches it. -/

def linkMarkup : String := "<a href=\"/1\">One</a>"

/-- The page's nodes are the document, its three elements, the link and the text in it. -/
def linkDom : DomQuery Unit where
  document _ := ()
  fragment _ := ()
  root _ := 0
  matcher selector := selector ≠ "["
  trySelect _ id selector := if selector = "a" ∧ id < 4 then some [4] else none
  data _ id := match id with
    | 0 => .document
    | 5 => .text "One"
    | _ => .element
  attr _ id name := if id = 4 ∧ name = "href" then some "/1" else none
  text _ _ := "One"
  immediateText _ id := if id = 4 then "One" else ""
  html _ id := if id = 5 then "One" else linkMarkup
  baseUri _ _ := none
  nodeName _ id := if id = 4 then some "a" else none
  idAttr _ _ := none
  className _ _ := none
  hasClass _ _ _ := false
  hasAttr _ id name := id = 4 ∧ name = "href"
  parent _ id := match id with
    | 0 => none
    | 1 => some 0
    | 2 | 3 => some 1
    | _ => some (id - 1)
  children _ id := match id with
    | 0 => [1]
    | 1 => [2, 3]
    | 3 => [4]
    | 4 => [5]
    | _ => []
  elementChildren _ id := match id with
    | 0 => [1]
    | 1 => [2, 3]
    | 3 => [4]
    | _ => []
  firstElementChild _ id := match id with
    | 0 => some 1
    | 1 => some 2
    | 3 => some 4
    | _ => none
  nextElementSibling _ id := if id = 2 then some 3 else none
  prevElementSibling _ id := if id = 3 then some 2 else none
  descendants _ id := List.range' (id + 1) (5 - id)
  setAttr _ _ _ _ := ()
  removeAttr _ _ _ := ()
  setText _ _ _ := ()
  setHtml _ _ _ := ()
  appendHtml _ _ _ := ()
  prependHtml _ _ _ := ()
  addClass _ _ _ := ()
  removeClass _ _ _ := ()
  removeFromParent _ _ := ()

def linkImports : Imports MemoryDefaults Unit where
  defaults := memoryDefaults
  client := buildClient ⟨answeringNetwork.dns⟩
  lib := siteLibraries
  join _ _ := none
  chrono := documented fun _ _ => none
  dom := linkDom
  checks := true

def fetchedResponse : Response :=
  ⟨200, [], Text.utf8 linkMarkup.toList, some redirectingSite.text⟩

/-- The page has been fetched, and the selector of its link is in the guest's memory. -/
def fetched : HostState MemoryDefaults Unit :=
  ((HostState.new (some [97, 0, 0]) ⟨fun _ => none⟩).put
    (.request ⟨⟨0, some redirectingSite.text, [], none⟩, some fetchedResponse⟩)).1

theorem fetched_sound : fetched.Sound :=
  sound_put (HostState.sound_new _ _) trivial

/-- The links of the page are listed and the handle of the page is misspelt. -/
def listing : List GuestStep :=
  [.call (.netHtml 1), .call (.select 3 0 1), .call (.select 2 0 1), .store 1 [98],
    .call (.get 3 0), .call (.textAccessor .ownText 4), .call (.readBuffer 5 1 2)]

theorem listing_runs : (Runs.exec (HostState.step linkImports) fetched listing).isSome = true := by
  decide

/-! Memory. -/

/-- What a step writes, or offers to be written over: an address and a length. -/
def GuestStep.region : GuestStep → Option (ℕ × ℕ)
  | .call c => c.region
  | .store offset bytes => some (offset, bytes.length)
  | .grow _ => none

def GuestStep.Touches (a : GuestStep) (i : ℕ) : Prop :=
  ∃ p n, a.region = some (p, n) ∧ p ≤ i ∧ i < p + n

/-- Memory is not lost, and what is not touched stays. -/
def Framed (s t : HostState σ Doc) (touched : ℕ → Prop) : Prop :=
  ∀ m, s.memory = some m → ∃ m', t.memory = some m' ∧ m.length ≤ m'.length ∧
    ∀ i < m.length, ¬ touched i → m'[i]? = m[i]?

section Memory
variable {touched touched' : ℕ → Prop}

theorem Framed.of_eq (h : t.memory = s.memory) : Framed s t touched :=
  fun m hm => ⟨m, h.trans hm, le_rfl, fun _ _ _ => rfl⟩

theorem Framed.trans (h : Framed s t touched) (h' : Framed t u touched') :
    Framed s u fun i => touched i ∨ touched' i := by
  intro m hm
  obtain ⟨m', hm', hle, hsame⟩ := h m hm
  obtain ⟨m'', hm'', hle', hsame'⟩ := h' m' hm'
  refine ⟨m'', hm'', hle.trans hle', fun i hi htouched => ?_⟩
  rw [not_or] at htouched
  exact (hsame' i (Nat.lt_of_lt_of_le hi hle) htouched.2).trans (hsame i hi htouched.1)

theorem Framed.of_write {p : ℕ} {bytes : Bytes} {m m' : Memory} (hm : s.memory = some m)
    (hm' : t.memory = some m') (hwrite : m.write p bytes = some m')
    (htouched : ∀ i, p ≤ i → i < p + bytes.length → touched i) : Framed s t touched := by
  intro found hfound
  cases hm.symm.trans hfound
  refine ⟨m', hm', (Memory.length_write hwrite).symm.le, fun i _ hi => ?_⟩
  refine Memory.getElem?_write hwrite ?_
  by_contra hinside
  rw [not_or, not_lt, not_le] at hinside
  exact hi (htouched i hinside.1 hinside.2)

theorem Outcome.framed {result : CallResult σ Doc} (h : Outcome env s c result) :
    Framed s result.1 (GuestStep.call c).Touches := by
  cases h with
  | kept | stored | parsed | released | edited | mutated | noted => exact .of_eq rfl
  | wrote p n m m' bytes hoffered hfits hm hwrite =>
    exact .of_write hm rfl hwrite fun i hlow hhigh => ⟨p, n, hoffered, hlow, by omega⟩
  | sent ptr len actions result hnamed hsends =>
    subst hnamed
    obtain ⟨left, hleft, rfl⟩ := Option.map_eq_some_iff.mp hsends
    intro m hm
    obtain ⟨m', hm', hlength, hsame⟩ := sendAll_memory hm hleft
    refine ⟨m', hm', hlength.symm.le, fun i _ hi => hsame i ?_⟩
    by_contra hinside
    rw [not_or, not_lt, not_le] at hinside
    exact hi ⟨_, _, rfl, hinside.1, hinside.2⟩

theorem step_framed {a : GuestStep} (hs : s.Sound) (h : s.step env a = some t) :
    Framed s t a.Touches := by
  cases a with
  | call c =>
    obtain ⟨answer, hcall⟩ := HostState.of_step_call h
    exact (call_outcome hs hcall).framed
  | store offset bytes =>
    obtain ⟨m', hm', rfl⟩ := Option.map_eq_some_iff.mp h
    obtain ⟨m, hm, hwrite⟩ := Option.bind_eq_some_iff.mp hm'
    exact .of_write hm rfl hwrite fun i hlow hhigh => ⟨_, _, rfl, hlow, hhigh⟩
  | grow count =>
    obtain ⟨m, hm, rfl⟩ := Option.map_eq_some_iff.mp h
    intro found hfound
    cases hm.symm.trans hfound
    refine ⟨_, rfl, ?_, fun i hi _ => List.getElem?_append_left hi⟩
    rw [List.length_append]
    exact Nat.le_add_right _ _

/-- Through a whole run the host writes nowhere but where a call offered space to it: what the guest
neither writes nor offers stays as it is. -/
theorem run_framed (hs : s.Sound) (h : Runs.exec (HostState.step env) s steps = some t) :
    Framed s t fun i => ∃ a ∈ steps, a.Touches i := by
  induction steps generalizing s with
  | nil =>
    cases h
    exact .of_eq rfl
  | cons a steps ih =>
    obtain ⟨u, hstep, hrest⟩ := Option.bind_eq_some_iff.mp h
    have hframed := (step_framed hs hstep).trans (ih (step_sound_follows hs hstep).1 hrest)
    intro m hm
    obtain ⟨m', hm', hle, hsame⟩ := hframed m hm
    refine ⟨m', hm', hle, fun i hi htouched => hsame i hi ?_⟩
    rintro (hhead | ⟨b, hb, htail⟩)
    · exact htouched ⟨a, List.mem_cons_self, hhead⟩
    · exact htouched ⟨b, List.mem_cons_of_mem _ hb, htail⟩

theorem listing_framed : ∃ t m, Runs.exec (HostState.step linkImports) fetched listing = some t ∧
    t.memory = some m ∧ m[0]? = some 97 := by
  obtain ⟨t, h⟩ := Option.isSome_iff_exists.mp listing_runs
  obtain ⟨m, hm, -, hsame⟩ := run_framed fetched_sound h _ rfl
  have huntouched : ¬ ∃ a ∈ listing, a.Touches 0 := by
    simp [listing, GuestStep.Touches, GuestStep.region, HostCall.region]
    decide
  exact ⟨t, m, h, hm, hsame 0 (by decide) huntouched⟩

end Memory

/-! Handles. -/

section Handles
variable {rid : Int32} {resource : Resource ℕ}

theorem not_frees (hkept : .call (.destroy rid) ∉ steps) :
    ¬ ∃ a ∈ steps, a.Frees rid.toInt := by
  rintro ⟨a, ha, hfrees⟩
  cases a with
  | call c =>
    cases c with
    | destroy rid' =>
      rw [Int32.toInt_inj.mp hfrees] at ha
      exact hkept ha
    | _ => exact hfrees
  | store | grow => exact hfrees

/-- A handle stays what it was given for until it is destroyed, and is never given again after. -/
theorem handle_lifetime (hs : s.Sound) (h : Runs.exec (HostState.step env) s steps = some t)
    (hentry : s.table.entries rid.toInt = some resource) :
    (.call (.destroy rid) ∉ steps → ∃ resource',
      t.table.entries rid.toInt = some resource' ∧ Continues resource resource') ∧
    (.call (.destroy rid) ∈ steps → t.table.entries rid.toInt = none) := by
  refine ⟨fun hkept => (exec_sound_follows hs h).2.entries _ _ hentry (not_frees hkept),
    fun hfreed => ?_⟩
  obtain ⟨before, after, rfl⟩ := List.append_of_mem hfreed
  rw [Runs.exec_append] at h
  obtain ⟨u, hbefore, hrest⟩ := Option.bind_eq_some_iff.mp h
  obtain ⟨v, hdestroy, hafter⟩ := Option.bind_eq_some_iff.mp hrest
  obtain ⟨hsound, hfollows⟩ := exec_sound_follows hs hbefore
  have hsound' := (step_sound_follows hsound hdestroy).1
  obtain ⟨answer, hcall⟩ := HostState.of_step_call hdestroy
  cases hcall
  -- the handle is one that was issued, so no later one is the same
  have hissued : rid.toInt ≤ (u.destroy rid).1.table.next :=
    (hs.entries _ _ hentry).2.1.trans hfollows.next
  rw [Option.eq_none_iff_forall_ne_some]
  intro resource' hlater
  obtain ⟨old, hold, -⟩ := (exec_sound_follows hsound' hafter).2.back _ _ hlater hissued
  have hgone : (u.destroy rid).1.table.entries rid.toInt = none := Function.update_self _ _ _
  cases hgone.symm.trans hold

theorem fetched_lifetime : ∃ t resource,
    Runs.exec (HostState.step linkImports) fetched listing = some t ∧
      t.table.entries (1 : Int32).toInt = some resource ∧
      Continues (.request ⟨⟨0, some redirectingSite.text, [], none⟩, some fetchedResponse⟩)
        resource := by
  obtain ⟨t, h⟩ := Option.isSome_iff_exists.mp listing_runs
  obtain ⟨resource, hentry, hcontinues⟩ :=
    (@handle_lifetime _ _ _ _ _ _ 1 _ fetched_sound h rfl).1 (by simp [listing])
  exact ⟨t, resource, h, hentry, hcontinues⟩

end Handles

/-! Failed calls. -/

def HostCall.isSendAll : HostCall → Bool
  | .sendAll _ _ _ => true
  | _ => false

/-- The call answers with an error. A batch of requests is told apart: it answers with the code of
one of them, and the others may have succeeded. -/
def HostState.failed (env : Imports σ Doc) (s : HostState σ Doc) : GuestStep → Bool
  | .call c => !c.isSendAll && match s.call env c with
    | some (_, some code) => code < 0
    | _ => false
  | _ => false

section Failures

end Failures

/-! Texts. -/

/-- The bytes that a call puts in a buffer of its own for the guest to read. -/
def HostState.answerBytes (env : Imports σ Doc) (s : HostState σ Doc) : HostCall → Option Bytes
  | .defaultsGet p l => (s.readStr p l).bind (env.defaults.get s.defaults)
  | .getUrl rid => ((s.response rid).bind Response.finalUrl).map fun url => Text.utf8 url.toList
  | .getHeader rid kp kl => do
    let key ← s.readStr kp kl
    let value ← header (← s.response rid) key
    return Text.utf8 value.toList
  | .attr rid p l => do
    let key ← s.readStr p l
    let (_, html, id) ← s.node rid
    let value ← (html.attr env.dom env.lib env.join id key).toOption
    return Text.utf8 value.toList
  | .textAccessor f rid => (s.node rid).map fun (_, html, id) =>
    Text.utf8 (f.read env.dom html id).toList
  | .optStringAccessor f rid => do
    let (_, html, id) ← s.node rid
    let value ← f.read env.dom html id
    return Text.utf8 value.toList
  | .escape p l => (s.readStr p l).map fun text => Text.utf8 (Html.escape text).toList
  | .unescape p l => (s.readStr p l).map fun text => Text.utf8 (Html.unescape env.dom text).toList
  | .baseUri rid => do
    let (_, html, id) ← s.node rid
    let base ← html.baseUri env.dom id
    return Text.utf8 base.toList
  | _ => none

section Texts
variable {bytes : Bytes} {rid ptr len : Int32} {m : Memory}

theorem HostState.withStr_of_some {code : ℤ} {p l : Int32} {text : String}
    {f : String → CallResult σ Doc} (h : s.readStr p l = some text) :
    s.withStr code p l f = f text := by
  rw [HostState.withStr, h]

theorem HostState.withNode_of_some {document id : ℕ} {html : Html Doc}
    {f : ℕ → Html Doc → ℕ → CallResult σ Doc} (h : s.node rid = some (document, html, id)) :
    s.withNode rid f = f document html id := by
  rw [HostState.withNode, h]

theorem call_of_answerBytes (h : s.answerBytes env c = some bytes) :
    s.call env c = some (s.putBytes bytes) := by
  cases c with
  | defaultsGet p l =>
    obtain ⟨key, hkey, hvalue⟩ := Option.bind_eq_some_iff.mp h
    simp only [HostState.call, HostState.defaultsGet, HostState.withStr_of_some hkey, hvalue]
  | getUrl rid =>
    obtain ⟨url, hurl, rfl⟩ := Option.map_eq_some_iff.mp h
    simp only [HostState.call, HostState.getUrl, hurl]
    rfl
  | getHeader rid kp kl =>
    obtain ⟨key, hkey, hrest⟩ := Option.bind_eq_some_iff.mp h
    obtain ⟨response, hresponse, hvalue⟩ := Option.bind_eq_some_iff.mp hrest
    obtain ⟨value, hfound, hbytes⟩ := Option.bind_eq_some_iff.mp hvalue
    cases hbytes
    simp only [HostState.call, HostState.getHeader, HostState.withStr_of_some hkey, hresponse,
      Option.bind_some, hfound]
    rfl
  | attr rid p l =>
    obtain ⟨key, hkey, hrest⟩ := Option.bind_eq_some_iff.mp h
    obtain ⟨⟨document, html, id⟩, hnode, hvalue⟩ := Option.bind_eq_some_iff.mp hrest
    obtain ⟨value, hattr, hbytes⟩ := Option.bind_eq_some_iff.mp hvalue
    cases hbytes
    simp only [HostState.call, HostState.attr, HostState.withStr_of_some hkey,
      HostState.withNode_of_some hnode, toOption_eq_some.mp hattr]
    rfl
  | textAccessor f rid =>
    obtain ⟨⟨document, html, id⟩, hnode, rfl⟩ := Option.map_eq_some_iff.mp h
    simp only [HostState.call, HostState.textAccessor, HostState.withNode_of_some hnode]
    rfl
  | optStringAccessor f rid =>
    obtain ⟨⟨document, html, id⟩, hnode, hrest⟩ := Option.bind_eq_some_iff.mp h
    obtain ⟨value, hvalue, hbytes⟩ := Option.bind_eq_some_iff.mp hrest
    cases hbytes
    simp only [HostState.call, HostState.optStringAccessor, HostState.withNode_of_some hnode,
      hvalue]
    rfl
  | escape p l =>
    obtain ⟨text, htext, rfl⟩ := Option.map_eq_some_iff.mp h
    simp only [HostState.call, HostState.escape, HostState.withStr_of_some htext]
    rfl
  | unescape p l =>
    obtain ⟨text, htext, rfl⟩ := Option.map_eq_some_iff.mp h
    simp only [HostState.call, HostState.unescape, HostState.withStr_of_some htext]
    rfl
  | baseUri rid =>
    obtain ⟨⟨document, html, id⟩, hnode, hrest⟩ := Option.bind_eq_some_iff.mp h
    obtain ⟨base, hbase, hbytes⟩ := Option.bind_eq_some_iff.mp hrest
    cases hbytes
    simp only [HostState.call, HostState.baseUri, HostState.withNode_of_some hnode, hbase]
    rfl
  | _ => cases h

theorem buffer_eq_some {Html : Type} {table : ResourceTable Html} {id : ℤ} :
    table.buffer id = some bytes ↔ table.entries id = some (.buffer bytes) := by
  unfold ResourceTable.buffer
  split <;> simp_all

/-- The guest asks for a buffer's length, and reads as much of it as it has space for. -/
structure HandsOver (env : Imports σ Doc) (s : HostState σ Doc) (rid : Int32) (bytes : Bytes) :
    Prop where
  length : s.call env (.bufferLen rid) = some (s, some (lengthI32 bytes.length))
  read : ∀ m ptr len, s.memory = some m → 0 ≤ len.toInt →
    asUsize ptr.toInt + len.toInt.toNat ≤ m.length →
    ∃ m', s.call env (.readBuffer rid ptr len) = some ({ s with memory := some m' }, some 0) ∧
      m'.read (asUsize ptr.toInt) (bytes.take len.toInt.toNat).length =
        some (bytes.take len.toInt.toNat)

theorem handsOver_of_entry (h : s.table.entries rid.toInt = some (.buffer bytes)) :
    HandsOver env s rid bytes where
  length := by
    simp only [HostState.call, HostState.bufferLen, buffer_eq_some.mpr h]
  read m ptr len hm _ hroom := by
    have hwrite : m.write (asUsize ptr.toInt) (bytes.take len.toInt.toNat) = some _ :=
      Memory.write_eq_some.mpr ⟨(Nat.add_le_add_left (List.length_take_le _ _) _).trans hroom, rfl⟩
    refine ⟨_, ?_, Memory.read_write hwrite⟩
    simp only [HostState.call, HostState.readBuffer, buffer_eq_some.mpr h, HostState.writeBytes,
      hm, Option.bind_some, hwrite, Option.map_some]

/-- A buffer is there until its handle is destroyed, and what is in it does not change. -/
theorem run_handsOver (hs : s.Sound) (hentry : s.table.entries rid.toInt = some (.buffer bytes))
    (h : Runs.exec (HostState.step env) s steps = some t)
    (hkept : .call (.destroy rid) ∉ steps) : HandsOver env t rid bytes := by
  obtain ⟨resource, hlater, hcontinues⟩ :=
    (exec_sound_follows hs h).2.entries _ _ hentry (not_frees hkept)
  cases hcontinues
  exact handsOver_of_entry hlater

/-- A text that a call answers is handed over as it was at that call, however many calls come
between, unless its handle is destroyed. -/
theorem text_handed_over (hs : s.Sound) (h : s.answerBytes env c = some bytes) :
    ∃ t id, s.call env c = some (t, some id) ∧ 0 < id ∧
      ∀ rid : Int32, rid.toInt = id → ∀ steps u, .call (.destroy rid) ∉ steps →
        Runs.exec (HostState.step env) t steps = some u → HandsOver env u rid bytes := by
  have hpos : 0 < s.table.next + 1 := Int.lt_add_one_of_le hs.next
  have hsettled : (Resource.buffer bytes).Settled s.documents.length := trivial
  refine ⟨_, _, call_of_answerBytes h, hpos, fun rid hrid steps u hkept hexec => ?_⟩
  refine run_handsOver (sound_put hs hsettled) ?_ hexec hkept
  rw [hrid]
  exact Function.update_self _ _ _

theorem url_handed_over : ∃ t id, fetched.call linkImports (.getUrl 1) = some (t, some id) ∧
    0 < id ∧ ∀ rid : Int32, rid.toInt = id → ∀ steps u, .call (.destroy rid) ∉ steps →
      Runs.exec (HostState.step linkImports) t steps = some u →
        HandsOver linkImports u rid (Text.utf8 redirectingSite.text.toList) :=
  text_handed_over fetched_sound rfl

end Texts

/-! Documents. -/

/-- The document that a handle's node or nodes are of. -/
def HostState.documentOf (s : HostState σ Doc) (id : ℤ) : Option ℕ :=
  match s.table.entries id with
  | some (.node document _) | some (.nodeList document _) => some document
  | _ => none

/-- The base of that document. -/
def HostState.baseOf (s : HostState σ Doc) (id : ℤ) : Option (Option String) :=
  ((s.documentOf id).bind fun document => s.documents[document]?).map Html.base

/-- The handle whose nodes a call picks others from. -/
def HostCall.origin : HostCall → Option Int32
  | .select rid _ _ | .selectFirst rid _ _ | .get rid _ | .nodeAccessor _ rid | .first rid
  | .listAccessor _ rid => some rid
  | _ => none

/-- In a later state the handle is one that was got, by some way of picking nodes from nodes, from
the handle in the first state. -/
inductive Descends (env : Imports σ Doc) (s : HostState σ Doc) (root : ℤ) :
    HostState σ Doc → ℤ → Prop where
  | root : Descends env s root s root
  | step {t u : HostState σ Doc} {id : ℤ} (a : GuestStep) (before : Descends env s root t id)
      (step : t.step env a = some u) (kept : ¬ a.Frees id) : Descends env s root u id
  | pick {t u : HostState σ Doc} {id picked : ℤ} {c : HostCall} {rid : Int32}
      (before : Descends env s root t id) (origin : c.origin = some rid) (handle : rid.toInt = id)
      (call : t.call env c = some (u, some picked)) (positive : 0 < picked) :
      Descends env s root u picked

section Bases
variable {id picked root : ℤ} {rid : Int32} {base : Option String}

theorem documentOf_eq_some {document : ℕ} : s.documentOf id = some document ↔
    (∃ node, s.table.entries id = some (.node document node)) ∨
      ∃ nodes, s.table.entries id = some (.nodeList document nodes) := by
  unfold HostState.documentOf
  cases s.table.entries id with
  | none => simp
  | some resource => cases resource <;> simp

theorem baseOf_eq_some : s.baseOf id = some base ↔ ∃ document html,
    s.documentOf id = some document ∧ s.documents[document]? = some html ∧ html.base = base := by
  unfold HostState.baseOf
  rw [Option.map_eq_some_iff]
  constructor
  · rintro ⟨html, hhtml, hbase⟩
    obtain ⟨document, hdocument, hdoc⟩ := Option.bind_eq_some_iff.mp hhtml
    exact ⟨document, html, hdocument, hdoc, hbase⟩
  · rintro ⟨document, html, hdocument, hdoc, hbase⟩
    exact ⟨html, by rw [hdocument, Option.bind_some, hdoc], hbase⟩

theorem Follows.baseOf {freed : ℤ → Prop} (h : Follows s t freed) (hid : ¬ freed id)
    (hbase : s.baseOf id = some base) : t.baseOf id = some base := by
  obtain ⟨document, html, hdocument, hdoc, rfl⟩ := baseOf_eq_some.mp hbase
  obtain ⟨html', hdoc', hbase'⟩ := h.documents document html hdoc
  refine baseOf_eq_some.mpr ⟨document, html', ?_, hdoc', hbase'⟩
  rw [documentOf_eq_some] at hdocument ⊢
  obtain ⟨node, hentry⟩ | ⟨nodes, hentry⟩ := hdocument
  · obtain ⟨resource, hlater, hcontinues⟩ := h.entries id _ hentry hid
    cases hcontinues
    exact .inl ⟨node, hlater⟩
  · obtain ⟨resource, hlater, hcontinues⟩ := h.entries id _ hentry hid
    cases hcontinues
    exact .inr ⟨nodes, hlater⟩

/-- What a call that picks nodes answers: an error, or a new handle to nodes of the document. -/
def PicksFrom (s : HostState σ Doc) (id : ℤ) (result : CallResult σ Doc) : Prop :=
  ∀ picked, result.2 = some picked → 0 < picked →
    ∃ document, s.documentOf id = some document ∧ result.1.documents = s.documents ∧
      result.1.documentOf picked = some document

theorem picksFrom_code {code : ℤ} (hcode : code ≤ 0) : PicksFrom s id (s, some code) := by
  intro picked hpicked hpos
  cases hpicked
  omega

theorem picksFrom_put {document : ℕ} (hdocument : s.documentOf id = some document)
    {resource : Resource ℕ} (hresource : (∃ node, resource = .node document node) ∨
      ∃ nodes, resource = .nodeList document nodes) : PicksFrom s id (s.put resource) := by
  intro picked hpicked _
  cases hpicked
  refine ⟨document, hdocument, rfl, documentOf_eq_some.mpr ?_⟩
  have hself : (s.put resource).1.table.entries (s.table.next + 1) = some resource :=
    Function.update_self _ _ _
  obtain ⟨node, rfl⟩ | ⟨nodes, rfl⟩ := hresource
  · exact .inl ⟨node, hself⟩
  · exact .inr ⟨nodes, hself⟩

theorem picksFrom_putPicked {document : ℕ} (hdocument : s.documentOf id = some document) :
    ∀ found, PicksFrom s id (s.putPicked document found)
  | some node => picksFrom_put hdocument (.inl ⟨node, rfl⟩)
  | none => picksFrom_code (by decide)

theorem picksFrom_withNode {f : ℕ → Html Doc → ℕ → CallResult σ Doc}
    (h : ∀ document html node, s.documentOf rid.toInt = some document →
      PicksFrom s rid.toInt (f document html node)) :
    PicksFrom s rid.toInt (s.withNode rid f) := by
  unfold HostState.withNode
  split
  · next document html node hnode =>
    exact h document html node
      (documentOf_eq_some.mpr (.inl ⟨node, (HostState.node_eq_some hnode).1⟩))
  · exact picksFrom_code (by decide)

theorem picksFrom_withStr {code : ℤ} {p l : Int32} {f : String → CallResult σ Doc}
    (hcode : code ≤ 0) (h : ∀ text, PicksFrom s id (f text)) :
    PicksFrom s id (s.withStr code p l f) := by
  unfold HostState.withStr
  split
  · exact h _
  · exact picksFrom_code hcode

/-- The codes that a selection fails with. -/
theorem select_error {html : Html Doc} {node : ℕ} {selector : String} {code : ℤ}
    (h : html.select env.dom node selector = .error code) :
    code = HtmlError.invalidQuery ∧ env.dom.matcher selector = false := by
  unfold Html.select at h
  split_ifs at h with hmatcher
  · exact ⟨(Except.error.inj h).symm, Bool.eq_false_iff.mpr hmatcher⟩

theorem selectFirst_error {html : Html Doc} {node : ℕ} {selector : String} {code : ℤ}
    (h : html.selectFirst env.dom node selector = .error code) :
    code = HtmlError.noResult ∨
      code = HtmlError.invalidQuery ∧ env.dom.matcher selector = false := by
  unfold Html.selectFirst at h
  cases hselect : html.select env.dom node selector with
  | error code' =>
    rw [hselect] at h
    cases h
    exact .inr (select_error hselect)
  | ok ids =>
    rw [hselect] at h
    cases ids with
    | nil => exact .inl (Except.error.inj h).symm
    | cons found rest => cases h

theorem call_picksFrom {result : CallResult σ Doc} (horigin : c.origin = some rid)
    (h : s.call env c = some result) : PicksFrom s rid.toInt result := by
  cases c with
  | select rid' p l =>
    cases horigin
    cases h
    refine picksFrom_withStr (by decide) fun selector =>
      picksFrom_withNode fun document html node hdocument => ?_
    cases hselect : html.select env.dom node selector with
    | ok ids => exact picksFrom_put hdocument (.inr ⟨ids, rfl⟩)
    | error code =>
      rw [(select_error hselect).1]
      exact picksFrom_code (by decide)
  | selectFirst rid' p l =>
    cases horigin
    cases h
    refine picksFrom_withStr (by decide) fun selector =>
      picksFrom_withNode fun document html node hdocument => ?_
    cases hselect : html.selectFirst env.dom node selector with
    | ok found => exact picksFrom_put hdocument (.inl ⟨found, rfl⟩)
    | error code =>
      obtain rfl | ⟨rfl, -⟩ := selectFirst_error hselect
      · exact picksFrom_code (by decide)
      · exact picksFrom_code (by decide)
  | get rid' idx =>
    cases horigin
    cases h
    unfold HostState.get
    split
    · next document ids hentry =>
      exact picksFrom_putPicked (documentOf_eq_some.mpr (.inr ⟨ids, hentry⟩)) _
    · exact picksFrom_code (by decide)
  | nodeAccessor f rid' =>
    cases horigin
    cases h
    exact picksFrom_withNode fun document html node hdocument => picksFrom_putPicked hdocument _
  | first rid' =>
    cases horigin
    cases h
    unfold HostState.first
    split
    · next document ids hentry =>
      exact picksFrom_putPicked (documentOf_eq_some.mpr (.inr ⟨ids, hentry⟩)) _
    · exact picksFrom_withNode fun document html node hdocument =>
        picksFrom_putPicked hdocument _
  | listAccessor f rid' =>
    cases horigin
    cases h
    exact picksFrom_withNode fun document html node hdocument =>
      picksFrom_put hdocument (.inr ⟨_, rfl⟩)
  | _ => cases horigin

theorem Descends.baseOf (hs : s.Sound) (h : Descends env s root t id)
    (hbase : s.baseOf root = some base) : t.Sound ∧ t.baseOf id = some base := by
  induction h with
  | root => exact ⟨hs, hbase⟩
  | step a before hstep hkept ih =>
    obtain ⟨hsound, hfollows⟩ := step_sound_follows ih.1 hstep
    exact ⟨hsound, hfollows.baseOf hkept ih.2⟩
  | pick before horigin hhandle hcall hpos ih =>
    subst hhandle
    obtain ⟨hsound, -⟩ := (call_outcome ih.1 hcall).sound_follows ih.1
    obtain ⟨document, html, hdocument, hdoc, hsame⟩ := baseOf_eq_some.mp ih.2
    obtain ⟨document', hdocument', hdocs, hpicked⟩ :=
      call_picksFrom horigin hcall _ rfl hpos
    cases hdocument.symm.trans hdocument'
    exact ⟨hsound, baseOf_eq_some.mpr ⟨document, html, hpicked, hdocs ▸ hdoc, hsame⟩⟩

end Bases

/-! Codes. Each module has its own space of them. -/

inductive ImportModule where
  | env | std | defaults | net | html
deriving DecidableEq, Repr

def HostCall.module : HostCall → ImportModule
  | .print _ _ | .abort | .sleep _ | .sendPartialResult _ => .env
  | .destroy _ | .bufferLen _ | .readBuffer _ _ _ | .utcOffset | .parseDate _ _ _ _ _ _ => .std
  | .defaultsGet _ _ | .defaultsSet _ _ _ => .defaults
  | .init _ | .setUrl _ _ _ | .setHeader _ _ _ _ _ | .setBody _ _ _ | .setTimeout _
  | .setRateLimit _ _ _ | .send _ _ | .sendAll _ _ _ | .dataLen _ | .readData _ _ _
  | .getStatusCode _ | .getUrl _ | .getHeader _ _ _ | .netHtml _ => .net
  | _ => .html

def ImportModule.codes : ImportModule → List ℤ
  | .env => []
  | .std | .defaults => [message]
  | .net => [NetError.invalidDescriptor, NetError.invalidString, NetError.invalidUrl,
      NetError.invalidMethod, NetError.failed, NetError.notSent]
  | .html => [HtmlError.invalidDescriptor, HtmlError.invalidString, HtmlError.invalidQuery,
      HtmlError.noResult]

/-- What is answered is a length, or a date. -/
def HostCall.isNumber : HostCall → Bool
  | .bufferLen _ | .dataLen _ | .size _ | .parseDate _ _ _ _ _ _ => true
  | _ => false

/-- The codes an answer can have. -/
def Fails (P : ℤ → Prop) (result : CallResult σ Doc) : Prop :=
  ∀ code, result.2 = some code → code < 0 → P code

section Codes
variable {P : ℤ → Prop} {result : CallResult σ Doc} {rid : Int32}

theorem fails_code {code : ℤ} (h : code < 0 → P code) : Fails P (t, some code) := by
  intro found hfound
  cases hfound
  exact h

theorem fails_zero : Fails P (t, some 0) := fails_code fun h => absurd h (by decide)

theorem fails_put (hs : s.Sound) (resource : Resource ℕ) : Fails P (s.put resource) := by
  intro code hcode hneg
  have hnext := hs.next
  cases hcode
  change s.table.next + 1 < 0 at hneg
  omega

theorem fails_putPicked (hs : s.Sound) (hP : P HtmlError.noResult) {document : ℕ} :
    ∀ found, Fails P (s.putPicked document found)
  | some _ => fails_put hs _
  | none => fails_code fun _ => hP

theorem fails_withStr {code : ℤ} {p l : Int32} {f : String → CallResult σ Doc} (hP : P code)
    (h : ∀ text, s.readStr p l = some text → Fails P (f text)) :
    Fails P (s.withStr code p l f) := by
  unfold HostState.withStr
  split
  · next text htext => exact h text htext
  · exact fails_code fun _ => hP

theorem fails_withNode {f : ℕ → Html Doc → ℕ → CallResult σ Doc}
    (hP : P HtmlError.invalidDescriptor) (h : ∀ document html id, Fails P (f document html id)) :
    Fails P (s.withNode rid f) := by
  unfold HostState.withNode
  split
  · exact h _ _ _
  · exact fails_code fun _ => hP

theorem fails_editRequest {f : HeldRequest → HeldRequest} (hP : P NetError.invalidDescriptor) :
    Fails P (s.editRequest rid f) := by
  unfold HostState.editRequest
  split
  · exact fails_code fun h => absurd h (by decide)
  · exact fails_code fun _ => hP

theorem mem_codes_of_send {code : ℤ} (h : -6 ≤ code ∧ code ≤ -3) :
    code ∈ ImportModule.net.codes := by
  obtain ⟨hlow, hhigh⟩ := h
  obtain rfl | rfl | rfl | rfl : code = -6 ∨ code = -5 ∨ code = -4 ∨ code = -3 := by omega
  all_goals decide

theorem sendAll_value {ptr len : Int32} {actions : List SendAction} {left : AfterSend ℕ}
    (h : sendAll env.client env.lib s.memory s.table ptr len actions = some left)
    (hneg : left.value < 0) : left.value ∈ ImportModule.net.codes := by
  obtain rfl | ⟨rids, results, hknown, -, hsent⟩ := sendAll_cases h
  · exact List.mem_cons_self
  · by_cases hnever : ∀ (i : ℕ) code, results[i]? ≠ some (.error code)
    · rw [(hsent.succeeded hnever).1] at hneg
      exact absurd hneg (by decide)
    · -- the first of the failures is what is answered
      classical
      have hexists : ∃ i : ℕ, ∃ code, results[i]? = some (.error code) := by
        simpa only [not_forall, not_not] using hnever
      obtain ⟨code, hcode⟩ := Nat.find_spec hexists
      have hfirst : FirstFailure results (Nat.find hexists) code :=
        ⟨hcode, fun j hj earlier hearlier => Nat.find_min hexists hj ⟨earlier, hearlier⟩⟩
      have hlt := (List.getElem?_eq_some_iff.mp hcode).1
      rw [hsent.length] at hlt
      obtain ⟨r, hr⟩ := Option.ne_none_iff_exists'.mp (hknown _ (List.getElem_mem hlt))
      obtain ⟨attempt, -, hresult⟩ := hsent.own _ _ r (List.getElem?_eq_getElem hlt) hr
      rw [(hsent.failed _ code hfirst).1]
      exact mem_codes_of_send (sendOn_error (Option.some.inj (hresult.symm.trans hcode)))

/-- What a failed call of the `html` module says: that a selector is malformed only when it is, and
of a selection never that there is nothing. -/
structure Meant (env : Imports σ Doc) (s : HostState σ Doc) (c : HostCall) (code : ℤ) : Prop where
  mem : code ∈ c.module.codes
  malformed : c.module = .html → code = HtmlError.invalidQuery → ∃ rid p l selector,
    (c = .select rid p l ∨ c = .selectFirst rid p l) ∧ s.readStr p l = some selector ∧
      env.dom.matcher selector = false
  miss : ∀ rid p l, c = .select rid p l → code ≠ HtmlError.noResult

/-- A code that is none of these two needs no more than to be of the module. -/
theorem meant_of_mem {code : ℤ} (hmem : code ∈ c.module.codes)
    (hquery : c.module = .html → code ≠ HtmlError.invalidQuery)
    (hmiss : ∀ rid p l, c = .select rid p l → code ≠ HtmlError.noResult) : Meant env s c code :=
  ⟨hmem, fun hhtml hcode => absurd hcode (hquery hhtml), hmiss⟩

/-- Outside of `html` that is all there is to say. -/
theorem meant_net {code : ℤ} (hc : c.module = .net) (hmem : code ∈ ImportModule.net.codes) :
    Meant env s c code :=
  meant_of_mem (hc ▸ hmem) (fun hhtml => by cases hc.symm.trans hhtml) fun _ _ _ hselect => by
    subst hselect
    cases hc

theorem meant_message (hc : c.module = .std ∨ c.module = .defaults) : Meant env s c message := by
  refine meant_of_mem ?_ (fun hhtml => ?_) fun _ _ _ hselect => ?_
  · obtain hc | hc := hc <;> exact hc ▸ List.mem_cons_self
  · obtain hc | hc := hc <;> cases hc.symm.trans hhtml
  · subst hselect
    obtain hc | hc := hc <;> cases hc

theorem meant_handle (hc : c.module = .html) : Meant env s c HtmlError.invalidDescriptor :=
  meant_of_mem (hc ▸ (by decide)) (fun _ => by decide) fun _ _ _ _ => by decide

theorem meant_string (hc : c.module = .html) : Meant env s c HtmlError.invalidString :=
  meant_of_mem (hc ▸ (by decide)) (fun _ => by decide) fun _ _ _ _ => by decide

theorem meant_miss (hc : c.module = .html) (hselect : ∀ rid p l, c ≠ .select rid p l) :
    Meant env s c HtmlError.noResult :=
  meant_of_mem (hc ▸ (by decide)) (fun _ => by decide) fun _ _ _ h => absurd h (hselect _ _ _)

theorem attr_error {html : Html Doc} {node : ℕ} {key : String} {code : ℤ}
    (h : html.attr env.dom env.lib env.join node key = .error code) :
    code = HtmlError.noResult := by
  unfold Html.attr at h
  dsimp only at h
  split at h
  · cases h
    rfl
  · split_ifs at h
    · split at h
      · cases h
      · cases h
        rfl

theorem fails_send (rid : Int32) (net : Network) :
    Fails (Meant env s (.send rid net)) (s.send env rid net) := by
  unfold HostState.send
  split
  · exact fails_code fun _ => meant_net rfl (by decide)
  · split
    · exact fails_zero
    · next code hcode =>
      exact fails_code fun _ => meant_net rfl (mem_codes_of_send (send_error hcode))

theorem fails_readData (rid ptr len : Int32) :
    Fails (Meant env s (.readData rid ptr len)) (s.readData rid ptr len) := by
  unfold HostState.readData
  split
  · exact fails_code fun _ => meant_net rfl (by decide)
  · split
    · exact fails_zero
    · exact fails_code fun _ => meant_net rfl (by decide)

theorem fails_getStatusCode (rid : Int32) :
    Fails (Meant env s (.getStatusCode rid)) (s.getStatusCode rid) := by
  unfold HostState.getStatusCode
  split
  · exact fails_code fun h => absurd h (Int.not_lt.mpr (Int.natCast_nonneg _))
  · exact fails_code fun _ => meant_net rfl (by decide)

theorem fails_getUrl (hs : s.Sound) (rid : Int32) :
    Fails (Meant env s (.getUrl rid)) (s.getUrl rid) := by
  unfold HostState.getUrl
  split
  · exact fails_put hs _
  · exact fails_code fun _ => meant_net rfl (by decide)

theorem fails_getHeader (hs : s.Sound) (rid kp kl : Int32) :
    Fails (Meant env s (.getHeader rid kp kl)) (s.getHeader rid kp kl) := by
  refine fails_withStr (meant_net rfl (by decide)) fun key _ => ?_
  split
  · exact fails_put hs _
  · exact fails_code fun _ => meant_net rfl (by decide)

theorem fails_netHtml (hs : s.Sound) (rid : Int32) :
    Fails (Meant env s (.netHtml rid)) (s.netHtml env rid) := by
  unfold HostState.netHtml
  split
  · exact fails_code fun _ => meant_net rfl (by decide)
  · exact fails_put (hs.of_eq rfl rfl) _

theorem fails_select (hs : s.Sound) (rid p l : Int32) :
    Fails (Meant env s (.select rid p l)) (s.select env rid p l) := by
  refine fails_withStr (meant_string rfl) fun selector hselector =>
    fails_withNode (meant_handle rfl) fun document html node => ?_
  cases hselect : html.select env.dom node selector with
  | ok ids => exact fails_put hs _
  | error code =>
    obtain ⟨rfl, hmatcher⟩ := select_error hselect
    exact fails_code fun _ => ⟨show _ ∈ ImportModule.html.codes by decide,
      fun _ _ => ⟨rid, p, l, selector, .inl rfl, hselector, hmatcher⟩, fun _ _ _ _ => by decide⟩

theorem fails_selectFirst (hs : s.Sound) (rid p l : Int32) :
    Fails (Meant env s (.selectFirst rid p l)) (s.selectFirst env rid p l) := by
  refine fails_withStr (meant_string rfl) fun selector hselector =>
    fails_withNode (meant_handle rfl) fun document html node => ?_
  cases hselect : html.selectFirst env.dom node selector with
  | ok found => exact fails_put hs _
  | error code =>
    obtain rfl | ⟨rfl, hmatcher⟩ := selectFirst_error hselect
    · exact fails_code fun _ => meant_miss rfl fun _ _ _ h => by cases h
    · exact fails_code fun _ => ⟨show _ ∈ ImportModule.html.codes by decide,
        fun _ _ => ⟨rid, p, l, selector, .inr rfl, hselector, hmatcher⟩,
        fun _ _ _ h => by cases h⟩

theorem fails_get (hs : s.Sound) (rid idx : Int32) :
    Fails (Meant env s (.get rid idx)) (s.get rid idx) := by
  unfold HostState.get
  split
  · exact fails_putPicked hs (meant_miss rfl fun _ _ _ h => by cases h) _
  · exact fails_code fun _ => meant_handle rfl

theorem fails_attr (hs : s.Sound) (rid p l : Int32) :
    Fails (Meant env s (.attr rid p l)) (s.attr env rid p l) := by
  refine fails_withStr (meant_string rfl) fun key _ =>
    fails_withNode (meant_handle rfl) fun document html node => ?_
  cases hattr : html.attr env.dom env.lib env.join node key with
  | ok value => exact fails_put hs _
  | error code =>
    obtain rfl := attr_error hattr
    exact fails_code fun _ => meant_miss rfl fun _ _ _ h => by cases h

theorem fails_optStringAccessor (hs : s.Sound) (f : OptStringAccessor) (rid : Int32) :
    Fails (Meant env s (.optStringAccessor f rid)) (s.optStringAccessor env f rid) := by
  refine fails_withNode (meant_handle rfl) fun document html node => ?_
  split
  · exact fails_put hs _
  · exact fails_code fun _ => meant_miss rfl fun _ _ _ h => by cases h

theorem fails_kind (rid : Int32) :
    Fails (Meant env s (.kind rid)) (s.kind env rid) := by
  unfold HostState.kind
  split
  · exact fails_code fun h => absurd h (by decide)
  · refine fails_withNode (meant_handle rfl) fun document html node => fails_code fun h => ?_
    unfold Html.nodeKind at h
    split at h
    · exact absurd h (by decide)
    · exact absurd h (by decide)
    · exact absurd h (by decide)
    · exact absurd h (by decide)
    · split_ifs at h <;> exact absurd h (by decide)
    · exact absurd h (by decide)

theorem fails_first (hs : s.Sound) (rid : Int32) :
    Fails (Meant env s (.first rid)) (s.first env rid) := by
  unfold HostState.first
  split
  · exact fails_putPicked hs (meant_miss rfl fun _ _ _ h => by cases h) _
  · exact fails_withNode (meant_handle rfl) fun _ _ _ =>
      fails_putPicked hs (meant_miss rfl fun _ _ _ h => by cases h) _

theorem fails_nodePredicate (f : NodePredicate) (rid p l : Int32) :
    Fails (Meant env s (.nodePredicate f rid p l)) (s.nodePredicate env f rid p l) := by
  refine fails_withStr (meant_string rfl) fun _ _ =>
    fails_withNode (meant_handle rfl) fun document html node => fails_code fun h => ?_
  split_ifs at h <;> exact absurd h (by decide)

theorem fails_baseUri (hs : s.Sound) (rid : Int32) :
    Fails (Meant env s (.baseUri rid)) (s.baseUri env rid) := by
  refine fails_withNode (meant_handle rfl) fun document html node => ?_
  split
  · exact fails_put hs _
  · exact fails_code fun _ => meant_miss rfl fun _ _ _ h => by cases h

theorem fails_readBuffer (rid ptr len : Int32) :
    Fails (Meant env s (.readBuffer rid ptr len)) (s.readBuffer rid ptr len) := by
  have hmessage : Meant env s (.readBuffer rid ptr len) message := meant_message (.inl rfl)
  unfold HostState.readBuffer
  split
  · exact fails_code fun _ => hmessage
  · split
    · exact fails_zero
    · exact fails_code fun _ => hmessage

theorem fails_defaultsGet (hs : s.Sound) (p l : Int32) :
    Fails (Meant env s (.defaultsGet p l)) (s.defaultsGet env p l) := by
  have hmessage : Meant env s (.defaultsGet p l) message := meant_message (.inr rfl)
  refine fails_withStr hmessage fun key _ => ?_
  split
  · exact fails_code fun _ => hmessage
  · exact fails_put hs _

private theorem fails_defaultsSet {p l value : Int32}
    (h : s.call env (.defaultsSet p l value) = some result) :
    Fails (Meant env s (.defaultsSet p l value)) result := by
  have hmessage : Meant env s (.defaultsSet p l value) message := meant_message (.inr rfl)
  have hset := toOption_eq_some.mp h
  unfold HostState.defaultsSet at hset
  split at hset
  · cases hset
    exact fails_code fun _ => hmessage
  · split at hset
    · cases hset
      exact fails_zero
    · obtain ⟨found, hread, hrest⟩ := Results.bind_eq_ok.mp hset
      cases found with
      | none =>
        cases hrest
        exact fails_code fun _ => hmessage
      | some bytes =>
        cases hrest
        exact fails_zero

/-- Whatever is called, an answer that is an error is a code of the call's module and means what it
says there. -/
theorem call_meant (hs : s.Sound) (h : s.call env c = some result)
    (hnumber : c.isNumber = false) : Fails (Meant env s c) result := by
  cases c with
  | bufferLen | dataLen | size | parseDate => cases hnumber
  | print p l =>
    cases h
    unfold HostState.print
    split <;> exact fun _ hcode => by cases hcode
  | abort | sleep | destroy | setRateLimit =>
    cases h
    exact fun _ hcode => by cases hcode
  | utcOffset | setTimeout =>
    cases h
    exact fails_zero
  | sendPartialResult ptr =>
    obtain ⟨found, hread, hrest⟩ := Results.bind_eq_ok.mp (toOption_eq_some.mp h)
    cases found <;> cases hrest <;> exact fun _ hcode => by cases hcode
  | readBuffer rid ptr len =>
    cases h
    exact fails_readBuffer _ _ _
  | defaultsGet p l =>
    cases h
    exact fails_defaultsGet hs _ _
  | defaultsSet p l value => exact fails_defaultsSet h
  | init method =>
    cases h
    exact fails_put hs _
  | setUrl rid p l | setBody rid p l =>
    cases h
    exact fails_withStr (meant_net rfl (by decide))
      fun _ _ => fails_editRequest (meant_net rfl (by decide))
  | setHeader rid kp kl vp vl =>
    have hstring : Meant env s (.setHeader rid kp kl vp vl) NetError.invalidString :=
      meant_net rfl (by decide)
    cases h
    exact fails_withStr hstring fun _ _ => fails_withStr hstring fun _ _ =>
      fails_editRequest (meant_net rfl (by decide))
  | send rid net =>
    cases h
    exact fails_send _ _
  | sendAll ptr len actions =>
    obtain ⟨left, hleft, rfl⟩ := Option.map_eq_some_iff.mp h
    intro code hcode hneg
    cases hcode
    exact meant_net rfl (sendAll_value hleft hneg)
  | readData rid ptr len =>
    cases h
    exact fails_readData _ _ _
  | getStatusCode rid =>
    cases h
    exact fails_getStatusCode _
  | getUrl rid =>
    cases h
    exact fails_getUrl hs _
  | getHeader rid kp kl =>
    cases h
    exact fails_getHeader hs _ _ _
  | netHtml rid =>
    cases h
    exact fails_netHtml hs _
  | parse fragment p l bp bl =>
    cases h
    exact fails_withStr (meant_string rfl) fun _ _ => fails_put (hs.of_eq rfl rfl) _
  | select rid p l =>
    cases h
    exact fails_select hs _ _ _
  | selectFirst rid p l =>
    cases h
    exact fails_selectFirst hs _ _ _
  | get rid idx =>
    cases h
    exact fails_get hs _ _
  | attr rid p l =>
    cases h
    exact fails_attr hs _ _ _
  | textAccessor f rid =>
    cases h
    exact fails_withNode (meant_handle rfl) fun _ _ _ => fails_put hs _
  | optStringAccessor f rid =>
    cases h
    exact fails_optStringAccessor hs _ _
  | kind rid =>
    cases h
    exact fails_kind _
  | nodeAccessor f rid =>
    cases h
    exact fails_withNode (meant_handle rfl) fun _ _ _ =>
      fails_putPicked hs (meant_miss rfl fun _ _ _ h => by cases h) _
  | first rid =>
    cases h
    exact fails_first hs _
  | listAccessor f rid =>
    cases h
    exact fails_withNode (meant_handle rfl) fun _ _ _ => fails_put hs _
  | nodePredicate f rid p l =>
    cases h
    exact fails_nodePredicate _ _ _ _
  | mutateWithString f rid p l =>
    cases h
    exact fails_withStr (meant_string rfl) fun _ _ =>
      fails_withNode (meant_handle rfl) fun _ _ _ => fails_zero
  | setAttr rid kp kl vp vl =>
    cases h
    exact fails_withStr (meant_string rfl) fun _ _ => fails_withStr (meant_string rfl) fun _ _ =>
      fails_withNode (meant_handle rfl) fun _ _ _ => fails_zero
  | remove rid =>
    cases h
    exact fails_withNode (meant_handle rfl) fun _ _ _ => fails_zero
  | escape p l | unescape p l =>
    cases h
    exact fails_withStr (meant_string rfl) fun _ _ => fails_put hs _
  | baseUri rid =>
    cases h
    exact fails_baseUri hs _

/-- The page that is asked for its links has not been parsed. -/
theorem select_meant : ∃ code,
    fetched.call linkImports (.select 1 0 1) = some (fetched, some code) ∧ code < 0 ∧
      Meant linkImports fetched (.select 1 0 1) code := by
  have hcode : fetched.call linkImports (.select 1 0 1) =
      some (fetched, some HtmlError.invalidDescriptor) := rfl
  exact ⟨_, hcode, by decide, call_meant fetched_sound hcode rfl _ rfl (by decide)⟩

end Codes

end Runtime
end Nyuka
