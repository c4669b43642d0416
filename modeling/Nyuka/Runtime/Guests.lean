import Nyuka.Runtime.Imports

/-! A guest's run through the imports, whatever it calls: what one call can do to the state of an
invocation, and what holds of it from the first call to the last. -/
namespace Nyuka
namespace Runtime
variable {σ Doc : Type} {env : Imports σ Doc} {s t : HostState σ Doc} {c : HostCall}
  {result : CallResult σ Doc}

/-- A resource of one of so many documents. -/
def Resource.Settled (documents : ℕ) : Resource ℕ → Prop
  | .buffer _ | .request _ => True
  | .node document _ | .nodeList document _ => document < documents

/-- Handles are positive, and none is ahead of the last one. -/
structure HostState.Sound (s : HostState σ Doc) : Prop where
  next : 0 ≤ s.table.next
  entries : ∀ id resource, s.table.entries id = some resource →
    0 < id ∧ id ≤ s.table.next ∧ resource.Settled s.documents.length

/-- What the guest offers to be written over: an address and a length. -/
def HostCall.region : HostCall → Option (ℕ × ℕ)
  | .readBuffer _ ptr len | .readData _ ptr len => some (asUsize ptr.toInt, len.toInt.toNat)
  | .sendAll ptr len _ => some (ptr.toInt.toNat, len.toInt.toNat * 4)
  | _ => none

/-- A request that is the same but for what was set of it since. -/
structure Grown (r r' : HeldRequest) : Prop where
  method : r'.method = r.method
  headers : r.headers <+: r'.headers

/-- The calls that set something of a request. -/
def HostCall.sets : HostCall → Bool
  | .setUrl _ _ _ | .setHeader _ _ _ _ _ | .setBody _ _ _ => true
  | _ => false

/-- The calls that leave something with the host beside resources. -/
def HostCall.notes : HostCall → Bool
  | .print _ _ | .sendPartialResult _ | .defaultsSet _ _ _ | .setRateLimit _ _ _ => true
  | _ => false

/-- All that a call can do. -/
inductive Outcome (env : Imports σ Doc) (s : HostState σ Doc) (c : HostCall) :
    CallResult σ Doc → Prop where
  | kept (answer : Option ℤ) : Outcome env s c (s, answer)
  | wrote (p n : ℕ) (m m' : Memory) (bytes : Bytes) (offered : c.region = some (p, n))
      (fits : bytes.length ≤ n) (memory : s.memory = some m) (write : m.write p bytes = some m') :
      Outcome env s c ({ s with memory := some m' }, some 0)
  | stored (resource : Resource ℕ) (settled : resource.Settled s.documents.length) :
      Outcome env s c (s.put resource)
  | parsed (html : Html Doc) : Outcome env s c (s.putDocument env html)
  | released (rid : Int32) (named : c = .destroy rid) : Outcome env s c (s.destroy rid)
  | edited (id : ℤ) (r r' : HeldRequest) (held : s.table.request id = some r)
      (grown : Grown r r') (sets : r'.toRequest = r.toRequest ∨ c.sets = true) :
      Outcome env s c ({ s with table := s.table.set id (.request r') }, some 0)
  | mutated (document : ℕ) (old html : Html Doc) (shared : s.documents[document]? = some old)
      (base : html.base = old.base) : Outcome env s c (s.putHtml document html)
  | noted (defaults : σ) (limit : Option RateLimit) (partials : List Bytes) (logs : List String)
      (answer : Option ℤ) (answered : ∀ code ∈ answer, 0 ≤ code) (notes : c.notes = true) :
      Outcome env s c (⟨s.memory, s.table, s.documents, defaults, limit, partials, logs⟩, answer)
  | sent (ptr len : Int32) (actions : List SendAction) (result : CallResult σ Doc)
      (named : c = .sendAll ptr len actions) (sends : s.sendAll env ptr len actions = some result) :
      Outcome env s c result

section Calls

theorem HostState.node_eq_some {rid : Int32} {document id : ℕ} {html : Html Doc}
    (h : s.node rid = some (document, html, id)) :
    s.table.entries rid.toInt = some (.node document id) ∧ s.documents[document]? = some html := by
  obtain ⟨⟨found, node⟩, hnode, hrest⟩ := Option.bind_eq_some_iff.mp h
  obtain ⟨doc, hdoc, heq⟩ := Option.bind_eq_some_iff.mp hrest
  cases heq
  refine ⟨?_, hdoc⟩
  rw [ResourceTable.node] at hnode
  split at hnode
  · next hentry =>
    cases hnode
    exact hentry
  · cases hnode

theorem outcome_withStr {code : ℤ} {p l : Int32} {f : String → CallResult σ Doc}
    (h : ∀ text, Outcome env s c (f text)) : Outcome env s c (s.withStr code p l f) := by
  unfold HostState.withStr
  split
  · exact h _
  · exact .kept _

theorem outcome_withNode {rid : Int32} {f : ℕ → Html Doc → ℕ → CallResult σ Doc}
    (h : ∀ document html id, s.documents[document]? = some html →
      Outcome env s c (f document html id)) : Outcome env s c (s.withNode rid f) := by
  unfold HostState.withNode
  split
  · next hnode => exact h _ _ _ (HostState.node_eq_some hnode).2
  · exact .kept _

theorem outcome_putPicked {document : ℕ} (h : document < s.documents.length) :
    ∀ picked, Outcome env s c (s.putPicked document picked)
  | some _ => .stored _ h
  | none => .kept _

theorem outcome_putString (text : String) : Outcome env s c (s.putString text) :=
  .stored _ trivial

theorem outcome_editRequest {rid : Int32} {f : HeldRequest → HeldRequest}
    (hf : ∀ r, Grown r (f r)) (hc : c.sets = true) : Outcome env s c (s.editRequest rid f) := by
  unfold HostState.editRequest
  split
  · next r hr => exact .edited _ r _ hr (hf r) (.inr hc)
  · exact .kept _

theorem outcome_writeBytes {ptr len : Int32} {bytes : Bytes} {failed : ℤ}
    (hregion : c.region = some (asUsize ptr.toInt, len.toInt.toNat)) :
    Outcome env s c (match s.writeBytes ptr len bytes with
      | some t => (t, some 0)
      | none => (s, some failed)) := by
  split
  · next t hwrite =>
    obtain ⟨m', hm', rfl⟩ := Option.map_eq_some_iff.mp hwrite
    obtain ⟨m, hm, hwritten⟩ := Option.bind_eq_some_iff.mp hm'
    exact .wrote _ _ m m' _ hregion (List.length_take_le _ _) hm hwritten
  · exact .kept _

theorem length_lt_of_getElem? {α : Type} {l : List α} {i : ℕ} {a : α} (h : l[i]? = some a) :
    i < l.length := (List.getElem?_eq_some_iff.mp h).1

theorem HostState.Sound.nodeList {id : ℤ} {document : ℕ} {ids : List ℕ} (hs : s.Sound)
    (h : s.table.entries id = some (.nodeList document ids)) : document < s.documents.length :=
  (hs.entries id _ h).2.2

@[simp] theorem toOption_eq_some {ε α : Type} {x : Except ε α} {a : α} :
    x.toOption = some a ↔ x = .ok a := by
  cases x with
  | error e => simp [Except.toOption]
  | ok b => simp [Except.toOption]

theorem outcome_print (p l : Int32) :
    Outcome env s (.print p l) (s.print p l) := by
  unfold HostState.print
  split
  · exact .noted s.defaults s.declaredRateLimit s.partialResults _ none
      (fun _ h => by cases h) rfl
  · exact .kept _

theorem outcome_readBuffer (rid ptr len : Int32) :
    Outcome env s (.readBuffer rid ptr len) (s.readBuffer rid ptr len) := by
  unfold HostState.readBuffer
  split
  · exact .kept _
  · exact outcome_writeBytes rfl

theorem outcome_defaultsGet (p l : Int32) :
    Outcome env s (.defaultsGet p l) (s.defaultsGet env p l) := by
  refine outcome_withStr fun key => ?_
  split
  · exact .kept _
  · exact .stored _ trivial

theorem outcome_send (rid : Int32) (net : Network) :
    Outcome env s (.send rid net) (s.send env rid net) := by
  unfold HostState.send
  split
  · exact .kept _
  · next r hr =>
    split
    · next response hresponse =>
      rw [ResourceTable.respond, hr]
      exact .edited _ r _ hr ⟨rfl, List.prefix_rfl⟩ (.inl rfl)
    · exact .kept _

theorem outcome_readData (rid ptr len : Int32) :
    Outcome env s (.readData rid ptr len) (s.readData rid ptr len) := by
  unfold HostState.readData
  split
  · exact .kept _
  · exact outcome_writeBytes rfl

theorem outcome_getUrl (rid : Int32) :
    Outcome env s (.getUrl rid) (s.getUrl rid) := by
  unfold HostState.getUrl
  split
  · exact outcome_putString _
  · exact .kept _

theorem outcome_getHeader (rid kp kl : Int32) :
    Outcome env s (.getHeader rid kp kl) (s.getHeader rid kp kl) := by
  refine outcome_withStr fun key => ?_
  split
  · exact outcome_putString _
  · exact .kept _

theorem outcome_netHtml (rid : Int32) :
    Outcome env s (.netHtml rid) (s.netHtml env rid) := by
  unfold HostState.netHtml
  split
  · exact .kept _
  · exact .parsed _

theorem outcome_select (rid p l : Int32) :
    Outcome env s (.select rid p l) (s.select env rid p l) := by
  refine outcome_withStr fun selector => outcome_withNode fun document html id hdoc => ?_
  split
  · exact .stored _ (length_lt_of_getElem? hdoc)
  · exact .kept _

theorem outcome_selectFirst (rid p l : Int32) :
    Outcome env s (.selectFirst rid p l) (s.selectFirst env rid p l) := by
  refine outcome_withStr fun selector => outcome_withNode fun document html id hdoc => ?_
  split
  · exact .stored _ (length_lt_of_getElem? hdoc)
  · exact .kept _

theorem outcome_get (hs : s.Sound) (rid idx : Int32) :
    Outcome env s (.get rid idx) (s.get rid idx) := by
  unfold HostState.get
  split
  · next hentry => exact outcome_putPicked (hs.nodeList hentry) _
  · exact .kept _

theorem outcome_attr (rid p l : Int32) :
    Outcome env s (.attr rid p l) (s.attr env rid p l) := by
  refine outcome_withStr fun key => outcome_withNode fun document html id _ => ?_
  split
  · exact outcome_putString _
  · exact .kept _

theorem outcome_optStringAccessor (f : OptStringAccessor) (rid : Int32) :
    Outcome env s (.optStringAccessor f rid) (s.optStringAccessor env f rid) := by
  refine outcome_withNode fun document html id _ => ?_
  split
  · exact outcome_putString _
  · exact .kept _

theorem outcome_kind (rid : Int32) :
    Outcome env s (.kind rid) (s.kind env rid) := by
  unfold HostState.kind
  split
  · exact .kept _
  · exact outcome_withNode fun _ _ _ _ => .kept _

theorem outcome_first (hs : s.Sound) (rid : Int32) :
    Outcome env s (.first rid) (s.first env rid) := by
  unfold HostState.first
  split
  · next hentry => exact outcome_putPicked (hs.nodeList hentry) _
  · exact outcome_withNode fun _ _ _ hdoc => outcome_putPicked (length_lt_of_getElem? hdoc) _

theorem outcome_baseUri (rid : Int32) :
    Outcome env s (.baseUri rid) (s.baseUri env rid) := by
  refine outcome_withNode fun document html id _ => ?_
  split
  · exact outcome_putString _
  · exact .kept _

theorem outcome_sendPartialResult {ptr : Int32}
    (h : s.call env (.sendPartialResult ptr) = some result) :
    Outcome env s (.sendPartialResult ptr) result := by
  obtain ⟨found, hread, hrest⟩ := Results.bind_eq_ok.mp (toOption_eq_some.mp h)
  cases found with
  | none =>
    cases hrest
    exact .kept _
  | some bytes =>
    cases hrest
    exact .noted s.defaults s.declaredRateLimit _ s.logs none (fun _ h => by cases h) rfl

private theorem outcome_defaultsSet {p l value : Int32}
    (h : s.call env (.defaultsSet p l value) = some result) :
    Outcome env s (.defaultsSet p l value) result := by
  have hset := toOption_eq_some.mp h
  unfold HostState.defaultsSet at hset
  split at hset
  · cases hset
    exact .kept _
  · split at hset
    · cases hset
      exact .noted _ s.declaredRateLimit s.partialResults s.logs (some 0)
        (fun _ h => by cases h; exact le_rfl) rfl
    · obtain ⟨found, hread, hrest⟩ := Results.bind_eq_ok.mp hset
      cases found with
      | none =>
        cases hrest
        exact .kept _
      | some bytes =>
        cases hrest
        exact .noted _ s.declaredRateLimit s.partialResults s.logs (some 0)
          (fun _ h => by cases h; exact le_rfl) rfl

/-- Whatever is called, one of these happens. -/
theorem call_outcome (hs : s.Sound) (h : s.call env c = some result) :
    Outcome env s c result := by
  cases c with
  | abort | sleep | utcOffset | setTimeout | parseDate =>
    cases h
    exact .kept _
  | print p l =>
    cases h
    exact outcome_print _ _
  | sendPartialResult ptr => exact outcome_sendPartialResult h
  | destroy rid =>
    cases h
    exact .released rid rfl
  | bufferLen rid =>
    cases h
    unfold HostState.bufferLen
    split <;> exact .kept _
  | readBuffer rid ptr len =>
    cases h
    exact outcome_readBuffer _ _ _
  | defaultsGet p l =>
    cases h
    exact outcome_defaultsGet _ _
  | defaultsSet p l value => exact outcome_defaultsSet h
  | init method =>
    cases h
    exact .stored _ trivial
  | setUrl rid p l =>
    cases h
    exact outcome_withStr fun url => outcome_editRequest (fun r => ⟨rfl, List.prefix_rfl⟩) rfl
  | setHeader rid kp kl vp vl =>
    cases h
    exact outcome_withStr fun key => outcome_withStr fun value =>
      outcome_editRequest (fun r => ⟨rfl, List.prefix_append _ _⟩) rfl
  | setBody rid p l =>
    cases h
    exact outcome_withStr fun body => outcome_editRequest (fun r => ⟨rfl, List.prefix_rfl⟩) rfl
  | setRateLimit permits period unit =>
    cases h
    exact .noted s.defaults _ s.partialResults s.logs none (fun _ h => by cases h) rfl
  | send rid net =>
    cases h
    exact outcome_send _ _
  | sendAll ptr len actions => exact .sent ptr len actions result rfl h
  | dataLen rid | getStatusCode rid =>
    cases h
    first | unfold HostState.dataLen | unfold HostState.getStatusCode
    split <;> exact .kept _
  | readData rid ptr len =>
    cases h
    exact outcome_readData _ _ _
  | getUrl rid =>
    cases h
    exact outcome_getUrl _
  | getHeader rid kp kl =>
    cases h
    exact outcome_getHeader _ _ _
  | netHtml rid =>
    cases h
    exact outcome_netHtml _
  | parse fragment p l bp bl =>
    cases h
    exact outcome_withStr fun markup => .parsed _
  | select rid p l =>
    cases h
    exact outcome_select _ _ _
  | selectFirst rid p l =>
    cases h
    exact outcome_selectFirst _ _ _
  | size rid =>
    cases h
    unfold HostState.size
    split <;> exact .kept _
  | get rid idx =>
    cases h
    exact outcome_get hs _ _
  | attr rid p l =>
    cases h
    exact outcome_attr _ _ _
  | textAccessor f rid =>
    cases h
    exact outcome_withNode fun _ _ _ _ => outcome_putString _
  | optStringAccessor f rid =>
    cases h
    exact outcome_optStringAccessor _ _
  | kind rid =>
    cases h
    exact outcome_kind _
  | nodeAccessor f rid =>
    cases h
    exact outcome_withNode fun _ _ _ hdoc => outcome_putPicked (length_lt_of_getElem? hdoc) _
  | first rid =>
    cases h
    exact outcome_first hs _
  | listAccessor f rid =>
    cases h
    exact outcome_withNode fun _ _ _ hdoc => .stored _ (length_lt_of_getElem? hdoc)
  | nodePredicate f rid p l =>
    cases h
    exact outcome_withStr fun _ => outcome_withNode fun _ _ _ _ => .kept _
  | mutateWithString f rid p l =>
    cases h
    exact outcome_withStr fun arg => outcome_withNode fun _ html _ hdoc =>
      .mutated _ html _ hdoc (by cases f <;> rfl)
  | setAttr rid kp kl vp vl =>
    cases h
    exact outcome_withStr fun _ => outcome_withStr fun _ => outcome_withNode fun _ html _ hdoc =>
      .mutated _ html _ hdoc rfl
  | remove rid =>
    cases h
    exact outcome_withNode fun _ html _ hdoc => .mutated _ html _ hdoc rfl
  | escape p l =>
    cases h
    exact outcome_withStr fun _ => outcome_putString _
  | unescape p l =>
    cases h
    exact outcome_withStr fun _ => outcome_putString _
  | baseUri rid =>
    cases h
    exact outcome_baseUri _

end Calls

section Writing
variable {m m' : Memory} {p i : ℕ} {bytes : Bytes}

theorem Memory.write_eq_some : m.write p bytes = some m' ↔
    p + bytes.length ≤ m.length ∧ m' = m.take p ++ bytes ++ m.drop (p + bytes.length) := by
  rw [Memory.write, Option.ite_none_right_eq_some, Option.some.injEq, eq_comm (a := m')]

theorem Memory.length_write (h : m.write p bytes = some m') : m'.length = m.length := by
  obtain ⟨hle, rfl⟩ := Memory.write_eq_some.mp h
  simp only [List.length_append, List.length_take, List.length_drop]
  omega

theorem Memory.getElem?_write (h : m.write p bytes = some m')
    (hi : i < p ∨ p + bytes.length ≤ i) : m'[i]? = m[i]? := by
  obtain ⟨hle, rfl⟩ := Memory.write_eq_some.mp h
  have hfront : (m.take p ++ bytes).length = p + bytes.length := by
    rw [List.length_append, List.length_take]
    omega
  obtain hi | hi := hi
  · rw [List.append_assoc, List.getElem?_append_left (by rw [List.length_take]; omega),
      List.getElem?_take_of_lt hi]
  · rw [List.getElem?_append_right (by omega), List.getElem?_drop, hfront]
    congr 1
    omega

theorem Memory.read_write (h : m.write p bytes = some m') :
    m'.read p bytes.length = some bytes := by
  have hsize := Memory.length_write h
  obtain ⟨hle, rfl⟩ := Memory.write_eq_some.mp h
  have htake : (m.take p).length = p := by
    rw [List.length_take]
    omega
  rw [Memory.read_of_le (hsize ▸ hle), List.append_assoc, List.drop_left' htake,
    List.take_left' rfl]

end Writing

section Sending
variable {lib : Libraries} {client : Client} {memory : Option Memory} {table : ResourceTable ℕ}
  {ptr len : Int32} {actions : List SendAction} {left : AfterSend ℕ}

@[simp] theorem respond_next (id : ℤ) (response : Response) :
    (table.respond id response).next = table.next := by
  unfold ResourceTable.respond
  split <;> rfl

private theorem respond_entries (id other : ℤ) (response : Response) :
    (table.respond id response).entries other = table.entries other ∨ ∃ r,
      table.entries other = some (.request r) ∧ (table.respond id response).entries other =
        some (.request { r with response := some response }) := by
  cases hr : table.request id with
  | none => exact .inl (by rw [ResourceTable.respond_of_none hr])
  | some r =>
    by_cases hid : other = id
    · subst hid
      exact .inr ⟨r, ResourceTable.request_eq_some.mp hr, ResourceTable.respond_self hr⟩
    · exact .inl (ResourceTable.respond_of_ne hid)

/-- What a list of results does to the table: it gives responses to requests. -/
theorem recordAll_table (rids : List ℤ) (results : List (Except ℤ Response)) :
    (recordAll rids table results).table.next = table.next ∧
      ∀ id, (recordAll rids table results).table.entries id = table.entries id ∨
        ∃ r response, table.entries id = some (.request r) ∧
          (recordAll rids table results).table.entries id =
            some (.request { r with response := response }) := by
  induction results using List.reverseRecOn with
  | nil => exact ⟨rfl, fun _ => .inl rfl⟩
  | append_singleton results result ih =>
    rw [recordAll_append]
    cases result with
    | error code => exact ih
    | ok response =>
      cases hrid : rids[results.length]? with
      | none => simpa only [Answers.record, hrid] using ih
      | some rid =>
        simp only [Answers.record, hrid]
        obtain ⟨hnext, hentries⟩ := ih
        refine ⟨(respond_next rid response).trans hnext, fun id => ?_⟩
        obtain hsame | ⟨r, hr, hset⟩ := respond_entries rid id response
        · rw [hsame]
          exact hentries id
        · obtain hold | ⟨r', earlier, hr', hset'⟩ := hentries id
          · exact .inr ⟨r, _, hold.symm.trans hr, hset⟩
          · obtain rfl : r = { r' with response := earlier } := by
              rw [hset', Option.some.injEq, Resource.request.injEq] at hr
              exact hr.symm
            exact .inr ⟨r', _, hr', hset⟩

/-- A call that does not send keeps everything; of one that sends this is what it leaves. -/
theorem sendAll_cases (h : sendAll client lib memory table ptr len actions = some left) :
    left = ⟨memory, table, NetError.invalidDescriptor⟩ ∨
      ∃ rids results, (∀ rid ∈ rids, table.request rid ≠ none) ∧
        left.table = (recordAll rids table results).table ∧
        SentAll client lib memory table ptr len rids actions results left := by
  cases hread : readI32s memory ptr len with
  | none =>
    simp only [sendAll, hread, Option.ite_none_right_eq_some, Option.some.injEq] at h
    exact .inl h.2.symm
  | some rids =>
    by_cases hknown : ∀ rid ∈ rids, table.request rid ≠ none
    · obtain ⟨s, hexec, hfinished, rfl⟩ :=
        (sendAll_known hread (mapM_request_eq_some hknown).1).mp h
      obtain ⟨hcount, hresults, -⟩ := Batches.results_of_exec hexec hfinished
      obtain ⟨-, hlength, hat⟩ := mapM_request_eq_some hknown
      refine .inr ⟨rids, s.out, hknown, ?_, ?_⟩
      · unfold answerAll
        dsimp only
        split
        · rfl
        · split <;> rfl
      · refine answerAll_sentAll hread (hcount.trans hlength) (fun i rid r hi hr => ?_)
          fun i code hcode => ?_
        · exact hresults i r ((hat i rid hi).trans hr)
        · have hlt := (List.getElem?_eq_some_iff.mp hcode).1
          obtain ⟨attempt, -, hresult⟩ :=
            hresults i _ (List.getElem?_eq_getElem (hcount ▸ hlt))
          exact sendOn_error (Option.some.inj (hresult.symm.trans hcode))
    · rw [not_forall] at hknown
      obtain ⟨rid, hrid⟩ := hknown
      rw [Classical.not_imp, not_not] at hrid
      exact .inl ((sendAll_unknown hread ⟨rid, hrid⟩).mp h).2

/-- Requests are given responses, and that is all. -/
theorem sendAll_table (h : sendAll client lib memory table ptr len actions = some left) :
    left.table.next = table.next ∧ ∀ id, left.table.entries id = table.entries id ∨
      ∃ r response, table.entries id = some (.request r) ∧
        left.table.entries id = some (.request { r with response := response }) := by
  obtain rfl | ⟨rids, results, -, htable, -⟩ := sendAll_cases h
  · exact ⟨rfl, fun _ => .inl rfl⟩
  · rw [htable]
    exact recordAll_table rids results

theorem sendAll_memory {m : Memory} (hm : memory = some m)
    (h : sendAll client lib memory table ptr len actions = some left) :
    ∃ m', left.memory = some m' ∧ m'.length = m.length ∧ ∀ i,
      i < ptr.toInt.toNat ∨ ptr.toInt.toNat + len.toInt.toNat * 4 ≤ i → m'[i]? = m[i]? := by
  obtain rfl | ⟨rids, results, -, -, hsent⟩ := sendAll_cases h
  · exact ⟨m, hm, rfl, fun _ _ => rfl⟩
  · exact hsent.elsewhere m hm

end Sending

/-- What becomes of a resource: nothing, but that a request is built and answered. -/
inductive Continues : Resource ℕ → Resource ℕ → Prop where
  | same (resource : Resource ℕ) : Continues resource resource
  | request (r r' : HeldRequest) (grown : Grown r r') : Continues (.request r) (.request r')

/-- How a state goes on from another one, in which these handles were freed on the way: no other
handle is lost, none is issued twice, and documents keep their bases. -/
structure Follows (s t : HostState σ Doc) (freed : ℤ → Prop) : Prop where
  next : s.table.next ≤ t.table.next
  entries : ∀ id resource, s.table.entries id = some resource → ¬ freed id →
    ∃ resource', t.table.entries id = some resource' ∧ Continues resource resource'
  back : ∀ id resource', t.table.entries id = some resource' → id ≤ s.table.next →
    ∃ resource, s.table.entries id = some resource ∧ Continues resource resource'
  documents : ∀ (document : ℕ) (html : Html Doc), s.documents[document]? = some html →
    ∃ html', t.documents[document]? = some html' ∧ html'.base = html.base

/-- The handles that a step frees. -/
def GuestStep.Frees : GuestStep → ℤ → Prop
  | .call (.destroy rid), id => rid.toInt = id
  | _, _ => False

section Following
variable {u : HostState σ Doc} {freed freed' : ℤ → Prop} {resource resource' : Resource ℕ}

theorem Grown.refl (r : HeldRequest) : Grown r r := ⟨rfl, List.prefix_rfl⟩

theorem Grown.trans {r r' r'' : HeldRequest} (h : Grown r r') (h' : Grown r' r'') : Grown r r'' :=
  ⟨h'.method.trans h.method, h.headers.trans h'.headers⟩

theorem Continues.trans {resource'' : Resource ℕ} (h : Continues resource resource')
    (h' : Continues resource' resource'') : Continues resource resource'' := by
  cases h with
  | same => exact h'
  | request r r' hgrown =>
    cases h' with
    | same => exact .request r r' hgrown
    | request _ r'' hgrown' => exact .request r r'' (hgrown.trans hgrown')

theorem Continues.settled {n : ℕ} (h : Continues resource resource') :
    resource'.Settled n ↔ resource.Settled n := by
  cases h <;> rfl

theorem Resource.Settled.mono {m n : ℕ} (hmn : m ≤ n) (h : resource.Settled m) :
    resource.Settled n := by
  cases resource with
  | buffer | request => trivial
  | node | nodeList => exact Nat.lt_of_lt_of_le h hmn

theorem Follows.refl (s : HostState σ Doc) : Follows s s fun _ => False where
  next := le_rfl
  entries _ resource h _ := ⟨resource, h, .same resource⟩
  back _ resource h _ := ⟨resource, h, .same resource⟩
  documents _ html h := ⟨html, h, rfl⟩

theorem Follows.trans (h : Follows s t freed) (h' : Follows t u freed') :
    Follows s u fun id => freed id ∨ freed' id where
  next := h.next.trans h'.next
  entries id resource hid hfreed := by
    rw [not_or] at hfreed
    obtain ⟨resource', hid', hcontinues⟩ := h.entries id resource hid hfreed.1
    obtain ⟨resource'', hid'', hcontinues'⟩ := h'.entries id resource' hid' hfreed.2
    exact ⟨resource'', hid'', hcontinues.trans hcontinues'⟩
  back id resource'' hid'' hold := by
    obtain ⟨resource', hid', hcontinues'⟩ := h'.back id resource'' hid'' (hold.trans h.next)
    obtain ⟨resource, hid, hcontinues⟩ := h.back id resource' hid' hold
    exact ⟨resource, hid, hcontinues.trans hcontinues'⟩
  documents document html hdoc := by
    obtain ⟨html', hdoc', hbase⟩ := h.documents document html hdoc
    obtain ⟨html'', hdoc'', hbase'⟩ := h'.documents document html' hdoc'
    exact ⟨html'', hdoc'', hbase'.trans hbase⟩

theorem Follows.weaken (h : Follows s t freed) (hfreed : ∀ id, freed id → freed' id) :
    Follows s t freed' :=
  ⟨h.next, fun id resource hid hnot => h.entries id resource hid fun hf => hnot (hfreed id hf),
    h.back, h.documents⟩

/-- A state with the same table and documents. -/
theorem Follows.of_eq (htable : t.table = s.table) (hdocs : t.documents = s.documents) :
    Follows s t freed where
  next := by rw [htable]
  entries _ resource h _ := ⟨resource, htable ▸ h, .same resource⟩
  back _ resource h _ := ⟨resource, htable ▸ h, .same resource⟩
  documents _ html h := ⟨html, hdocs ▸ h, rfl⟩

theorem HostState.Sound.of_eq (hs : s.Sound) (htable : t.table = s.table)
    (hdocs : t.documents = s.documents) : t.Sound := by
  refine ⟨htable ▸ hs.next, fun id resource h => ?_⟩
  rw [htable] at h ⊢
  rw [hdocs]
  exact hs.entries id resource h

/-- A new resource is stored under a handle of its own. -/
theorem follows_put (hs : s.Sound) (resource : Resource ℕ) :
    Follows s (s.put resource).1 freed := by
  have hnone : s.table.entries (s.table.next + 1) = none := by
    cases hentry : s.table.entries (s.table.next + 1) with
    | none => rfl
    | some found =>
      have hle := (hs.entries _ found hentry).2.1
      omega
  refine ⟨Int.le_add_one le_rfl, fun id old hid _ => ?_, fun id old hid hle => ?_,
    fun _ html h => ⟨html, h, rfl⟩⟩
  · have hne : id ≠ s.table.next + 1 := by
      rintro rfl
      rw [hnone] at hid
      cases hid
    exact ⟨old, (Function.update_of_ne hne _ _).trans hid, .same old⟩
  · have hne : id ≠ s.table.next + 1 := by omega
    exact ⟨old, (Function.update_of_ne hne _ _).symm.trans hid, .same old⟩

theorem sound_put (hs : s.Sound) (hsettled : resource.Settled s.documents.length) :
    (s.put resource).1.Sound := by
  refine ⟨Int.le_add_one hs.next, fun id found hid => ?_⟩
  have hnext := hs.next
  change Function.update s.table.entries (s.table.next + 1) (some resource) id = some found at hid
  change 0 < id ∧ id ≤ s.table.next + 1 ∧ _
  by_cases heq : id = s.table.next + 1
  · subst heq
    rw [Function.update_self] at hid
    cases hid
    exact ⟨by omega, le_rfl, hsettled⟩
  · rw [Function.update_of_ne heq] at hid
    obtain ⟨hpos, hle, hfound⟩ := hs.entries id found hid
    exact ⟨hpos, by omega, hfound⟩

/-- The table goes on under the same handles. -/
theorem sound_follows_table {table : ResourceTable ℕ} {memory : Option Memory} (hs : s.Sound)
    (hnext : table.next = s.table.next)
    (hentries : ∀ id, table.entries id = s.table.entries id ∨ ∃ r r', Grown r r' ∧
      s.table.entries id = some (.request r) ∧ table.entries id = some (.request r')) :
    HostState.Sound { s with memory := memory, table := table } ∧
      Follows s { s with memory := memory, table := table } freed := by
  have hback : ∀ id resource', table.entries id = some resource' →
      ∃ resource, s.table.entries id = some resource ∧ Continues resource resource' := by
    intro id resource' hid
    obtain hsame | ⟨r, r', hgrown, hr, hr'⟩ := hentries id
    · exact ⟨resource', hsame ▸ hid, .same _⟩
    · cases hr'.symm.trans hid
      exact ⟨_, hr, .request r r' hgrown⟩
  refine ⟨⟨hnext ▸ hs.next, fun id resource' hid => ?_⟩, hnext.symm.le, fun id resource hid _ => ?_,
    fun id resource' hid _ => hback id resource' hid, fun _ html h => ⟨html, h, rfl⟩⟩
  · obtain ⟨resource, hold, hcontinues⟩ := hback id resource' hid
    obtain ⟨hpos, hle, hsettled⟩ := hs.entries id resource hold
    exact ⟨hpos, hnext.symm ▸ hle, hcontinues.settled.mpr hsettled⟩
  · obtain hsame | ⟨r, r', hgrown, hr, hr'⟩ := hentries id
    · exact ⟨resource, hsame.trans hid, .same _⟩
    · cases hr.symm.trans hid
      exact ⟨_, hr', .request r r' hgrown⟩

/-- Documents are added, or changed in place. -/
theorem sound_follows_documents {documents : List (Html Doc)} (hs : s.Sound)
    (hlength : s.documents.length ≤ documents.length)
    (hbases : ∀ (document : ℕ) (html : Html Doc), s.documents[document]? = some html →
      ∃ html', documents[document]? = some html' ∧ html'.base = html.base) :
    HostState.Sound { s with documents := documents } ∧
      Follows s { s with documents := documents } freed := by
  refine ⟨⟨hs.next, fun id resource hid => ?_⟩, le_rfl,
    fun _ resource h _ => ⟨resource, h, .same _⟩, fun _ resource h _ => ⟨resource, h, .same _⟩,
    hbases⟩
  obtain ⟨hpos, hle, hsettled⟩ := hs.entries id resource hid
  exact ⟨hpos, hle, hsettled.mono hlength⟩

theorem sound_follows_destroy (hs : s.Sound) (rid : Int32) :
    (s.destroy rid).1.Sound ∧ Follows s (s.destroy rid).1 fun id => rid.toInt = id := by
  have hold : ∀ id resource, (s.table.remove rid.toInt).entries id = some resource →
      s.table.entries id = some resource := by
    intro id resource hid
    change Function.update s.table.entries rid.toInt none id = some resource at hid
    by_cases heq : id = rid.toInt
    · rw [heq, Function.update_self] at hid
      cases hid
    · rwa [Function.update_of_ne heq] at hid
  refine ⟨⟨hs.next, fun id resource hid => hs.entries id resource (hold id resource hid)⟩, le_rfl,
    fun id resource hid hne => ⟨resource, ?_, .same _⟩,
    fun id resource hid _ => ⟨resource, hold id resource hid, .same _⟩,
    fun _ html h => ⟨html, h, rfl⟩⟩
  exact (Function.update_of_ne (Ne.symm hne) _ _).trans hid

/-- Whatever happens in a call, the state stays sound and goes on from the one before. -/
theorem Outcome.sound_follows (hs : s.Sound) (h : Outcome env s c result) :
    result.1.Sound ∧ Follows s result.1 (GuestStep.call c).Frees := by
  cases h with
  | kept answer => exact ⟨hs, (Follows.refl s).weaken fun _ h => h.elim⟩
  | wrote | noted => exact ⟨hs.of_eq rfl rfl, .of_eq rfl rfl⟩
  | stored resource hsettled => exact ⟨sound_put hs hsettled, follows_put hs resource⟩
  | parsed html =>
    have hlength : s.documents.length ≤ (s.documents ++ [html]).length := by
      rw [List.length_append]
      exact Nat.le_add_right _ _
    obtain ⟨hsound, hfollows⟩ := @sound_follows_documents σ Doc s (fun _ => False) _ hs hlength
      fun document old hold =>
        ⟨old, by rw [List.getElem?_append_left (length_lt_of_getElem? hold), hold], rfl⟩
    have hroot : (Resource.node s.documents.length (html.root env.dom)).Settled
        (s.documents ++ [html]).length := by
      rw [List.length_append]
      exact Nat.lt_add_one _
    exact ⟨sound_put hsound hroot, (hfollows.trans (follows_put hsound _)).weaken fun _ h =>
      h.elim False.elim id⟩
  | released rid hnamed =>
    subst hnamed
    exact sound_follows_destroy hs rid
  | edited id r r' hr hgrown _ =>
    refine sound_follows_table hs rfl fun other => ?_
    by_cases heq : other = id
    · subst heq
      exact .inr ⟨r, r', hgrown, ResourceTable.request_eq_some.mp hr, Function.update_self _ _ _⟩
    · exact .inl (Function.update_of_ne heq _ _)
  | mutated document old html hold hbase =>
    refine sound_follows_documents hs (by rw [List.length_set]) fun other found hfound => ?_
    by_cases heq : other = document
    · subst heq
      cases hold.symm.trans hfound
      exact ⟨html, by rw [List.getElem?_set_self (length_lt_of_getElem? hold)], hbase⟩
    · exact ⟨found, by rw [List.getElem?_set_ne (Ne.symm heq), hfound], rfl⟩
  | sent ptr len actions result hnamed hsends =>
    obtain ⟨left, hleft, rfl⟩ := Option.map_eq_some_iff.mp hsends
    obtain ⟨hnext, hentries⟩ := sendAll_table hleft
    refine sound_follows_table hs hnext fun id => (hentries id).imp_right ?_
    rintro ⟨r, response, hr, hr'⟩
    exact ⟨r, { r with response := response }, ⟨rfl, List.prefix_rfl⟩, hr, hr'⟩

theorem step_sound_follows {a : GuestStep} (hs : s.Sound) (h : s.step env a = some t) :
    t.Sound ∧ Follows s t a.Frees := by
  cases a with
  | call c =>
    obtain ⟨answer, hcall⟩ := HostState.of_step_call h
    exact (call_outcome hs hcall).sound_follows hs
  | store offset bytes =>
    obtain ⟨m, -, rfl⟩ := Option.map_eq_some_iff.mp h
    exact ⟨hs.of_eq rfl rfl, .of_eq rfl rfl⟩
  | grow count =>
    obtain ⟨m, -, rfl⟩ := Option.map_eq_some_iff.mp h
    exact ⟨hs.of_eq rfl rfl, .of_eq rfl rfl⟩

/-- The same holds from the first step of a run to its last. -/
theorem exec_sound_follows {steps : List GuestStep} (hs : s.Sound)
    (h : Runs.exec (HostState.step env) s steps = some t) :
    t.Sound ∧ Follows s t fun id => ∃ a ∈ steps, a.Frees id := by
  induction steps generalizing s with
  | nil =>
    cases h
    exact ⟨hs, (Follows.refl _).weaken fun _ h => h.elim⟩
  | cons a steps ih =>
    obtain ⟨u, hstep, hrest⟩ := Option.bind_eq_some_iff.mp h
    obtain ⟨hsound, hfollows⟩ := step_sound_follows hs hstep
    obtain ⟨hsound', hfollows'⟩ := ih hsound hrest
    refine ⟨hsound', (hfollows.trans hfollows').weaken fun id hid => ?_⟩
    obtain hid | ⟨b, hb, hid⟩ := hid
    · exact ⟨a, List.mem_cons_self, hid⟩
    · exact ⟨b, List.mem_cons_of_mem _ hb, hid⟩

theorem HostState.sound_new (memory : Option Memory) (defaults : σ) :
    (HostState.new memory defaults : HostState σ Doc).Sound :=
  ⟨le_rfl, fun _ _ h => (by cases h)⟩

end Following

end Runtime
end Nyuka
