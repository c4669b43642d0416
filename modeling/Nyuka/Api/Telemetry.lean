import Nyuka.Domain.Model
import Nyuka.Foundation.Binary64

/-! The telemetry ingest: what a batch of spans is reduced to before any of it is logged. Both
encodings of a batch end in the one shape `filter` reads. -/
namespace Nyuka
namespace Api
namespace Telemetry

def expectedService : String := "manga-web"

/-- Spans accepted in one batch. -/
def maxSpans : ℕ := 200

/-- Attributes kept per span. -/
def maxAttributes : ℕ := 32

/-- Longest string value kept, in bytes. -/
def maxStringBytes : ℕ := 1024

def allowedPrefixes : List String := ["http.", "url.", "exception.", "browser.", "app."]

/-- Keys the server owns. -/
def serverOwned : List String := ["session.id", "user.id", "service.name"]

def isAllowedAttribute (key : String) : Bool :=
  !serverOwned.contains key && allowedPrefixes.any fun p => p.toList.isPrefixOf key.toList

/-- Cuts a text that is too long at a character boundary. -/
def truncate (value : String) (limit : ℕ) : String :=
  if Text.bytes value.toList ≤ limit then value
  else String.ofList (Text.takeBytes limit value.toList) ++ "…"

structure AnyValue where
  stringValue : Option String := none
  intValue : Option JsonValue := none
  doubleValue : Option Binary64 := none
  boolValue : Option Bool := none

structure KeyValue where
  key : String
  value : Option AnyValue

structure OtlpSpan where
  name : String
  traceId : String
  spanId : String
  startTimeUnixNano : Option JsonValue := none
  endTimeUnixNano : Option JsonValue := none
  attributes : List KeyValue

structure ScopeSpans where
  spans : List OtlpSpan

structure OtlpResource where
  attributes : List KeyValue

structure ResourceSpans where
  resource : Option OtlpResource
  scopeSpans : List ScopeSpans

structure OtlpBody where
  resourceSpans : List ResourceSpans

/-- One span, reduced to what is logged. -/
structure AcceptedSpan where
  name : String
  traceId : String
  spanId : String
  attributes : List (String × String)
deriving DecidableEq, Repr

structure Accepted where
  spans : List AcceptedSpan
  droppedAttributes : ℕ
deriving DecidableEq, Repr

inductive Rejected where
  | malformed (detail : String)
  | wrongService (found : String)
  | tooManySpans (count : ℕ)
deriving DecidableEq, Repr

def Rejected.detail : Rejected → String
  | malformed e => s!"The body is not valid OTLP: {e}"
  | wrongService found =>
    s!"Only `{expectedService}` telemetry is accepted here; the batch claimed " ++
      s!"`{truncate found 64}`."
  | tooManySpans count =>
    s!"A batch may carry at most {maxSpans} spans; this one had {count}."

section Filter
variable (text : JsonValue → String)

/-- Renders a value, or nothing for a shape that is not logged. An integer is the library's text
of the JSON value it was sent as, less the quotes. -/
def AnyValue.render (value : AnyValue) : Option String :=
  match value.stringValue, value.intValue, value.doubleValue, value.boolValue with
  | some s, _, _, _ => some (truncate s maxStringBytes)
  | none, some i, _, _ =>
    some (truncate (String.ofList (Text.trimMatches (· == '"') (text i).toList)) 64)
  | none, none, some d, _ => some (String.ofList d.display)
  | none, none, none, some b => some (if b then "true" else "false")
  | none, none, none, none => none

/-- One step of the loop over the attributes of a span: those kept so far, and the count of
those dropped. -/
def keepAttribute (state : List (String × String) × ℕ) (kv : KeyValue) :
    List (String × String) × ℕ :=
  if !isAllowedAttribute kv.key then (state.1, state.2 + 1)
  else if maxAttributes ≤ state.1.length then (state.1, state.2 + 1)
  else
    match kv.value.bind (AnyValue.render text) with
    | none => (state.1, state.2 + 1)
    | some value => (state.1 ++ [(truncate kv.key 128, value)], state.2)

/-- One step of the loop over the spans. -/
def keepSpan (accepted : Accepted) (span : OtlpSpan) : Accepted :=
  let kept := span.attributes.foldl (keepAttribute text) ([], accepted.droppedAttributes)
  { spans := accepted.spans ++ [{
      name := truncate span.name maxStringBytes
      traceId := truncate span.traceId 64
      spanId := truncate span.spanId 64
      attributes := kept.1 }]
    droppedAttributes := kept.2 }

/-- What the batch says it comes from: the first `service.name` found. -/
def OtlpBody.service (parsed : OtlpBody) : String :=
  let attributes := (parsed.resourceSpans.filterMap ResourceSpans.resource).flatMap
    OtlpResource.attributes
  (((attributes.find? fun kv => kv.key == "service.name").bind KeyValue.value).bind
    AnyValue.stringValue).getD ""

def OtlpBody.spans (parsed : OtlpBody) : List OtlpSpan :=
  (parsed.resourceSpans.flatMap ResourceSpans.scopeSpans).flatMap ScopeSpans.spans

/-- How many spans the batch has, counted scope by scope. -/
def OtlpBody.total (parsed : OtlpBody) : ℕ :=
  ((parsed.resourceSpans.flatMap ResourceSpans.scopeSpans).map fun ss => ss.spans.length).sum

/-- The validation both encodings share. -/
def filter (parsed : OtlpBody) : Except Rejected Accepted :=
  if parsed.service ≠ expectedService then .error (.wrongService parsed.service)
  else if maxSpans < parsed.total then .error (.tooManySpans parsed.total)
  else .ok (parsed.spans.foldl (keepSpan text) ⟨[], 0⟩)

/-- What an attribute is logged as, where there is room for it. -/
def keptAttribute (kv : KeyValue) : Option (String × String) :=
  if isAllowedAttribute kv.key then
    (kv.value.bind (AnyValue.render text)).map fun value => (truncate kv.key 128, value)
  else none

/-- What a span is logged as. -/
def OtlpSpan.accepted (span : OtlpSpan) : AcceptedSpan where
  name := truncate span.name maxStringBytes
  traceId := truncate span.traceId 64
  spanId := truncate span.spanId 64
  attributes := (span.attributes.filterMap (keptAttribute text)).take maxAttributes

variable {text}

/-- A step keeps the attribute where it is one to keep and there is room, else counts it. -/
theorem keepAttribute_eq (state : List (String × String) × ℕ) (kv : KeyValue) :
    keepAttribute text state kv =
      if state.1.length < maxAttributes ∧ (keptAttribute text kv).isSome then
        (state.1 ++ (keptAttribute text kv).toList, state.2)
      else (state.1, state.2 + 1) := by
  unfold keepAttribute keptAttribute
  by_cases hallowed : isAllowedAttribute kv.key
  · by_cases hroom : state.1.length < maxAttributes
    · cases kv.value.bind (AnyValue.render text) <;> simp [hallowed, hroom]
    · simp [hallowed, hroom, not_lt.mp hroom]
  · simp [hallowed]

theorem foldl_keepAttribute (kvs : List KeyValue) (state : List (String × String) × ℕ)
    (hroom : state.1.length ≤ maxAttributes) :
    (kvs.foldl (keepAttribute text) state).1 =
      (state.1 ++ kvs.filterMap (keptAttribute text)).take maxAttributes := by
  induction kvs generalizing state with
  | nil => simp [List.take_of_length_le hroom]
  | cons kv kvs ih =>
    rw [List.foldl_cons, keepAttribute_eq]
    by_cases hkept : state.1.length < maxAttributes ∧ (keptAttribute text kv).isSome
    · obtain ⟨kept, hsome⟩ := Option.isSome_iff_exists.mp hkept.2
      have hroom' : (state.1 ++ (keptAttribute text kv).toList).length ≤ maxAttributes := by
        simp only [hsome, Option.toList_some, List.length_append, List.length_singleton]
        omega
      rw [if_pos hkept, ih _ hroom', List.filterMap_cons_some hsome, hsome]
      simp
    · rw [if_neg hkept, ih (state.1, state.2 + 1) hroom]
      by_cases hfull : maxAttributes ≤ state.1.length
      · rw [List.take_append_of_le_length hfull, List.take_append_of_le_length hfull]
      · have hnone : keptAttribute text kv = none := by
          rw [← Option.not_isSome_iff_eq_none]
          exact fun hsome => hkept ⟨not_le.mp hfull, hsome⟩
        rw [List.filterMap_cons_none hnone]

/-- Every attribute is kept or counted. -/
theorem foldl_keepAttribute_count (kvs : List KeyValue) (state : List (String × String) × ℕ) :
    (kvs.foldl (keepAttribute text) state).1.length + (kvs.foldl (keepAttribute text) state).2 =
      state.1.length + state.2 + kvs.length := by
  induction kvs generalizing state with
  | nil => rfl
  | cons kv kvs ih =>
    have hstep : (keepAttribute text state kv).1.length + (keepAttribute text state kv).2 =
        state.1.length + state.2 + 1 := by
      rw [keepAttribute_eq]
      split
      · next hkept =>
        obtain ⟨kept, hsome⟩ := Option.isSome_iff_exists.mp hkept.2
        simp only [hsome, Option.toList_some, List.length_append, List.length_singleton]
        omega
      · rfl
    rw [List.foldl_cons, ih, hstep, List.length_cons]
    omega

private theorem keepSpan_spans (accepted : Accepted) (span : OtlpSpan) :
    (keepSpan text accepted span).spans = accepted.spans ++ [span.accepted text] := by
  have hkept := @foldl_keepAttribute text span.attributes ([], accepted.droppedAttributes)
    (Nat.zero_le _)
  rw [List.nil_append] at hkept
  simp [keepSpan, OtlpSpan.accepted, hkept]

theorem foldl_keepSpan (spans : List OtlpSpan) (accepted : Accepted) :
    (spans.foldl (keepSpan text) accepted).spans =
      accepted.spans ++ spans.map (OtlpSpan.accepted text) := by
  induction spans generalizing accepted with
  | nil => simp
  | cons span spans ih =>
    rw [List.foldl_cons, ih, keepSpan_spans]
    simp

def Accepted.attributeCount (accepted : Accepted) : ℕ :=
  (accepted.spans.map fun span => span.attributes.length).sum

theorem foldl_keepSpan_count (spans : List OtlpSpan) (accepted : Accepted) :
    (spans.foldl (keepSpan text) accepted).attributeCount +
        (spans.foldl (keepSpan text) accepted).droppedAttributes =
      accepted.attributeCount + accepted.droppedAttributes +
        (spans.map fun span => span.attributes.length).sum := by
  induction spans generalizing accepted with
  | nil => rfl
  | cons span spans ih =>
    have hspan := @foldl_keepAttribute_count text span.attributes
      ([], accepted.droppedAttributes)
    have hstep : (keepSpan text accepted span).attributeCount +
        (keepSpan text accepted span).droppedAttributes =
        accepted.attributeCount + accepted.droppedAttributes + span.attributes.length := by
      simp only [keepSpan, Accepted.attributeCount, List.map_append, List.map_cons, List.map_nil,
        List.sum_append, List.sum_singleton, List.length_nil] at hspan ⊢
      omega
    rw [List.foldl_cons, ih, hstep, List.map_cons, List.sum_cons]
    omega

/-- What an accepted batch is reduced to. -/
theorem filter_eq_ok {parsed : OtlpBody} {accepted : Accepted}
    (h : filter text parsed = .ok accepted) :
    parsed.service = expectedService ∧ parsed.total ≤ maxSpans ∧
      accepted = parsed.spans.foldl (keepSpan text) ⟨[], 0⟩ := by
  unfold filter at h
  split at h
  · cases h
  · next hservice =>
    split at h
    · cases h
    · next htotal => exact ⟨not_not.mp hservice, not_lt.mp htotal, (Except.ok.inj h).symm⟩

theorem filter_of_admitted {parsed : OtlpBody} (hservice : parsed.service = expectedService)
    (htotal : parsed.total ≤ maxSpans) :
    filter text parsed = .ok (parsed.spans.foldl (keepSpan text) ⟨[], 0⟩) := by
  unfold filter
  rw [if_neg (not_not.mpr hservice), if_neg (not_lt.mpr htotal)]

theorem total_eq_length (parsed : OtlpBody) : parsed.total = parsed.spans.length := by
  simp [OtlpBody.total, OtlpBody.spans, List.length_flatMap]

end Filter

section Bounds

/-- What is kept of a text: the whole of it, or a beginning that fits and an ellipsis. -/
def CutTo (limit : ℕ) (sent kept : String) : Prop :=
  (Text.bytes sent.toList ≤ limit ∧ kept = sent) ∨
    ∃ front, front <+: sent.toList ∧ Text.bytes front ≤ limit ∧ kept = String.ofList front ++ "…"

/-- The whole text of a value and the limit it is kept to. -/
def AnyValue.sent (text : JsonValue → String) (value : AnyValue) : Option (String × ℕ) :=
  (value.stringValue.map fun s => (s, maxStringBytes)) <|>
  (value.intValue.map fun i =>
    (String.ofList (Text.trimMatches (· == '"') (text i).toList), 64)) <|>
  (value.doubleValue.map fun d => (String.ofList d.display, maxStringBytes)) <|>
  (value.boolValue.map fun b => (if b then "true" else "false", maxStringBytes))

/-- An attribute as it is kept. -/
structure AttributeKept (text : JsonValue → String) (sent : KeyValue) (kept : String × String) :
    Prop where
  allowed : isAllowedAttribute sent.key
  key : CutTo 128 sent.key kept.1
  value : ∃ value whole limit, sent.value = some value ∧ value.sent text = some (whole, limit) ∧
    CutTo limit whole kept.2
  keptAllowed : isAllowedAttribute kept.1
  notOwned : kept.1 ∉ serverOwned

/-- A span as it is kept. -/
structure SpanKept (text : JsonValue → String) (sent : OtlpSpan) (kept : AcceptedSpan) :
    Prop where
  name : CutTo maxStringBytes sent.name kept.name
  traceId : CutTo 64 sent.traceId kept.traceId
  spanId : CutTo 64 sent.spanId kept.spanId
  count : kept.attributes.length ≤ maxAttributes
  attributes : ∃ chosen, chosen.Sublist sent.attributes ∧
    List.Forall₂ (AttributeKept text) chosen kept.attributes

def OtlpBody.resources (parsed : OtlpBody) : List OtlpResource :=
  parsed.resourceSpans.filterMap ResourceSpans.resource

/-- What a resource says it is. -/
def OtlpResource.service (resource : OtlpResource) : Option String :=
  ((resource.attributes.find? fun kv => kv.key == "service.name").bind KeyValue.value).bind
    AnyValue.stringValue

/-- What is forwarded of a batch is bounded. -/
structure Bounded (text : JsonValue → String) (parsed : OtlpBody) (accepted : Accepted) :
    Prop where
  service : ∀ resource ∈ parsed.resources, resource.service = some expectedService
  total : parsed.spans.length ≤ maxSpans
  spans : List.Forall₂ (SpanKept text) parsed.spans accepted.spans
  counted : accepted.attributeCount + accepted.droppedAttributes =
    (parsed.spans.map fun span => span.attributes.length).sum

theorem cutTo_truncate (value : String) (limit : ℕ) : CutTo limit value (truncate value limit) := by
  unfold truncate
  by_cases hfits : Text.bytes value.toList ≤ limit
  · rw [if_pos hfits]
    exact .inl ⟨hfits, rfl⟩
  · rw [if_neg hfits]
    exact .inr ⟨_, Text.takeBytes_initial _ _, Text.bytes_takeBytes_le _ _, rfl⟩

variable {text : JsonValue → String}

theorem cutTo_of_fits {limit : ℕ} {sent : String} (h : Text.bytes sent.toList ≤ limit) :
    CutTo limit sent sent := .inl ⟨h, rfl⟩

/-- No number is too long to be logged whole. -/
theorem cutTo_display (d : Binary64) :
    CutTo maxStringBytes (String.ofList d.display) (String.ofList d.display) := by
  apply cutTo_of_fits
  rw [String.toList_ofList, Text.bytes_of_ascii fun c => Binary64.ascii_of_mem_display]
  exact (Binary64.length_display d).trans (by decide)

theorem render_cut {value : AnyValue} {logged : String} (h : value.render text = some logged) :
    ∃ whole limit, value.sent text = some (whole, limit) ∧ CutTo limit whole logged := by
  obtain ⟨s, i, d, b⟩ := value
  simp only [AnyValue.render] at h
  cases s with
  | some s =>
    obtain rfl := Option.some.inj h
    exact ⟨s, maxStringBytes, rfl, cutTo_truncate s _⟩
  | none =>
    cases i with
    | some i =>
      obtain rfl := Option.some.inj h
      exact ⟨_, 64, rfl, cutTo_truncate _ _⟩
    | none =>
      cases d with
      | some d =>
        obtain rfl := Option.some.inj h
        exact ⟨_, maxStringBytes, rfl, cutTo_display d⟩
      | none =>
        cases b with
        | some b =>
          obtain rfl := Option.some.inj h
          exact ⟨_, maxStringBytes, rfl, cutTo_of_fits (by cases b <;> decide)⟩
        | none => cases h

/-- No key of the server's begins like one that is kept. -/
theorem isAllowedAttribute_iff {key : String} :
    isAllowedAttribute key = true ↔ ∃ p ∈ allowedPrefixes, p.toList <+: key.toList := by
  have hnone : ∀ k ∈ serverOwned, ∀ p ∈ allowedPrefixes, ¬ p.toList <+: k.toList := by decide
  simp only [isAllowedAttribute, Bool.and_eq_true, Bool.not_eq_true', List.contains_eq_mem,
    decide_eq_false_iff_not, List.any_eq_true, List.isPrefixOf_iff_prefix]
  exact ⟨And.right, fun ⟨p, hp, hkey⟩ => ⟨fun howned => hnone key howned p hp hkey, p, hp, hkey⟩⟩

/-- A key that is cut is still one to keep. -/
theorem isAllowedAttribute_truncate {key : String} (h : isAllowedAttribute key = true) :
    isAllowedAttribute (truncate key 128) = true := by
  obtain ⟨p, hp, hkey⟩ := isAllowedAttribute_iff.mp h
  refine isAllowedAttribute_iff.mpr ⟨p, hp, ?_⟩
  unfold truncate
  split
  · exact hkey
  · have hshort : ∀ p ∈ allowedPrefixes, Text.bytes p.toList ≤ 128 := by decide
    rw [String.toList_append, String.toList_ofList]
    exact (Text.prefix_takeBytes hkey (hshort p hp)).trans (List.prefix_append _ _)

theorem attributeKept_of_some {kv : KeyValue} {kept : String × String}
    (h : keptAttribute text kv = some kept) : AttributeKept text kv kept := by
  unfold keptAttribute at h
  split at h
  · next hallowed =>
    obtain ⟨logged, hlogged, rfl⟩ := Option.map_eq_some_iff.mp h
    obtain ⟨value, hvalue, hrender⟩ := Option.bind_eq_some_iff.mp hlogged
    obtain ⟨whole, limit, hsent, hcut⟩ := render_cut hrender
    have hkept := isAllowedAttribute_truncate hallowed
    refine ⟨hallowed, cutTo_truncate _ _, ⟨value, whole, limit, hvalue, hsent, hcut⟩, hkept, ?_⟩
    simp only [isAllowedAttribute, Bool.and_eq_true, Bool.not_eq_true', List.contains_eq_mem,
      decide_eq_false_iff_not] at hkept
    exact hkept.1
  · cases h

/-- What a partial function makes of a list stems from some of its elements, in their order. -/
theorem exists_sublist_of_filterMap {α β : Type*} {R : α → β → Prop} {f : α → Option β}
    (hf : ∀ a b, f a = some b → R a b) {l : List α} {m : List β} (hm : m.Sublist (l.filterMap f)) :
    ∃ chosen, chosen.Sublist l ∧ List.Forall₂ R chosen m := by
  induction l generalizing m with
  | nil =>
    rw [List.filterMap_nil, List.sublist_nil] at hm
    exact ⟨[], List.nil_sublist _, hm ▸ .nil⟩
  | cons a l ih =>
    cases ha : f a with
    | none =>
      rw [List.filterMap_cons_none ha] at hm
      obtain ⟨chosen, hsub, hall⟩ := ih hm
      exact ⟨chosen, hsub.cons a, hall⟩
    | some b =>
      rw [List.filterMap_cons_some ha] at hm
      rcases List.sublist_cons_iff.mp hm with hrest | ⟨m, rfl, hrest⟩
      · obtain ⟨chosen, hsub, hall⟩ := ih hrest
        exact ⟨chosen, hsub.cons a, hall⟩
      · obtain ⟨chosen, hsub, hall⟩ := ih hrest
        exact ⟨a :: chosen, hsub.cons_cons a, .cons (hf a b ha) hall⟩

theorem spanKept_accepted (span : OtlpSpan) : SpanKept text span (span.accepted text) where
  name := cutTo_truncate _ _
  traceId := cutTo_truncate _ _
  spanId := cutTo_truncate _ _
  count := by
    unfold OtlpSpan.accepted
    exact List.length_take_le _ _
  attributes := exists_sublist_of_filterMap (fun _ _ => attributeKept_of_some)
    (List.take_sublist _ _)

/-- All the resources of a batch say the same about where it comes from. -/
def SameService (parsed : OtlpBody) : Prop :=
  ∀ r ∈ parsed.resources, ∀ r' ∈ parsed.resources, r.service = r'.service

/-- A batch is admitted on the word of one of its resources. -/
theorem exists_of_service {parsed : OtlpBody} (hservice : parsed.service = expectedService) :
    ∃ r ∈ parsed.resources, r.service = some expectedService := by
  simp only [OtlpBody.service, List.find?_flatMap] at hservice
  cases hfound : parsed.resources.findSome?
      fun r => r.attributes.find? fun kv => kv.key == "service.name" with
  | none =>
    rw [OtlpBody.resources] at hfound
    rw [hfound] at hservice
    exact absurd hservice (by decide)
  | some kv =>
    obtain ⟨r, hr, hkv⟩ := List.exists_of_findSome?_eq_some hfound
    refine ⟨r, hr, ?_⟩
    rw [OtlpBody.resources] at hfound
    rw [hfound] at hservice
    unfold OtlpResource.service
    rw [hkv]
    cases hclaim : (some kv).bind KeyValue.value |>.bind AnyValue.stringValue with
    | none =>
      rw [hclaim] at hservice
      exact absurd hservice (by decide)
    | some claim =>
      rw [hclaim] at hservice
      exact congrArg some hservice

/-- What is forwarded of an accepted batch is bounded, apart from where it comes from: that
holds of every resource where the resources do not contradict each other. -/
theorem filter_bounded_iff (text : JsonValue → String) (parsed : OtlpBody) :
    (∀ accepted, filter text parsed = .ok accepted → Bounded text parsed accepted) ↔
      (parsed.service = expectedService → parsed.total ≤ maxSpans → SameService parsed) := by
  constructor
  · intro h hservice htotal r hr r' hr'
    have hbounded := h _ (filter_of_admitted hservice htotal)
    rw [hbounded.service r hr, hbounded.service r' hr']
  · intro h accepted hok
    obtain ⟨hservice, htotal, rfl⟩ := filter_eq_ok hok
    obtain ⟨r, hr, hclaim⟩ := exists_of_service hservice
    have hsame := h hservice htotal
    have hspans := @foldl_keepSpan text parsed.spans ⟨[], 0⟩
    have hcount := @foldl_keepSpan_count text parsed.spans ⟨[], 0⟩
    refine ⟨fun r' hr' => (hsame r' hr' r hr).trans hclaim, ?_, ?_, ?_⟩
    · exact total_eq_length parsed ▸ htotal
    · rw [hspans, List.nil_append, List.forall₂_map_right_iff]
      exact List.forall₂_same.mpr fun span _ => spanKept_accepted span
    · simpa [Accepted.attributeCount] using hcount

/-- A second resource is not asked where it comes from. -/
theorem second_resource_unchecked : ¬ ∀ text parsed accepted,
    filter text parsed = .ok accepted → Bounded text parsed accepted := by
  intro h
  let claim (service : String) : KeyValue := ⟨"service.name", some { stringValue := some service }⟩
  let span : OtlpSpan := { name := "x", traceId := "", spanId := "", attributes := [] }
  let parsed : OtlpBody := ⟨[⟨some ⟨[claim "manga-web"]⟩, []⟩,
    ⟨some ⟨[claim "other"]⟩, [⟨[span]⟩]⟩]⟩
  have hbounded := h (fun _ => "") parsed ⟨[⟨"x", "", "", []⟩], 0⟩ (by decide)
  have hother := hbounded.service ⟨[claim "other"]⟩ (by simp [parsed, OtlpBody.resources])
  exact absurd hother (by decide)

end Bounds

end Telemetry
end Api
end Nyuka
