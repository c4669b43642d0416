import Nyuka.Api.Telemetry
import Nyuka.Domain.Library

/-! The two encodings of a trace export request. A request is written as OTLP/JSON or as
OTLP/protobuf by its sender; here are the JSON a sender writes, what each decoder reads of what
it is sent, and where the two come to different results. -/
namespace Nyuka
namespace Api
namespace Otlp

mutual
/-- The value of an attribute, or that none of its cases is set. -/
inductive AnyValue where
  | unset
  | string (s : String)
  | bool (b : Bool)
  | int (i : Int64)
  | double (d : Binary64)
  | array (values : List AnyValue)
  | kvlist (members : List KeyValue)
  | bytes (bytes : Bytes)

inductive KeyValue where
  | mk (key : String) (value : Option AnyValue)
end

def KeyValue.key : KeyValue → String
  | mk key _ => key

def KeyValue.value : KeyValue → Option AnyValue
  | mk _ value => value

/-- Of events and links only what they nest is of interest: neither decoder keeps them. -/
structure Span where
  name : String
  traceId : Bytes
  spanId : Bytes
  startTimeUnixNano : UInt64 := 0
  endTimeUnixNano : UInt64 := 0
  attributes : List KeyValue := []
  events : List (List KeyValue) := []
  links : List (List KeyValue) := []

structure ScopeSpans where
  scope : Option (List KeyValue) := none
  spans : List Span

structure ResourceSpans where
  resource : Option (List KeyValue)
  scopeSpans : List ScopeSpans

/-- `ExportTraceServiceRequest` -/
structure Request where
  resourceSpans : List ResourceSpans

def AnyValue.asString : AnyValue → Option String
  | .string s => some s
  | _ => none

/-- What a request says it comes from. -/
def Request.service (request : Request) : String :=
  ((((request.resourceSpans.filterMap ResourceSpans.resource).flatten.find?
    fun kv => kv.key == "service.name").bind KeyValue.value).bind AnyValue.asString).getD ""

def Request.spans (request : Request) : List Span :=
  (request.resourceSpans.flatMap ResourceSpans.scopeSpans).flatMap ScopeSpans.spans

section Nesting

mutual
/-- How deep the messages of a value nest, its own counted. -/
def AnyValue.nesting : AnyValue → ℕ
  | .array values => 2 + anyNesting values
  | .kvlist members => 2 + keyNesting members
  | _ => 1

def anyNesting : List AnyValue → ℕ
  | [] => 0
  | v :: vs => max v.nesting (anyNesting vs)

def keyNesting : List KeyValue → ℕ
  | [] => 0
  | kv :: kvs => max kv.nesting (keyNesting kvs)

def KeyValue.nesting : KeyValue → ℕ
  | .mk _ none => 1
  | .mk _ (some v) => 1 + v.nesting
end

/-- The deepest of several messages. -/
def deepest (depths : List ℕ) : ℕ := depths.foldr max 0

def Span.nesting (span : Span) : ℕ :=
  1 + deepest (keyNesting span.attributes ::
    (span.events ++ span.links).map fun attributes => 1 + keyNesting attributes)

def ScopeSpans.nesting (ss : ScopeSpans) : ℕ :=
  1 + deepest ((ss.scope.elim 0 fun attributes => 1 + keyNesting attributes) ::
    ss.spans.map Span.nesting)

def ResourceSpans.nesting (rs : ResourceSpans) : ℕ :=
  1 + deepest ((rs.resource.elim 0 fun attributes => 1 + keyNesting attributes) ::
    rs.scopeSpans.map ScopeSpans.nesting)

/-- How deep the messages inside a request nest. -/
def Request.nesting (request : Request) : ℕ :=
  deepest (request.resourceSpans.map ResourceSpans.nesting)

end Nesting

section Writing

/-- What the JSON mapping leaves to the sender: whether members with their default value are
written, which number a finite double is written as, the case of the digits of an id and the
text of some bytes. -/
structure Sender where
  emitDefaults : Bool
  double : Binary64 → String
  hex : Bytes → String
  base64 : Bytes → String

variable (sender : Sender)

/-- The members of an object: those that have a value. -/
def membersOf (members : List (String × Option JsonValue)) : List (String × JsonValue) :=
  members.filterMap fun m => m.2.map fun v => (m.1, v)

def Sender.text (value : String) : Option JsonValue :=
  if value = "" ∧ sender.emitDefaults = false then none else some (.string value)

def Sender.list (items : List JsonValue) : Option JsonValue :=
  if items.isEmpty ∧ sender.emitDefaults = false then none else some (.array items)

/-- 64-bit integers are written as strings. -/
def Sender.time (value : UInt64) : Option JsonValue :=
  if value = 0 ∧ sender.emitDefaults = false then none else some (.string (toString value))

/-- Numbers that are not finite have names. -/
def Sender.number (d : Binary64) : JsonValue :=
  if d.isFinite then .number (sender.double d)
  else if d.isNan then .string "NaN"
  else if d.isNegative then .string "-Infinity"
  else .string "Infinity"

mutual
def AnyValue.toJson : AnyValue → JsonValue
  | .unset => .object []
  | .string s => .object [("stringValue", .string s)]
  | .bool b => .object [("boolValue", .bool b)]
  | .int i => .object [("intValue", .string (toString i))]
  | .double d => .object [("doubleValue", sender.number d)]
  | .array values =>
    .object [("arrayValue", .object (membersOf [("values", sender.list (anyJson values))]))]
  | .kvlist members =>
    .object [("kvlistValue", .object (membersOf [("values", sender.list (keyJson members))]))]
  | .bytes b => .object [("bytesValue", .string (sender.base64 b))]

def anyJson : List AnyValue → List JsonValue
  | [] => []
  | v :: vs => v.toJson :: anyJson vs

def keyJson : List KeyValue → List JsonValue
  | [] => []
  | kv :: kvs => kv.toJson :: keyJson kvs

def KeyValue.toJson : KeyValue → JsonValue
  | .mk key none => .object (membersOf [("key", sender.text key), ("value", none)])
  | .mk key (some v) => .object (membersOf [("key", sender.text key), ("value", some v.toJson)])
end

/-- Resources, scopes, events and links hold their attributes in one way. -/
def attributesJson (attributes : List KeyValue) : JsonValue :=
  .object (membersOf [("attributes", sender.list (keyJson sender attributes))])

def Span.toJson (span : Span) : JsonValue :=
  .object (membersOf [("traceId", sender.text (sender.hex span.traceId)),
    ("spanId", sender.text (sender.hex span.spanId)),
    ("name", sender.text span.name),
    ("startTimeUnixNano", sender.time span.startTimeUnixNano),
    ("endTimeUnixNano", sender.time span.endTimeUnixNano),
    ("attributes", sender.list (keyJson sender span.attributes)),
    ("events", sender.list (span.events.map (attributesJson sender))),
    ("links", sender.list (span.links.map (attributesJson sender)))])

def ScopeSpans.toJson (ss : ScopeSpans) : JsonValue :=
  .object (membersOf [("scope", ss.scope.map (attributesJson sender)),
    ("spans", sender.list (ss.spans.map (Span.toJson sender)))])

def ResourceSpans.toJson (rs : ResourceSpans) : JsonValue :=
  .object (membersOf [("resource", rs.resource.map (attributesJson sender)),
    ("scopeSpans", sender.list (rs.scopeSpans.map (ScopeSpans.toJson sender)))])

def Request.toJson (request : Request) : JsonValue :=
  .object (membersOf
    [("resourceSpans", sender.list (request.resourceSpans.map (ResourceSpans.toJson sender)))])

theorem keyJson_eq_map (kvs : List KeyValue) :
    keyJson sender kvs = kvs.map (KeyValue.toJson sender) := by
  induction kvs with
  | nil => rfl
  | cons kv kvs ih => rw [keyJson, ih, List.map_cons]

end Writing

end Otlp

namespace Telemetry
open Otlp (Sender)

/-- What the libraries do with the two encodings: `serde_json` parses a body, reads a number as
a double and a value as one of its own, and prints such a value; `prost` decodes a body. The
senders' halves are their inverses. -/
structure Codecs where
  writeJson : JsonValue → Bytes
  parseJson : Bytes → Except String JsonValue
  /-- What it says of a document of another shape. -/
  unexpected : JsonValue → String
  readDouble : String → Option Binary64
  readValue : JsonValue → Option JsonValue
  valueText : JsonValue → String
  encode : Otlp.Request → Bytes
  decode : Bytes → Except String Otlp.Request

section Reading
variable {α : Type}

/-- The member a field is read from, unless there are two. -/
def single : List (String × JsonValue) → Option (Option JsonValue)
  | [] => some none
  | [m] => some (some m.2)
  | _ => none

/-- Where a struct of `count` fields finds its field: in an object under any of its names, in
an array at its index. -/
def fieldOf (count : ℕ) (document : JsonValue) (index : ℕ) (names : List String) :
    Option (Option JsonValue) :=
  match document with
  | .object members => single (members.filter fun m => names.contains m.1)
  | .array items => if items.length ≤ count then some items[index]? else none
  | _ => none

/-- A field that may be missing. -/
def orDefault (default : α) (read : JsonValue → Option α) : Option JsonValue → Option α
  | none => some default
  | some value => read value

def field (count : ℕ) (document : JsonValue) (index : ℕ) (names : List String) (default : α)
    (read : JsonValue → Option α) : Option α :=
  (fieldOf count document index names).bind (orDefault default read)

def optional (read : JsonValue → Option α) : JsonValue → Option (Option α)
  | .null => some none
  | value => (read value).map some

def listOf (read : JsonValue → Option α) : JsonValue → Option (List α)
  | .array items => items.mapM read
  | _ => none

def asBool : JsonValue → Option Bool
  | .bool b => some b
  | _ => none

variable (codecs : Codecs)

def asDouble : JsonValue → Option Binary64
  | .number text => codecs.readDouble text
  | _ => none

def AnyValue.read (document : JsonValue) : Option AnyValue := do
  let stringValue ←
    field 4 document 0 ["string_value", "stringValue"] none (optional JsonValue.asStr)
  let intValue ← field 4 document 1 ["int_value", "intValue"] none (optional codecs.readValue)
  let doubleValue ←
    field 4 document 2 ["double_value", "doubleValue"] none (optional (asDouble codecs))
  let boolValue ← field 4 document 3 ["bool_value", "boolValue"] none (optional asBool)
  return { stringValue, intValue, doubleValue, boolValue }

def KeyValue.read (document : JsonValue) : Option KeyValue := do
  let key ← field 2 document 0 ["key"] "" JsonValue.asStr
  let value ← field 2 document 1 ["value"] none (optional (AnyValue.read codecs))
  return { key, value }

def OtlpSpan.read (document : JsonValue) : Option OtlpSpan := do
  let name ← field 6 document 0 ["name"] "" JsonValue.asStr
  let traceId ← field 6 document 1 ["trace_id", "traceId"] "" JsonValue.asStr
  let spanId ← field 6 document 2 ["span_id", "spanId"] "" JsonValue.asStr
  let startTimeUnixNano ← field 6 document 3 ["start_time_unix_nano", "startTimeUnixNano"] none
    (optional codecs.readValue)
  let endTimeUnixNano ← field 6 document 4 ["end_time_unix_nano", "endTimeUnixNano"] none
    (optional codecs.readValue)
  let attributes ← field 6 document 5 ["attributes"] [] (listOf (KeyValue.read codecs))
  return { name, traceId, spanId, startTimeUnixNano, endTimeUnixNano, attributes }

def ScopeSpans.read (document : JsonValue) : Option ScopeSpans := do
  let spans ← field 1 document 0 ["spans"] [] (listOf (OtlpSpan.read codecs))
  return { spans }

def OtlpResource.read (document : JsonValue) : Option OtlpResource := do
  let attributes ← field 1 document 0 ["attributes"] [] (listOf (KeyValue.read codecs))
  return { attributes }

def ResourceSpans.read (document : JsonValue) : Option ResourceSpans := do
  let resource ← field 2 document 0 ["resource"] none (optional (OtlpResource.read codecs))
  let scopeSpans ←
    field 2 document 1 ["scope_spans", "scopeSpans"] [] (listOf (ScopeSpans.read codecs))
  return { resource, scopeSpans }

def OtlpBody.read (document : JsonValue) : Option OtlpBody := do
  let resourceSpans ← field 1 document 0 ["resource_spans", "resourceSpans"] []
    (listOf (ResourceSpans.read codecs))
  return { resourceSpans }

/-- Parses and filters a batch. -/
def accept (body : Bytes) : Except Rejected Accepted :=
  match codecs.parseJson body with
  | .error e => .error (.malformed e)
  | .ok document =>
    match OtlpBody.read codecs document with
    | none => .error (.malformed (codecs.unexpected document))
    | some parsed => filter codecs.valueText parsed

end Reading

section Protobuf

def hex (bytes : Bytes) : String :=
  String.ofList (bytes.flatMap fun b => Text.hexDigits 2 b.toNat)

/-- Arrays, nested lists and bytes are dropped. -/
def convertValue : Otlp.AnyValue → Option AnyValue
  | .string s => some { stringValue := some s }
  | .bool b => some { boolValue := some b }
  | .int i => some { intValue := some (.number (toString i)) }
  | .double d => some { doubleValue := some d }
  | _ => none

def convertKv (kv : Otlp.KeyValue) : KeyValue where
  key := kv.key
  value := kv.value.bind convertValue

/-- Maps a request onto the shape the JSON decoder produces. -/
def fromProto (request : Otlp.Request) : OtlpBody where
  resourceSpans := request.resourceSpans.map fun rs => {
    resource := rs.resource.map fun attributes => ⟨attributes.map convertKv⟩
    scopeSpans := rs.scopeSpans.map fun ss => ⟨ss.spans.map fun span => {
      name := span.name
      traceId := hex span.traceId
      spanId := hex span.spanId
      startTimeUnixNano := none
      endTimeUnixNano := none
      attributes := span.attributes.map convertKv }⟩ }

/-- Decodes a protobuf batch and applies the same filtering. -/
def acceptProtobuf (codecs : Codecs) (body : Bytes) : Except Rejected Accepted :=
  match codecs.decode body with
  | .error e => .error (.malformed e)
  | .ok request => filter codecs.valueText (fromProto request)

end Protobuf

section Documented

/-- The libraries behave as they document for one request: its JSON is parsed as it was written,
a string is read as itself, values are printed as compact JSON, and messages are decoded up to
100 levels deep. -/
structure Codecs.Documented (codecs : Codecs) (sender : Sender) (request : Otlp.Request) :
    Prop where
  parse : codecs.parseJson (codecs.writeJson (request.toJson sender)) = .ok (request.toJson sender)
  value : ∀ s, codecs.readValue (.string s) = some (.string s)
  quoted : ∀ i : Int64, codecs.valueText (.string (toString i)) = "\"" ++ toString i ++ "\""
  plain : ∀ i : Int64, codecs.valueText (.number (toString i)) = toString i
  decode : request.nesting ≤ 100 → codecs.decode (codecs.encode request) = .ok request
  tooDeep : 100 < request.nesting → ∃ e, codecs.decode (codecs.encode request) = .error e

variable {sender : Sender} {codecs : Codecs} {α : Type}

/-- The field is found among the members of an object that have a value. -/
theorem field_members {names : List String} {ms : List (String × Option JsonValue)}
    {name : String} {value : Option JsonValue}
    (h : ms.filter (fun m => names.contains m.1) = [(name, value)]) (count index : ℕ)
    (default : α) (read : JsonValue → Option α) :
    field count (.object (Otlp.membersOf ms)) index names default read =
      orDefault default read value := by
  have hfilter : (Otlp.membersOf ms).filter (fun m => names.contains m.1) =
      Otlp.membersOf [(name, value)] := by
    rw [← h]
    clear h
    unfold Otlp.membersOf
    induction ms with
    | nil => rfl
    | cons m ms ih =>
      obtain ⟨n, v⟩ := m
      by_cases hn : names.contains n <;> cases v <;> simp_all
  unfold field fieldOf
  simp only [hfilter]
  cases value <;> rfl

@[simp] theorem orDefault_text (value : String) :
    orDefault "" JsonValue.asStr (sender.text value) = some value := by
  unfold Sender.text
  split
  · next h => rw [h.1]; rfl
  · rfl

theorem orDefault_time (hvalue : ∀ s, codecs.readValue (.string s) = some (.string s))
    (time : UInt64) :
    orDefault none (optional codecs.readValue) (sender.time time) = some (sender.time time) := by
  unfold Sender.time
  split
  · rfl
  · simp [orDefault, optional, hvalue]

/-- A list is read when all its members are. -/
theorem read_list {β : Type} {read : JsonValue → Option β} {write : α → JsonValue} {ok : α → Bool}
    {g : α → β} (h : ∀ a, read (write a) = if ok a then some (g a) else none) (l : List α) :
    orDefault [] (listOf read) (sender.list (l.map write)) =
      if l.all ok then some (l.map g) else none := by
  have hread : (l.map write).mapM read = if l.all ok then some (l.map g) else none := by
    induction l with
    | nil => rfl
    | cons a l ih =>
      rw [List.map_cons, List.mapM_cons, h a, ih]
      cases ha : ok a <;> cases hl : l.all ok <;> simp [ha, hl]
  rw [← hread]
  unfold Sender.list
  split
  · next hempty =>
    rw [List.isEmpty_iff.mp hempty.1]
    rfl
  · rfl

end Documented

section Decoding
variable (codecs : Codecs) (sender : Sender)

/-- The JSON decoder reads the attribute: a double has to be a number in its range. -/
def readable (kv : Otlp.KeyValue) : Bool :=
  match kv.value with
  | some (.double d) => d.isFinite && (codecs.readDouble (sender.double d)).isSome
  | _ => true

/-- The double the JSON decoder reads where one was sent. -/
def reread (d : Binary64) : Binary64 := (codecs.readDouble (sender.double d)).getD d

/-- The value the JSON decoder reads where one was sent. -/
def jsonValue : Otlp.AnyValue → AnyValue
  | .string s => { stringValue := some s }
  | .bool b => { boolValue := some b }
  | .int i => { intValue := some (.string (toString i)) }
  | .double d => { doubleValue := some (reread codecs sender d) }
  | _ => {}

def jsonKv (kv : Otlp.KeyValue) : KeyValue where
  key := kv.key
  value := kv.value.map (jsonValue codecs sender)

def jsonSpan (span : Otlp.Span) : OtlpSpan where
  name := span.name
  traceId := sender.hex span.traceId
  spanId := sender.hex span.spanId
  startTimeUnixNano := sender.time span.startTimeUnixNano
  endTimeUnixNano := sender.time span.endTimeUnixNano
  attributes := span.attributes.map (jsonKv codecs sender)

def jsonResource (rs : Otlp.ResourceSpans) : ResourceSpans where
  resource := rs.resource.map fun attributes => ⟨attributes.map (jsonKv codecs sender)⟩
  scopeSpans := rs.scopeSpans.map fun ss => ⟨ss.spans.map (jsonSpan codecs sender)⟩

/-- The batch the JSON decoder reads where a request was sent. -/
def fromJson (request : Otlp.Request) : OtlpBody where
  resourceSpans := request.resourceSpans.map (jsonResource codecs sender)

def readableSpan (span : Otlp.Span) : Bool := span.attributes.all (readable codecs sender)

def readableResource (rs : Otlp.ResourceSpans) : Bool :=
  (rs.resource.all fun attributes => attributes.all (readable codecs sender)) &&
    rs.scopeSpans.all fun ss => ss.spans.all (readableSpan codecs sender)

/-- Every attribute of a resource or of a span is one the JSON decoder reads. -/
def readableJson (request : Otlp.Request) : Bool :=
  request.resourceSpans.all (readableResource codecs sender)

variable {codecs sender}

private theorem asDouble_number (d : Binary64) :
    optional (asDouble codecs) (sender.number d) =
      if d.isFinite && (codecs.readDouble (sender.double d)).isSome then
        some (some (reread codecs sender d))
      else none := by
  unfold Sender.number reread
  by_cases hfin : d.isFinite
  · cases hread : codecs.readDouble (sender.double d) <;>
      simp [hfin, optional, asDouble, hread]
  · by_cases hnan : d.isNan
    · simp [hfin, hnan, optional, asDouble]
    · cases d.isNegative <;> simp [hfin, hnan, optional, asDouble]

theorem read_anyValue (hvalue : ∀ s, codecs.readValue (.string s) = some (.string s))
    (v : Otlp.AnyValue) :
    AnyValue.read codecs (v.toJson sender) =
      if readable codecs sender (.mk "" (some v)) then some (jsonValue codecs sender v)
      else none := by
  cases v with
  | double d =>
    have hread := @asDouble_number codecs sender d
    cases hok : (d.isFinite && (codecs.readDouble (sender.double d)).isSome) <;>
      simp [hok] at hread <;>
      simp [AnyValue.read, Otlp.AnyValue.toJson, readable, jsonValue, field, fieldOf, orDefault,
        single, Otlp.KeyValue.value, hread, hok]
  | _ =>
    simp [AnyValue.read, Otlp.AnyValue.toJson, readable, jsonValue, field, fieldOf, orDefault,
      optional, asBool, JsonValue.asStr, single, Otlp.KeyValue.value, hvalue]

@[simp] theorem toJson_ne_null (v : Otlp.AnyValue) : v.toJson sender ≠ .null := by
  cases v <;> simp [Otlp.AnyValue.toJson]

theorem optional_of_ne_null {α : Type} (read : JsonValue → Option α) {document : JsonValue}
    (h : document ≠ .null) : optional read document = (read document).map some := by
  cases document with
  | null => exact absurd rfl h
  | _ => rfl

private theorem read_keyValue (hvalue : ∀ s, codecs.readValue (.string s) = some (.string s))
    (kv : Otlp.KeyValue) :
    KeyValue.read codecs (kv.toJson sender) =
      if readable codecs sender kv then some (jsonKv codecs sender kv) else none := by
  obtain ⟨key, value⟩ := kv
  cases value with
  | none =>
    rw [Otlp.KeyValue.toJson, KeyValue.read, field_members (by rfl), field_members (by rfl),
      orDefault_text]
    rfl
  | some v =>
    rw [Otlp.KeyValue.toJson, KeyValue.read, field_members (by rfl), field_members (by rfl),
      orDefault_text]
    simp only [orDefault, optional_of_ne_null _ (toJson_ne_null v), read_anyValue hvalue]
    by_cases hok : readable codecs sender (.mk "" (some v))
    · have hok' : readable codecs sender (.mk key (some v)) = true := hok
      simp [hok, hok', jsonKv, Otlp.KeyValue.key, Otlp.KeyValue.value]
    · have hok' : ¬ readable codecs sender (.mk key (some v)) = true := hok
      simp [hok, hok']

theorem read_attributes (hvalue : ∀ s, codecs.readValue (.string s) = some (.string s))
    (kvs : List Otlp.KeyValue) :
    orDefault [] (listOf (KeyValue.read codecs)) (sender.list (Otlp.keyJson sender kvs)) =
      if kvs.all (readable codecs sender) then some (kvs.map (jsonKv codecs sender)) else none := by
  rw [Otlp.keyJson_eq_map]
  exact read_list (read_keyValue hvalue) kvs

private theorem read_span (hvalue : ∀ s, codecs.readValue (.string s) = some (.string s))
    (span : Otlp.Span) :
    OtlpSpan.read codecs (span.toJson sender) =
      if readableSpan codecs sender span then some (jsonSpan codecs sender span) else none := by
  rw [Otlp.Span.toJson, OtlpSpan.read, field_members (by rfl), field_members (by rfl),
    field_members (by rfl), field_members (by rfl), field_members (by rfl),
    field_members (by rfl), orDefault_text, orDefault_text, orDefault_text,
    orDefault_time hvalue, orDefault_time hvalue, read_attributes hvalue]
  unfold readableSpan
  cases span.attributes.all (readable codecs sender) <;> rfl

theorem read_scopeSpans (hvalue : ∀ s, codecs.readValue (.string s) = some (.string s))
    (ss : Otlp.ScopeSpans) :
    ScopeSpans.read codecs (ss.toJson sender) =
      if ss.spans.all (readableSpan codecs sender) then
        some ⟨ss.spans.map (jsonSpan codecs sender)⟩
      else none := by
  rw [Otlp.ScopeSpans.toJson, ScopeSpans.read, field_members (by rfl),
    read_list (read_span hvalue)]
  cases ss.spans.all (readableSpan codecs sender) <;> rfl

private theorem read_resource (hvalue : ∀ s, codecs.readValue (.string s) = some (.string s))
    (attributes : List Otlp.KeyValue) :
    OtlpResource.read codecs (Otlp.attributesJson sender attributes) =
      if attributes.all (readable codecs sender) then
        some ⟨attributes.map (jsonKv codecs sender)⟩
      else none := by
  rw [Otlp.attributesJson, OtlpResource.read, field_members (by rfl), read_attributes hvalue]
  cases attributes.all (readable codecs sender) <;> rfl

private theorem read_resourceSpans (hvalue : ∀ s, codecs.readValue (.string s) = some (.string s))
    (rs : Otlp.ResourceSpans) :
    ResourceSpans.read codecs (rs.toJson sender) =
      if readableResource codecs sender rs then some (jsonResource codecs sender rs) else none := by
  rw [Otlp.ResourceSpans.toJson, ResourceSpans.read, field_members (by rfl),
    field_members (by rfl), read_list (read_scopeSpans hvalue)]
  unfold readableResource jsonResource
  cases rs.resource with
  | none =>
    cases rs.scopeSpans.all fun ss => ss.spans.all (readableSpan codecs sender) <;> rfl
  | some attributes =>
    have hread := @read_resource codecs sender hvalue attributes
    have hobject : Otlp.attributesJson sender attributes ≠ .null := by simp [Otlp.attributesJson]
    simp only [Option.map_some, Option.all_some, orDefault, optional_of_ne_null _ hobject, hread]
    cases attributes.all (readable codecs sender) <;>
      cases rs.scopeSpans.all fun ss => ss.spans.all (readableSpan codecs sender) <;> rfl

theorem read_body (hvalue : ∀ s, codecs.readValue (.string s) = some (.string s))
    (request : Otlp.Request) :
    OtlpBody.read codecs (request.toJson sender) =
      if readableJson codecs sender request then some (fromJson codecs sender request)
      else none := by
  rw [Otlp.Request.toJson, OtlpBody.read, field_members (by rfl),
    read_list (read_resourceSpans hvalue)]
  unfold readableJson
  cases request.resourceSpans.all (readableResource codecs sender) <;> rfl

end Decoding

section Agreement
variable {codecs : Codecs} {sender : Sender}

/-- Both decoders find the claim of the request. -/
theorem service_of_attributes {body : OtlpBody} {request : Otlp.Request}
    (kvOf : Otlp.KeyValue → KeyValue) (hkey : ∀ kv, (kvOf kv).key = kv.key)
    (hvalue : ∀ kv, (kvOf kv).value.bind AnyValue.stringValue =
      kv.value.bind Otlp.AnyValue.asString)
    (hbody : (body.resourceSpans.filterMap ResourceSpans.resource).flatMap OtlpResource.attributes =
      (request.resourceSpans.filterMap Otlp.ResourceSpans.resource).flatten.map kvOf) :
    body.service = request.service := by
  have hpred : (fun kv => kv.key == "service.name") ∘ kvOf = fun kv => kv.key == "service.name" :=
    funext fun kv => by simp only [Function.comp_apply, hkey]
  simp only [OtlpBody.service, Otlp.Request.service, hbody, List.find?_map, hpred]
  cases List.find? (fun kv => kv.key == "service.name")
    (request.resourceSpans.filterMap Otlp.ResourceSpans.resource).flatten with
  | none => rfl
  | some kv => exact congrArg (Option.getD · "") (hvalue kv)

def protoSpan (span : Otlp.Span) : OtlpSpan where
  name := span.name
  traceId := hex span.traceId
  spanId := hex span.spanId
  attributes := span.attributes.map convertKv

@[simp] theorem spans_fromProto (request : Otlp.Request) :
    (fromProto request).spans = request.spans.map protoSpan := by
  simp [OtlpBody.spans, fromProto, Otlp.Request.spans, List.flatMap_map, List.map_flatMap,
    List.flatMap_assoc]
  rfl

@[simp] theorem spans_fromJson (request : Otlp.Request) :
    (fromJson codecs sender request).spans = request.spans.map (jsonSpan codecs sender) := by
  simp [OtlpBody.spans, fromJson, jsonResource, Otlp.Request.spans, List.flatMap_map,
    List.map_flatMap, List.flatMap_assoc]

@[simp] theorem service_fromProto (request : Otlp.Request) :
    (fromProto request).service = request.service := by
  refine service_of_attributes convertKv (fun _ => rfl) (fun kv => ?_) ?_
  · cases hkv : kv.value with
    | none => simp [convertKv, hkv]
    | some v => cases v <;> simp [convertKv, hkv, convertValue, Otlp.AnyValue.asString]
  · simp [fromProto, List.filterMap_map, List.map_flatten, List.flatMap_def, List.map_filterMap,
      Function.comp_def]

@[simp] theorem service_fromJson (request : Otlp.Request) :
    (fromJson codecs sender request).service = request.service := by
  refine service_of_attributes (jsonKv codecs sender) (fun _ => rfl) (fun kv => ?_) ?_
  · cases hkv : kv.value with
    | none => simp [jsonKv, hkv]
    | some v => cases v <;> simp [jsonKv, hkv, jsonValue, Otlp.AnyValue.asString]
  · simp [fromJson, jsonResource, List.filterMap_map, List.map_flatten, List.flatMap_def,
      List.map_filterMap, Function.comp_def]

/-- A value of a kind that is logged. -/
def isScalar : Otlp.AnyValue → Bool
  | .string _ | .bool _ | .int _ | .double _ => true
  | _ => false

/-- An attribute that is kept where there is room for it. -/
def keepable (kv : Otlp.KeyValue) : Bool := isAllowedAttribute kv.key && kv.value.any isScalar

/-- The attributes of a span that are kept. -/
def keptOf (span : Otlp.Span) : List Otlp.KeyValue :=
  (span.attributes.filter keepable).take maxAttributes

/-- What the value of an attribute is logged as. -/
def logged (text : JsonValue → String) (kv : KeyValue) : String × String :=
  (truncate kv.key 128, (kv.value.bind (AnyValue.render text)).getD "")

/-- A conversion that keeps keys and turns exactly the scalars into values that are logged keeps
the attributes that are `keepable`. -/
theorem accepted_attributes {text : JsonValue → String} (kvOf : Otlp.KeyValue → KeyValue)
    (hkey : ∀ kv, (kvOf kv).key = kv.key)
    (hvalue : ∀ kv, ((kvOf kv).value.bind (AnyValue.render text)).isSome = kv.value.any isScalar)
    (span : Otlp.Span) :
    ((span.attributes.map kvOf).filterMap (keptAttribute text)).take maxAttributes =
      (keptOf span).map fun kv => logged text (kvOf kv) := by
  have hkept : ∀ kv, keptAttribute text (kvOf kv) =
      if keepable kv then some (logged text (kvOf kv)) else none := by
    intro kv
    have hsome := hvalue kv
    unfold keptAttribute keepable logged
    rw [hkey, ← hsome]
    cases isAllowedAttribute kv.key <;>
      cases (kvOf kv).value.bind (AnyValue.render text) <;> rfl
  rw [List.filterMap_map, keptOf, List.map_take]
  congr 1
  induction span.attributes with
  | nil => rfl
  | cons kv kvs ih =>
    rw [List.filterMap_cons, Function.comp_apply, hkept, List.filter_cons]
    cases keepable kv <;> simpa using ih

theorem isSome_render_protoKv {text : JsonValue → String} (kv : Otlp.KeyValue) :
    ((convertKv kv).value.bind (AnyValue.render text)).isSome = kv.value.any isScalar := by
  cases hkv : kv.value with
  | none => simp [convertKv, hkv]
  | some v => cases v <;> simp [convertKv, hkv, convertValue, isScalar, AnyValue.render]

theorem isSome_render_jsonKv {text : JsonValue → String} (kv : Otlp.KeyValue) :
    ((jsonKv codecs sender kv).value.bind (AnyValue.render text)).isSome =
      kv.value.any isScalar := by
  cases hkv : kv.value with
  | none => simp [jsonKv, hkv]
  | some v => cases v <;> simp [jsonKv, hkv, jsonValue, isScalar, AnyValue.render]

/-- The text of a 64-bit integer has no quotes to trim. -/
theorem trim_int (i : Int64) :
    Text.trimMatches (· == '"') ("\"" ++ toString i ++ "\"").toList =
      Text.trimMatches (· == '"') (toString i).toList := by
  have hplain : ∀ c ∈ (toString i).toList, (c == '"') = false := by
    intro c hc
    have hnot : '"' ∉ (toString i).toList := Text.plain_int i.toInt rfl (by decide)
    simp only [beq_eq_false_iff_ne]
    rintro rfl
    exact hnot hc
  have hquoted : ("\"" ++ toString i ++ "\"").toList = '"' :: ((toString i).toList ++ ['"']) := by
    simp
  rw [hquoted, Text.trimMatches_quoted rfl hplain, Text.trimMatches_of_none hplain]

/-- The two decoders log an attribute alike, doubles where they are read back as they were. -/
theorem logged_eq_iff {request : Otlp.Request} (hdoc : codecs.Documented sender request)
    (kv : Otlp.KeyValue) :
    logged codecs.valueText (jsonKv codecs sender kv) = logged codecs.valueText (convertKv kv) ↔
      ∀ d, kv.value = some (.double d) → (reread codecs sender d).display = d.display := by
  cases hkv : kv.value with
  | none => simp [logged, jsonKv, convertKv, hkv]
  | some v =>
    cases v with
    | double d =>
      simp [logged, jsonKv, convertKv, hkv, jsonValue, convertValue, AnyValue.render,
        String.ofList_inj]
    | int i =>
      simp [logged, jsonKv, convertKv, hkv, jsonValue, convertValue, AnyValue.render, hdoc.plain,
        hdoc.quoted, ← trim_int]
    | _ => simp [logged, jsonKv, convertKv, hkv, jsonValue, convertValue, AnyValue.render]

/-- The JSON decoder reads a span as it was sent: the sender spells its ids in lower case, and
the doubles that are logged are read back as they were. -/
def SameSpan (codecs : Codecs) (sender : Sender) (span : Otlp.Span) : Prop :=
  truncate (sender.hex span.traceId) 64 = truncate (hex span.traceId) 64 ∧
  truncate (sender.hex span.spanId) 64 = truncate (hex span.spanId) 64 ∧
  ∀ kv ∈ keptOf span, ∀ d, kv.value = some (.double d) →
    (reread codecs sender d).display = d.display

theorem accepted_eq_iff {request : Otlp.Request} (hdoc : codecs.Documented sender request)
    (span : Otlp.Span) :
    (jsonSpan codecs sender span).accepted codecs.valueText =
        (protoSpan span).accepted codecs.valueText ↔ SameSpan codecs sender span := by
  have hjson := @accepted_attributes codecs.valueText (jsonKv codecs sender) (fun _ => rfl)
    (fun kv => isSome_render_jsonKv kv) span
  have hproto := @accepted_attributes codecs.valueText convertKv (fun _ => rfl)
    (fun kv => isSome_render_protoKv kv) span
  simp only [OtlpSpan.accepted, AcceptedSpan.mk.injEq, jsonSpan, protoSpan, hjson, hproto, true_and,
    List.map_inj_left, logged_eq_iff hdoc, SameSpan]

/-- The batch is one the filter accepts. -/
def Admitted (request : Otlp.Request) : Prop :=
  request.service = expectedService ∧ request.spans.length ≤ maxSpans

/-- What the filter makes of a body that stands for a request. -/
theorem filter_eq {text : JsonValue → String} {body : OtlpBody} {request : Otlp.Request}
    {spanOf : Otlp.Span → OtlpSpan} (hservice : body.service = request.service)
    (hspans : body.spans = request.spans.map spanOf)
    (hlength : ∀ span, (spanOf span).attributes.length = span.attributes.length)
    (hadmitted : Admitted request) :
    ∃ accepted, (filter text body).toOption = some accepted ∧
      accepted.spans = request.spans.map (fun span => (spanOf span).accepted text) ∧
      accepted.attributeCount + accepted.droppedAttributes =
        (request.spans.map fun span => span.attributes.length).sum := by
  have htotal : body.total ≤ maxSpans := by
    rw [total_eq_length, hspans, List.length_map]
    exact hadmitted.2
  have hfold := @foldl_keepSpan text body.spans ⟨[], 0⟩
  have hcount := @foldl_keepSpan_count text body.spans ⟨[], 0⟩
  refine ⟨body.spans.foldl (keepSpan text) ⟨[], 0⟩, ?_, ?_, ?_⟩
  · rw [filter_of_admitted (hservice.trans hadmitted.1) htotal]
    rfl
  · rw [hfold, hspans, List.nil_append, List.map_map]
    rfl
  · simpa [hspans, Accepted.attributeCount, Function.comp_def, hlength] using hcount

theorem filter_refuses {text : JsonValue → String} {body : OtlpBody} {request : Otlp.Request}
    {spanOf : Otlp.Span → OtlpSpan} (hservice : body.service = request.service)
    (hspans : body.spans = request.spans.map spanOf) (hadmitted : ¬ Admitted request) :
    (filter text body).toOption = none := by
  cases hresult : filter text body with
  | error e => rfl
  | ok accepted =>
    obtain ⟨hserviceOk, htotal, -⟩ := filter_eq_ok hresult
    refine absurd ⟨hservice.symm.trans hserviceOk, ?_⟩ hadmitted
    rwa [total_eq_length, hspans, List.length_map] at htotal

/-- The same spans with as many attributes sent are the same batch. -/
theorem accepted_eq_of_spans {a b : Accepted} (hspans : a.spans = b.spans)
    (hcount : a.attributeCount + a.droppedAttributes = b.attributeCount + b.droppedAttributes) :
    a = b := by
  obtain ⟨spans, dropped⟩ := a
  obtain ⟨spans', dropped'⟩ := b
  obtain rfl : spans = spans' := hspans
  have hdropped : dropped = dropped' := Nat.add_left_cancel hcount
  rw [hdropped]

theorem filter_agree_iff {request : Otlp.Request} (hdoc : codecs.Documented sender request)
    (hadmitted : Admitted request) :
    (filter codecs.valueText (fromJson codecs sender request)).toOption =
        (filter codecs.valueText (fromProto request)).toOption ↔
      ∀ span ∈ request.spans, SameSpan codecs sender span := by
  obtain ⟨a, ha, hspansA, hcountA⟩ := @filter_eq codecs.valueText _ request _
    (@service_fromJson codecs sender request) (spans_fromJson request)
    (fun span => by simp [jsonSpan]) hadmitted
  obtain ⟨b, hb, hspansB, hcountB⟩ := @filter_eq codecs.valueText _ request _
    (service_fromProto request) (spans_fromProto request)
    (fun span => by simp [protoSpan]) hadmitted
  have hspans : a.spans = b.spans ↔ ∀ span ∈ request.spans, SameSpan codecs sender span := by
    rw [hspansA, hspansB, List.map_inj_left]
    exact forall₂_congr fun span _ => accepted_eq_iff hdoc span
  rw [ha, hb, Option.some.injEq, ← hspans]
  exact ⟨congrArg Accepted.spans, fun h => accepted_eq_of_spans h (hcountA.trans hcountB.symm)⟩

theorem accept_toOption {request : Otlp.Request} (hdoc : codecs.Documented sender request) :
    (accept codecs (codecs.writeJson (request.toJson sender))).toOption =
      if readableJson codecs sender request then
        (filter codecs.valueText (fromJson codecs sender request)).toOption
      else none := by
  unfold accept
  rw [hdoc.parse]
  dsimp only
  rw [read_body hdoc.value]
  cases readableJson codecs sender request <;> rfl

theorem acceptProtobuf_toOption {request : Otlp.Request}
    (hdoc : codecs.Documented sender request) :
    (acceptProtobuf codecs (codecs.encode request)).toOption =
      if request.nesting ≤ 100 then (filter codecs.valueText (fromProto request)).toOption
      else none := by
  unfold acceptProtobuf
  by_cases hdepth : request.nesting ≤ 100
  · rw [if_pos hdepth, hdoc.decode hdepth]
  · obtain ⟨e, he⟩ := hdoc.tooDeep (not_le.mp hdepth)
    rw [if_neg hdepth, he]
    rfl

/-- Where the two encodings of a request that is admitted come to the same result: both decoders
read it, and read the same, or neither does. -/
def Agreeing (codecs : Codecs) (sender : Sender) (request : Otlp.Request) : Prop :=
  Admitted request →
    (readableJson codecs sender request = true ↔ request.nesting ≤ 100) ∧
    (request.nesting ≤ 100 → ∀ span ∈ request.spans, SameSpan codecs sender span)

/-- A request is decided alike in both encodings exactly when they are `Agreeing` on it. -/
theorem accept_eq_acceptProtobuf_iff (codecs : Codecs) (sender : Sender) (request : Otlp.Request)
    (hdoc : codecs.Documented sender request) :
    (accept codecs (codecs.writeJson (request.toJson sender))).toOption =
        (acceptProtobuf codecs (codecs.encode request)).toOption ↔
      Agreeing codecs sender request := by
  rw [accept_toOption hdoc, acceptProtobuf_toOption hdoc]
  by_cases hadmitted : Admitted request
  · obtain ⟨a, ha, -⟩ := @filter_eq codecs.valueText _ request _
      (@service_fromJson codecs sender request) (spans_fromJson request)
      (fun span => by simp [jsonSpan]) hadmitted
    obtain ⟨b, hb, -⟩ := @filter_eq codecs.valueText _ request _
      (service_fromProto request) (spans_fromProto request)
      (fun span => by simp [protoSpan]) hadmitted
    have hagree := filter_agree_iff hdoc hadmitted
    by_cases hjson : readableJson codecs sender request = true <;>
      by_cases hproto : request.nesting ≤ 100
    · simp only [Agreeing, hadmitted, hjson, hproto, if_true, true_implies, true_and]
      exact hagree
    · simp [Agreeing, hadmitted, hjson, hproto, ha]
    · simp [Agreeing, hadmitted, hjson, hproto, hb]
    · simp [Agreeing, hjson, hproto]
  · have hjson := @filter_refuses codecs.valueText _ request _
      (@service_fromJson codecs sender request) (spans_fromJson request) hadmitted
    have hproto := @filter_refuses codecs.valueText _ request _
      (service_fromProto request) (spans_fromProto request) hadmitted
    simp [Agreeing, hadmitted, hjson, hproto]

/-- A span whose duration is not a number. -/
def unknownDuration : Otlp.Request :=
  ⟨[⟨some [.mk "service.name" (some (.string "manga-web"))], [⟨none, [{
    name := "x"
    traceId := []
    spanId := []
    attributes := [.mk "http.time" (some (.double 0x7FF8000000000000))] }]⟩]⟩]⟩

def unknownDurationJson : String :=
  "\x7b\"resourceSpans\":[\x7b\"resource\":\x7b\"attributes\":[\x7b\"key\":\"service.name\"," ++
  "\"value\":\x7b\"stringValue\":\"manga-web\"\x7d\x7d]\x7d,\"scopeSpans\":[\x7b\"spans\":" ++
  "[\x7b\"name\":\"x\",\"attributes\":[\x7b\"key\":\"http.time\",\"value\":" ++
  "\x7b\"doubleValue\":\"NaN\"\x7d\x7d]\x7d]\x7d]\x7d]\x7d"

def unknownDurationProto : Bytes :=
  [10, 62, 10, 29, 10, 27, 10, 12, 115, 101, 114, 118, 105, 99, 101, 46, 110, 97, 109, 101, 18, 11,
    10, 9, 109, 97, 110, 103, 97, 45, 119, 101, 98, 18, 29, 18, 27, 42, 1, 120, 74, 22, 10, 9, 104,
    116, 116, 112, 46, 116, 105, 109, 101, 18, 9, 33, 0, 0, 0, 0, 0, 0, 248, 127]

def plainSender : Sender where
  emitDefaults := false
  double d := String.ofList d.display
  hex := hex
  base64 _ := ""

/-- The libraries, as far as that request needs them. -/
def durationCodecs : Codecs where
  writeJson _ := unknownDurationJson.toUTF8.data.toList
  parseJson body :=
    if body = unknownDurationJson.toUTF8.data.toList then .ok (unknownDuration.toJson plainSender)
    else .error "expected value at line 1 column 1"
  unexpected _ := "invalid type: string \"NaN\", expected f64"
  readDouble _ := none
  readValue := some
  valueText
    | .string s => "\"" ++ s ++ "\""
    | .number text => text
    | _ => "null"
  encode _ := unknownDurationProto
  decode body :=
    if body = unknownDurationProto then .ok unknownDuration else .error "invalid tag value: 0"

theorem durationCodecs_documented : durationCodecs.Documented plainSender unknownDuration where
  parse := by simp only [durationCodecs, if_true]
  value _ := rfl
  quoted _ := rfl
  plain _ := rfl
  decode _ := by simp only [durationCodecs, if_true]
  tooDeep h := absurd h (by decide)

/-- What is accepted as protobuf can be refused as JSON. -/
theorem accept_ne_acceptProtobuf :
    ¬ ∀ codecs sender request, Codecs.Documented codecs sender request →
    (accept codecs (codecs.writeJson (request.toJson sender))).toOption =
      (acceptProtobuf codecs (codecs.encode request)).toOption := by
  intro h
  have hsame := h durationCodecs plainSender unknownDuration durationCodecs_documented
  rw [accept_toOption durationCodecs_documented,
    acceptProtobuf_toOption durationCodecs_documented] at hsame
  revert hsame
  decide

theorem duration_agree_iff :
    (accept durationCodecs
        (durationCodecs.writeJson (unknownDuration.toJson plainSender))).toOption =
        (acceptProtobuf durationCodecs (durationCodecs.encode unknownDuration)).toOption ↔
      Agreeing durationCodecs plainSender unknownDuration :=
  accept_eq_acceptProtobuf_iff durationCodecs plainSender unknownDuration durationCodecs_documented

end Agreement

end Telemetry
end Api
end Nyuka
