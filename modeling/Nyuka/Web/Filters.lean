import Mathlib.Logic.Function.Basic
import Nyuka.Packaging.Paths
import Nyuka.Runtime.Filters
import Nyuka.Web.Settings

/-! A source's search filters in the client: the declaration, the state of the controls by filter
id, and the URL parameter it is kept in. The state is a plain object, so a property that was never
set may still be found on what the object inherits from. -/
namespace Nyuka.Web.Filters
open Nyuka.Runtime (FilterValue)

section Declaration

inductive Kind where
  | select (options values : List String)
  | multiSelect (options values : List String) (canExclude : Bool)
  | sort (options : List String) (canAscend : Bool)
  | text
  | check
  | unsupported (declaredType : String)
deriving DecidableEq, Repr

structure Filter where
  id : String
  title : String
  kind : Kind
deriving DecidableEq, Repr

/-- Reads one declared entry. -/
def toFilter (node : JsonValue) : Option Filter :=
  if isObject node then
    match asString (node.get "id") with
    | none => none
    | some id =>
      let declaredType := (asString (node.get "type")).getD ""
      let title := (asString (node.get "title")).getD id
      let options := asStrings (node.get "options")
      let ids := asStrings (node.get "ids")
      let values := if ids.length = options.length then ids else options
      let flag (field : String) := decide ((node.get field).bind JsonValue.asBool = some true)
      match declaredType with
      | "select" => some ⟨id, title, .select options values⟩
      | "multi-select" => some ⟨id, title, .multiSelect options values (flag "canExclude")⟩
      | "sort" => some ⟨id, title, .sort options (flag "canAscend")⟩
      | "text" => some ⟨id, title, .text⟩
      | "check" => some ⟨id, title, .check⟩
      | "" => none
      | _ => some ⟨id, title, .unsupported declaredType⟩
  else none

/-- Reads a source's declaration. -/
def parseFilters (declared : JsonValue) : List Filter :=
  (asArray (some declared)).filterMap toFilter

end Declaration

section Objects

/-- What a property can hold: a value read from JSON, or what the language provides under a name.
All that is provided is a function, but for `Object.prototype` under `__proto__`. -/
inductive Js where
  | json (value : JsonValue)
  | builtin (name : String)

/-- What `JSON.stringify` writes in an array for it. -/
def Js.toJson : Js → JsonValue
  | json value => value
  | builtin name => if name = "__proto__" then .object [] else .null

/-- The names of the properties of `Array.prototype`. -/
def arrayPrototype : List String :=
  ["at", "concat", "constructor", "copyWithin", "entries", "every", "fill", "filter", "find",
    "findIndex", "findLast", "findLastIndex", "flat", "flatMap", "forEach", "includes", "indexOf",
    "join", "keys", "lastIndexOf", "length", "map", "pop", "push", "reduce", "reduceRight",
    "reverse", "shift", "slice", "some", "sort", "splice", "toLocaleString", "toReversed",
    "toSorted", "toSpliced", "toString", "unshift", "values", "with"]

/-- A property of the value itself. -/
def ownProperty (value : JsonValue) (key : String) : Option JsonValue :=
  match value with
  | .array items =>
    if key = "length" then some (.number (toString items.length))
    else (items.zipIdx.find? fun item => toString item.2 = key).map Prod.fst
  | _ => value.get key

/-- The names of what the language lets a value inherit. -/
def provided : JsonValue → List String
  | .array _ => arrayPrototype ++ objectPrototype
  | _ => objectPrototype

/-- What an object without the property finds on its prototype, `Object.prototype` or a value that
was assigned to `__proto__`. -/
def inherited (proto : Option JsonValue) (key : String) : Option Js :=
  match proto with
  | none => if key ∈ objectPrototype then some (.builtin key) else none
  | some value =>
    match ownProperty value key with
    | some found => some (.json found)
    | none =>
      if key = "__proto__" then some (.json value)
      else if key ∈ provided value then some (.builtin key) else none

/-- An object that is written to by name: its own properties, and its prototype if it is not
`Object.prototype`. -/
structure FilterState where
  own : String → Option JsonValue
  proto : Option JsonValue

/-- Whether an object with that prototype would inherit `__proto__` as a value of its own. -/
def hasProto (value : JsonValue) : Bool := (ownProperty value "__proto__").isSome

namespace FilterState

def empty : FilterState := ⟨fun _ => none, none⟩

def get (state : FilterState) (key : String) : Option Js :=
  match state.own key with
  | some value => some (.json value)
  | none => inherited state.proto key

/-- An assignment makes an own property, unless it reaches the setter of `__proto__`. -/
def set (state : FilterState) (key : String) (value : JsonValue) : FilterState :=
  if key = "__proto__" ∧ state.own key = none ∧ state.proto.any hasProto = false then
    { state with proto := some value }
  else { state with own := Function.update state.own key (some value) }

def delete (state : FilterState) (key : String) : FilterState :=
  { state with own := Function.update state.own key none }

end FilterState

end Objects

section Values
-- `x > 0` of a `length` that a hand-written object has, if its conversion does not throw
variable (positive : JsonValue → Option Bool)

/-- `x.length > 0`, which throws if there is no `x`. -/
def longer : Option JsonValue → Option Bool
  | none | some .null => none
  | some (.bool _) | some (.number _) => some false
  | some (.string s) => some (s ≠ "")
  | some (.array items) => some (!items.isEmpty)
  | some (.object members) =>
    match (JsonValue.object members).get "length" with
    | none => some false
    | some length => positive length

/-- `x.value !== ''`, which throws if `x` is null. -/
def nonempty : JsonValue → Option Bool
  | .null => none
  | x => some ((x.get "value").bind JsonValue.asStr ≠ some "")

/-- Whether a value that was found is kept. `in` throws if it is no object. -/
def keepsJson (value : JsonValue) : Option Bool :=
  if isObject value then
    match value.get "MultiSelect", value.get "Text", value.get "Select" with
    | some chosen, _, _ => do
      if ← longer positive (chosen.get "included") then return true
      longer positive (chosen.get "excluded")
    | none, some text, _ => nonempty text
    | none, none, some select => nonempty select
    | none, none, none => some true
  else none

def keeps : Js → Option Bool
  | .json value => keepsJson positive value
  | .builtin _ => some true

def keepAll : List Js → Option (List Js)
  | [] => some []
  | value :: values => do
    let keep ← keeps positive value
    let kept ← keepAll values
    return if keep then value :: kept else kept

/-- The values to send, in declaration order, if nothing throws. -/
def toValues (filters : List Filter) (state : FilterState) : Option (List Js) :=
  keepAll positive (filters.filterMap fun filter => state.get filter.id)

end Values

section Parameter

/-- `Object.values(value)[0]` -/
def firstValue : JsonValue → Option JsonValue
  | .array items => items.head?
  | .object members => members.head?.map Prod.snd
  | _ => none

def filterId (value : JsonValue) : Option String := do
  let inner ← firstValue value
  if isObject inner then asString (inner.get "id") else none

def assign (state : FilterState) (value : JsonValue) : FilterState :=
  match filterId value with
  | some id => state.set id value
  | none => state

/-- Reads the state back out of a URL parameter. `parse` is `JSON.parse`, or nothing where it
throws: the members of an object are in the order of its properties. -/
def parseState (parse : String → Option JsonValue) (raw : Option String) : FilterState :=
  match raw with
  | none => .empty
  | some text =>
    if text = "" then .empty
    else match parse text with
      | some (.array values) => values.foldl assign .empty
      | _ => .empty

/-- The array that the values are written as. -/
def toArray (values : List Js) : JsonValue := .array (values.map Js.toJson)

end Parameter

section Controls

def textValue (id value : String) : JsonValue :=
  .object [("Text", .object [("id", .string id), ("value", .string value)])]

def sortValue (id : String) (index : JsonValue) (ascending : Bool) : JsonValue :=
  .object [("Sort", .object [("id", .string id), ("index", index), ("ascending", .bool ascending)])]

def checkValue (id : String) : JsonValue :=
  .object [("Check", .object [("id", .string id), ("value", .number "1")])]

def selectValue (id value : String) : JsonValue :=
  .object [("Select", .object [("id", .string id), ("value", .string value)])]

def strings (items : List String) : JsonValue := .array (items.map JsonValue.string)

def multiSelectValue (id : String) (included excluded : List String) : JsonValue :=
  .object [("MultiSelect", .object [("id", .string id), ("included", strings included),
    ("excluded", strings excluded)])]

/-- What `trim` takes away: white space and line ends of the language. -/
def isSpace (c : Char) : Bool := (Packaging.isWhitespace c && c.toNat ≠ 0x85) || c.toNat = 0xFEFF

def trim (text : String) : String := String.ofList (Text.trimMatches isSpace text.toList)

/-- What a reader does with a filter's control: leaves a text field, ticks a box, chooses in a list,
turns the order around or presses an option. -/
inductive Input where
  | typed (text : String)
  | ticked (checked : Bool)
  | chosen (value : String)
  | reversed
  | pressed (index : ℕ)

/-- `value && variant in value ? value.variant : undefined` -/
def variantOf (variant : String) : Option Js → Option JsonValue
  | some (.json value) => value.get variant
  | _ => none

/-- The value that an option stands for. -/
def sent (options values : List String) (index : ℕ) : Option String :=
  options[index]?.map fun option => values[index]?.getD option

/-- The lists of a multi-select after an option was pressed: out of both, then included, then
excluded where the source allows it, then out of both again. -/
def press (canExclude : Bool) (included excluded : List String) (option : String) :
    List String × List String :=
  if option ∈ included then
    (included.filter (· ≠ option), if canExclude then option :: excluded else excluded)
  else if option ∈ excluded then (included, excluded.filter (· ≠ option))
  else (option :: included, excluded)

/-- What a filter is set to on an input, from what it was set to; nothing inside where it is
cleared, and nothing at all where its control takes no such input. -/
def respond (filter : Filter) (current : Option Js) (input : Input) : Option (Option JsonValue) :=
  match filter.kind, input with
  | .text, .typed text =>
    let next := trim text
    some (if next = "" then none else some (textValue filter.id next))
  | .check, .ticked checked => some (if checked then some (checkValue filter.id) else none)
  | .select options values, .chosen value =>
    if value = "" then some none
    else if (List.range options.length).any fun i => sent options values i = some value then
      some (some (selectValue filter.id value))
    else none
  | .sort options _, .chosen value =>
    if value = "" then some none
    else
      let ascending := ((variantOf "Sort" current).bind (·.get "ascending")).bind JsonValue.asBool
      ((List.range options.length).find? fun i => toString i = value).map fun index =>
        some (sortValue filter.id (.number (toString index)) (ascending.getD false))
  | .sort _ canAscend, .reversed => do
    let sort ← variantOf "Sort" current
    let index ← sort.get "index"
    let ascending ← (sort.get "ascending").bind JsonValue.asBool
    if canAscend then return some (sortValue filter.id index (!ascending)) else none
  | .multiSelect options values canExclude, .pressed index => do
    let option ← sent options values index
    let chosen := variantOf "MultiSelect" current
    let (included, excluded) := press canExclude (asStrings (chosen.bind (·.get "included")))
      (asStrings (chosen.bind (·.get "excluded"))) option
    return some (multiSelectValue filter.id (values.filter (· ∈ included))
      (values.filter (· ∈ excluded)))
  | _, _ => none

/-- A copy of the own properties, with one of them set or deleted. -/
def FilterState.update (state : FilterState) (id : String) (value : Option JsonValue) :
    FilterState :=
  let next : FilterState := ⟨state.own, none⟩
  match value with
  | some value => next.set id value
  | none => next.delete id

/-- The JSON functions write a text for the values that reads back as they are. -/
def Returns (parse : String → Option JsonValue) (stringify : JsonValue → String)
    (values : List Js) : Prop :=
  stringify (toArray values) ≠ "" ∧ parse (stringify (toArray values)) = some (toArray values)

/-- The states that the controls build, one input after the other; in between, a state may be kept
in the URL and read from there. -/
inductive Built (positive : JsonValue → Option Bool) (parse : String → Option JsonValue)
    (stringify : JsonValue → String) (filters : List Filter) : FilterState → Prop
  | empty : Built positive parse stringify filters .empty
  | input {state : FilterState} {filter : Filter} {input : Input} {value : Option JsonValue} :
      Built positive parse stringify filters state → filter ∈ filters →
      respond filter (state.get filter.id) input = some value →
      Built positive parse stringify filters (state.update filter.id value)
  | reload {state : FilterState} {values : List Js} :
      Built positive parse stringify filters state →
      toValues positive filters state = some values → Returns parse stringify values →
      Built positive parse stringify filters (parseState parse (some (stringify (toArray values))))

end Controls

end Nyuka.Web.Filters
