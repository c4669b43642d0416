import Nyuka.Web.RoundTrips

/-! A source's settings declaration as the client reads it, beside the defaults that the server
seeds from it. Both walk the same document of a third party. -/
namespace Nyuka.Web
open Postcard Nyuka.Runtime

/-- What a name looks up in an object: a value type, or what every object inherits. -/
inductive Property where
  | own (type : ValueType)
  | inherited (name : String)
deriving DecidableEq, Repr

/-- A control this build can read and write. -/
structure EditableSetting where
  kind : String
  key : String
  title : String
  options : List String
  values : List String
  valueType : Property
deriving DecidableEq, Repr

inductive Setting where
  | editable (s : EditableSetting)
  | unsupported (declaredType title : String)
deriving DecidableEq, Repr

structure SettingGroup where
  title : Option String
  settings : List Setting
deriving DecidableEq, Repr

/-- `VALUE_TYPES`, the properties of its own. -/
def valueTypes : List (String × ValueType) :=
  [("switch", .bool), ("text", .string), ("select", .string), ("segment", .string),
    ("multi-select", .stringList)]

/-- The names of the properties of `Object.prototype`. -/
def objectPrototype : List String :=
  ["constructor", "hasOwnProperty", "isPrototypeOf", "propertyIsEnumerable", "toLocaleString",
    "toString", "valueOf", "__defineGetter__", "__defineSetter__", "__lookupGetter__",
    "__lookupSetter__", "__proto__"]

/-- `VALUE_TYPES[name]`, if `name in VALUE_TYPES`. -/
def lookUp (name : String) : Option Property :=
  match valueTypes.lookup name with
  | some type => some (.own type)
  | none => if name ∈ objectPrototype then some (.inherited name) else none

def asString (value : Option JsonValue) : Option String := value.bind JsonValue.asStr

def asArray (value : Option JsonValue) : List JsonValue := (value.bind JsonValue.asArray).getD []

def asStrings (value : Option JsonValue) : List String :=
  (asArray value).filterMap JsonValue.asStr

/-- `typeof value === 'object' && value !== null` -/
def isObject : JsonValue → Bool
  | .array _ | .object _ => true
  | _ => false

/-- Reads one declared entry. -/
def toSetting (node : JsonValue) : Option Setting :=
  if isObject node then
    let declaredType := (asString (node.get "type")).getD ""
    let title := ((asString (node.get "title")).orElse fun _ => asString (node.get "key")).getD
      declaredType
    match lookUp declaredType with
    | none => if declaredType = "" then none else some (.unsupported declaredType title)
    | some valueType => match asString (node.get "key") with
      | none => some (.unsupported declaredType title)
      | some key =>
        let options := asStrings (node.get "options")
        let values := asStrings (node.get "values")
        some (.editable {
          kind := declaredType, key, title, options
          values := if values.length = options.length then values else options
          valueType })
  else none

/-- One node, after the groups and the loose settings of the nodes before it. -/
def addNode (read : List SettingGroup × List Setting) (node : JsonValue) :
    List SettingGroup × List Setting :=
  if isObject node then
    if asString (node.get "type") = some "group" then
      let settings := (asArray (node.get "items")).filterMap toSetting
      if settings.isEmpty then read
      else (read.1 ++ [⟨asString (node.get "title"), settings⟩], read.2)
    else (read.1, read.2 ++ (toSetting node).toList)
  else read

/-- Flattens a declaration into groups. -/
def parseDeclaration (declared : JsonValue) : List SettingGroup :=
  let (groups, loose) := (asArray (some declared)).foldl addNode ([], [])
  if loose.isEmpty then groups else groups ++ [⟨none, loose⟩]

/-! The entries that both sides walk. -/

def settings (declared : JsonValue) : List Setting :=
  (parseDeclaration declared).flatMap SettingGroup.settings

/-- The entries a node stands for: a group stands for its items. -/
def nodeEntries (node : JsonValue) : List JsonValue :=
  if asString (node.get "type") = some "group" then asArray (node.get "items") else [node]

def entries (declared : JsonValue) : List JsonValue :=
  (asArray (some declared)).flatMap nodeEntries

section Walk
variable {declared node entry : JsonValue} {setting : Setting}

theorem toSetting_of_not_isObject (h : ¬ isObject node) : toSetting node = none := by
  rw [toSetting, if_neg h]

theorem get_of_not_isObject (h : ¬ isObject node) (field : String) : node.get field = none := by
  cases node with
  | array items => exact absurd rfl h
  | object members => exact absurd rfl h
  | null | bool | number | string => rfl

/-- The settings read so far. -/
def Read (read : List SettingGroup × List Setting) (setting : Setting) : Prop :=
  (∃ group ∈ read.1, setting ∈ group.settings) ∨ setting ∈ read.2

private theorem read_addNode {read : List SettingGroup × List Setting} :
    Read (addNode read node) setting ↔
      Read read setting ∨ ∃ entry ∈ nodeEntries node, toSetting entry = some setting := by
  unfold addNode nodeEntries
  by_cases hobject : isObject node = true
  · rw [if_pos hobject]
    by_cases hgroup : asString (node.get "type") = some "group"
    · rw [if_pos hgroup, if_pos hgroup, ← List.mem_filterMap]
      dsimp only
      split
      · next hempty => simp [List.isEmpty_iff.mp hempty]
      · simp only [Read, List.mem_append, List.mem_singleton]
        constructor
        · rintro (⟨group, hmem | rfl, hsetting⟩ | hloose)
          · exact .inl (.inl ⟨group, hmem, hsetting⟩)
          · exact .inr hsetting
          · exact .inl (.inr hloose)
        · rintro ((⟨group, hmem, hsetting⟩ | hloose) | hsetting)
          · exact .inl ⟨group, .inl hmem, hsetting⟩
          · exact .inr hloose
          · exact .inl ⟨_, .inr rfl, hsetting⟩
    · rw [if_neg hgroup, if_neg hgroup]
      simp only [Read, List.mem_append, Option.mem_toList, List.mem_singleton, exists_eq_left,
        or_assoc]
  · rw [if_neg hobject, if_neg (by rw [get_of_not_isObject hobject]; exact fun h => by cases h)]
    simp [toSetting_of_not_isObject hobject]

private theorem read_foldl {nodes : List JsonValue} {read : List SettingGroup × List Setting} :
    Read (nodes.foldl addNode read) setting ↔ Read read setting ∨
      ∃ entry ∈ nodes.flatMap nodeEntries, toSetting entry = some setting := by
  induction nodes generalizing read with
  | nil => simp
  | cons node nodes ih =>
    rw [List.foldl_cons, ih, read_addNode, or_assoc, List.flatMap_cons]
    simp only [List.mem_append, or_and_right, exists_or]

/-- The client reads each entry once. -/
@[simp] theorem mem_settings :
    setting ∈ settings declared ↔ ∃ entry ∈ entries declared, toSetting entry = some setting := by
  have hread := @read_foldl setting (asArray (some declared)) ([], [])
  have hempty : ¬ Read ([], []) setting := by simp [Read]
  rw [or_iff_right hempty] at hread
  rw [entries, ← hread, settings, parseDeclaration, Read]
  dsimp only
  split
  · next hloose => simp [List.isEmpty_iff.mp hloose]
  · simp only [List.flatMap_append, List.mem_append, List.mem_flatMap, List.flatMap_cons,
      List.flatMap_nil, List.append_nil]

/-- The server seeds each entry once. -/
theorem declaredDefaults_eq (declared : JsonValue) :
    declaredDefaults declared = (entries declared).filterMap seed := by
  have hnode (node : JsonValue) : (nodeEntries node).filterMap seed =
      if (node.get "type").bind JsonValue.asStr = some "group" then
        (((node.get "items").bind JsonValue.asArray).getD []).filterMap seed
      else (seed node).toList := by
    unfold nodeEntries asString
    split
    · rfl
    · cases hseed : seed node with
      | none => rw [List.filterMap_cons_none hseed]; rfl
      | some sd => rw [List.filterMap_cons_some hseed]; rfl
  rw [entries, List.filterMap_flatMap]
  simp only [hnode]
  rfl

end Walk

end Nyuka.Web
