import Nyuka.Web.Settings

/-! What the server seeds, read by the client. -/
namespace Nyuka.Web
open Text Postcard Nyuka.Runtime

/-- The value a default has in the client, if it is one a control can have. -/
def ofJson : JsonValue → Option Value
  | .bool b => some (.bool b)
  | .string s => some (.string s)
  | .array items => (items.mapM JsonValue.asStr).map .strings
  | _ => none

/-- The default an entry declares. -/
def defaultOf (entry : JsonValue) : Option Value := (entry.get "default").bind ofJson

/-- What the server's serializer writes for a value. -/
inductive Encodes : Value → Bytes → Prop where
  | bool (b : Bool) : Encodes (.bool b) (Runtime.Postcard.bool b)
  | string (s : String) : Encodes (.string s) (Runtime.Postcard.string s)
  | strings (items : List String) : Encodes (.strings items) (Runtime.Postcard.strings items)

section Entries
variable {entry : JsonValue} {sd : Seed} {setting : EditableSetting} {name key : String}
  {property : Property}

@[simp] theorem ofJson_bool {value : JsonValue} {b : Bool} :
    ofJson value = some (.bool b) ↔ value.asBool = some b := by
  cases value <;> simp [ofJson, JsonValue.asBool]

@[simp] theorem ofJson_string {value : JsonValue} {s : String} :
    ofJson value = some (.string s) ↔ value.asStr = some s := by
  cases value <;> simp [ofJson, JsonValue.asStr]

@[simp] theorem ofJson_strings {value : JsonValue} {items : List String} :
    ofJson value = some (.strings items) ↔
      (value.asArray.bind fun values => values.mapM JsonValue.asStr) = some items := by
  cases value <;> simp [ofJson, JsonValue.asArray]

/-- An entry of a type name. -/
structure Declares (entry : JsonValue) (key name : String) : Prop where
  key : asString (entry.get "key") = some key
  type : asString (entry.get "type") = some name

/-- What `seed` encodes a default as, by the declared type. -/
def seedValue (declared : String) (default : JsonValue) : Option Bytes :=
  if declared = "switch" then default.asBool.map Runtime.Postcard.bool
  else if declared = "text" ∨ declared = "select" ∨ declared = "segment" then
    default.asStr.map Runtime.Postcard.string
  else if declared = "multi-select" then
    default.asArray.bind fun items => (items.mapM JsonValue.asStr).map Runtime.Postcard.strings
  else none

theorem seed_eq (entry : JsonValue) : seed entry =
    (asString (entry.get "key")).bind fun key => (asString (entry.get "type")).bind fun declared =>
      (entry.get "default").bind fun default =>
        (seedValue declared default).bind fun value => some ⟨key, value⟩ := by
  simp only [asString, Option.bind_assoc]
  refine Option.bind_congr fun node _ => Option.bind_congr fun key _ => ?_
  refine Option.bind_congr fun node _ => Option.bind_congr fun declared _ => ?_
  refine Option.bind_congr fun default _ => ?_
  unfold seedValue
  split_ifs with hswitch htext hmulti
  · rfl
  · rfl
  · exact (Option.bind_assoc _ _ _).symm
  · rfl

theorem lookup_valueTypes : valueTypes.lookup name =
    if name = "switch" then some .bool
    else if name = "text" ∨ name = "select" ∨ name = "segment" then some .string
    else if name = "multi-select" then some .stringList
    else none := by
  unfold valueTypes
  by_cases hswitch : name = "switch"
  · simp [hswitch]
  by_cases htext : name = "text"
  · simp [htext, List.lookup_cons]
  by_cases hselect : name = "select"
  · simp [hselect, List.lookup_cons]
  by_cases hsegment : name = "segment"
  · simp [hsegment, List.lookup_cons]
  by_cases hmulti : name = "multi-select"
  · simp [hmulti, List.lookup_cons]
  simp [List.lookup_cons, hswitch, htext, hselect, hsegment, hmulti,
    beq_eq_false_iff_ne.mpr hswitch, beq_eq_false_iff_ne.mpr htext,
    beq_eq_false_iff_ne.mpr hselect, beq_eq_false_iff_ne.mpr hsegment,
    beq_eq_false_iff_ne.mpr hmulti]

private theorem seedValue_eq_some {default : JsonValue} {bytes : Bytes} :
    seedValue name default = some bytes ↔ ∃ value, valueTypes.lookup name = some value.type ∧
      ofJson default = some value ∧ Encodes value bytes := by
  rw [seedValue, lookup_valueTypes]
  constructor
  · intro h
    split_ifs at h with hswitch htext hmulti
    · obtain ⟨b, hb, rfl⟩ := Option.map_eq_some_iff.mp h
      exact ⟨.bool b, if_pos hswitch, ofJson_bool.mpr hb, .bool b⟩
    · obtain ⟨s, hs, rfl⟩ := Option.map_eq_some_iff.mp h
      exact ⟨.string s, by rw [if_neg hswitch, if_pos htext]; rfl, ofJson_string.mpr hs, .string s⟩
    · obtain ⟨values, hvalues, h⟩ := Option.bind_eq_some_iff.mp h
      obtain ⟨items, hitems, rfl⟩ := Option.map_eq_some_iff.mp h
      refine ⟨.strings items, ?_, ofJson_strings.mpr ?_, .strings items⟩
      · rw [if_neg hswitch, if_neg htext, if_pos hmulti]
        rfl
      · exact Option.bind_eq_some_iff.mpr ⟨values, hvalues, hitems⟩
  · rintro ⟨value, htype, hvalue, hencodes⟩
    split_ifs at htype ⊢ with hswitch htext hmulti
    · cases hencodes with
      | bool b => rw [ofJson_bool.mp hvalue, Option.map_some]
      | string | strings => cases htype
    · cases hencodes with
      | string s => rw [ofJson_string.mp hvalue, Option.map_some]
      | bool | strings => cases htype
    · cases hencodes with
      | strings items =>
        obtain ⟨values, hvalues, hitems⟩ := Option.bind_eq_some_iff.mp (ofJson_strings.mp hvalue)
        rw [hvalues, Option.bind_some, hitems, Option.map_some]
      | bool | string => cases htype

/-- An entry is seeded if its type is one of the supported and its default is of that type. -/
theorem seed_eq_some : seed entry = some sd ↔ ∃ name value, Declares entry sd.key name ∧
    valueTypes.lookup name = some value.type ∧ defaultOf entry = some value ∧
    Encodes value sd.value := by
  rw [seed_eq]
  constructor
  · intro h
    obtain ⟨key, hkey, h⟩ := Option.bind_eq_some_iff.mp h
    obtain ⟨name, hname, h⟩ := Option.bind_eq_some_iff.mp h
    obtain ⟨default, hdefault, h⟩ := Option.bind_eq_some_iff.mp h
    obtain ⟨bytes, hbytes, h⟩ := Option.bind_eq_some_iff.mp h
    obtain rfl := Option.some.inj h
    obtain ⟨value, htype, hvalue, hencodes⟩ := seedValue_eq_some.mp hbytes
    exact ⟨name, value, ⟨hkey, hname⟩, htype,
      Option.bind_eq_some_iff.mpr ⟨default, hdefault, hvalue⟩, hencodes⟩
  · rintro ⟨name, value, ⟨hkey, hname⟩, htype, hdefault, hencodes⟩
    obtain ⟨default, hdefault, hvalue⟩ := Option.bind_eq_some_iff.mp hdefault
    rw [hkey, hname, hdefault]
    have hbytes := seedValue_eq_some.mpr ⟨value, htype, hvalue, hencodes⟩
    simp only [Option.bind_some, hbytes]

/-- An entry is editable if its type name is looked up in the table. -/
theorem toSetting_eq_editable (h : toSetting entry = some (.editable setting)) :
    Declares entry setting.key setting.kind ∧ lookUp setting.kind = some setting.valueType := by
  unfold toSetting at h
  split at h
  · dsimp only at h
    split at h
    · split at h <;> cases h
    · next property hproperty =>
      split at h
      · cases h
      · next key hkey =>
        obtain rfl := Setting.editable.inj (Option.some.inj h)
        refine ⟨⟨hkey, ?_⟩, hproperty⟩
        cases htype : asString (entry.get "type") with
        | some name => rfl
        | none =>
          rw [htype] at hproperty
          cases hproperty
  · cases h

theorem exists_editable (h : Declares entry key name) (hproperty : lookUp name = some property) :
    ∃ setting, toSetting entry = some (.editable setting) ∧ setting.key = key ∧
      setting.kind = name ∧ setting.valueType = property := by
  have hobject : isObject entry = true := by
    by_contra hnot
    have hkey := h.key
    rw [get_of_not_isObject hnot] at hkey
    cases hkey
  unfold toSetting
  rw [if_pos hobject, h.key, h.type, Option.getD_some]
  simp only [hproperty]
  exact ⟨_, rfl, rfl, rfl, rfl⟩

@[simp] theorem lookUp_own {type : ValueType} :
    lookUp name = some (.own type) ↔ valueTypes.lookup name = some type := by
  unfold lookUp
  cases valueTypes.lookup name with
  | some own => rw [Option.some.injEq, Property.own.injEq, Option.some.injEq]
  | none =>
    dsimp only
    split <;> simp

theorem mem_objectPrototype_of_lookUp {other : String}
    (h : lookUp name = some (.inherited other)) : name ∈ objectPrototype := by
  unfold lookUp at h
  split at h
  · cases h
  · split at h
    · next hmem => exact hmem
    · cases h

/-- The table has no property of its own under an inherited name. -/
theorem lookUp_of_mem_objectPrototype (h : name ∈ objectPrototype) :
    lookUp name = some (.inherited name) := by
  have hnone : ∀ name ∈ objectPrototype, valueTypes.lookup name = none := by decide
  rw [lookUp, hnone name h]
  exact if_pos h

theorem mem_keys_of_lookup {type : ValueType} (h : valueTypes.lookup name = some type) :
    name ∈ valueTypes.map Prod.fst := by
  rw [lookup_valueTypes] at h
  split_ifs at h with hswitch htext hmulti
  · simp [valueTypes, hswitch]
  · rcases htext with rfl | rfl | rfl <;> simp [valueTypes]
  · simp [valueTypes, hmulti]

/-- What is seeded is shown as a control of the type it is encoded as. -/
theorem editable_of_seed (h : seed entry = some sd) : ∃ setting value,
    toSetting entry = some (.editable setting) ∧ setting.key = sd.key ∧
      setting.valueType = .own value.type ∧ defaultOf entry = some value ∧
      Encodes value sd.value := by
  obtain ⟨name, value, hdeclares, htype, hdefault, hencodes⟩ := seed_eq_some.mp h
  obtain ⟨setting, hsetting, hkey, -, hproperty⟩ :=
    exists_editable hdeclares (lookUp_own.mpr htype)
  exact ⟨setting, value, hsetting, hkey, hproperty, hdefault, hencodes⟩

end Entries

/-! The two readings of a declaration. -/

structure Agree (declared : JsonValue) : Prop where
  seeded : ∀ sd ∈ declaredDefaults declared, ∃ entry ∈ entries declared, ∃ setting value,
    seed entry = some sd ∧ toSetting entry = some (.editable setting) ∧
      .editable setting ∈ settings declared ∧ setting.key = sd.key ∧
      setting.valueType = .own value.type ∧ defaultOf entry = some value ∧
      Encodes value sd.value
  supported : ∀ setting, .editable setting ∈ settings declared →
    setting.kind ∈ valueTypes.map Prod.fst ∧ ∃ type, setting.valueType = .own type
  defaults : ∀ entry ∈ entries declared, ∀ setting value,
    toSetting entry = some (.editable setting) → defaultOf entry = some value →
    setting.valueType = .own value.type →
    ∃ sd ∈ declaredDefaults declared, sd.key = setting.key ∧ Encodes value sd.value

/-- The two readings agree exactly if no entry with a key is of a type that is the name of a
property every object inherits. -/
theorem readings_agree_iff (declared : JsonValue) : Agree declared ↔
    ∀ entry ∈ entries declared, ∀ key name, Declares entry key name → name ∉ objectPrototype := by
  constructor
  · intro h entry hentry key name hdeclares hinherited
    obtain ⟨setting, hsetting, -, -, hproperty⟩ :=
      exists_editable hdeclares (lookUp_of_mem_objectPrototype hinherited)
    obtain ⟨-, type, htype⟩ := h.supported setting (mem_settings.mpr ⟨entry, hentry, hsetting⟩)
    cases hproperty.symm.trans htype
  · intro h
    refine ⟨fun sd hsd => ?_, fun setting hsetting => ?_, ?_⟩
    · rw [declaredDefaults_eq] at hsd
      obtain ⟨entry, hentry, hseed⟩ := List.mem_filterMap.mp hsd
      obtain ⟨setting, value, hsetting, hrest⟩ := editable_of_seed hseed
      exact ⟨entry, hentry, setting, value, hseed, hsetting,
        mem_settings.mpr ⟨entry, hentry, hsetting⟩, hrest⟩
    · obtain ⟨entry, hentry, hread⟩ := mem_settings.mp hsetting
      obtain ⟨hdeclares, hlookUp⟩ := toSetting_eq_editable hread
      cases hproperty : setting.valueType with
      | own type =>
        rw [hproperty] at hlookUp
        exact ⟨mem_keys_of_lookup (lookUp_own.mp hlookUp), type, rfl⟩
      | inherited name =>
        rw [hproperty] at hlookUp
        exact absurd (mem_objectPrototype_of_lookUp hlookUp) (h entry hentry _ _ hdeclares)
    · intro entry hentry setting value hsetting hdefault htype
      obtain ⟨hdeclares, hlookUp⟩ := toSetting_eq_editable hsetting
      rw [htype, lookUp_own] at hlookUp
      obtain ⟨bytes, hencodes⟩ : ∃ bytes, Encodes value bytes := by
        cases value with
        | bool b => exact ⟨_, .bool b⟩
        | string s => exact ⟨_, .string s⟩
        | strings items => exact ⟨_, .strings items⟩
        | int n =>
          rw [lookup_valueTypes] at hlookUp
          split_ifs at hlookUp <;> cases hlookUp
      have hseed : seed entry = some ⟨setting.key, bytes⟩ :=
        seed_eq_some.mpr ⟨setting.kind, value, hdeclares, hlookUp, hdefault, hencodes⟩
      rw [declaredDefaults_eq]
      exact ⟨_, List.mem_filterMap.mpr ⟨entry, hentry, hseed⟩, rfl, hencodes⟩

/-- A declaration whose only entry is of a type every object has a property of. -/
def constructorEntry : JsonValue :=
  .array [.object [("type", .string "constructor"), ("key", .string "k")]]

/-- The entry is editable, and is of none of the supported kinds. -/
theorem constructor_editable : ¬ Agree constructorEntry := by
  intro h
  have hsupported := (h.supported _ (List.mem_singleton.mpr rfl)).1
  exact absurd hsupported (by decide)

/-! The seeds as the client decodes them. -/

def Postcard.Value.Readable : Value → Prop
  | .string s => Postcard.Readable s
  | .strings items => items.length < 2 ^ 35 ∧ ∀ s ∈ items, Postcard.Readable s
  | .bool _ | .int _ => True

theorem decode_encodes_iff {value : Value} {bytes : Bytes} (h : Encodes value bytes) :
    decode bytes value.type = .ok value ↔ value.Readable := by
  cases h with
  | bool b => exact iff_of_true (decode_bool.mpr ⟨b, rfl, rfl⟩) trivial
  | string s => exact decode_serialized_string
  | strings items => exact decode_serialized_strings

theorem type_of_decode {value : Value} {raw : Bytes} {type : ValueType}
    (h : decode raw type = .ok value) : value.type = type := by
  cases type with
  | bool => obtain ⟨b, -, rfl⟩ := decode_bool.mp h; rfl
  | string => obtain ⟨f, -, -, rfl⟩ := decode_string.mp h; rfl
  | stringList => obtain ⟨head, frames, -, -, -, -, rfl⟩ := decode_stringList.mp h; rfl
  | int => obtain ⟨n, -, -, rfl⟩ := decode_int.mp h; rfl

/-- The client shows a control of the key, and each one of the key reads the bytes as the value. -/
structure ReadsBack (declared : JsonValue) (sd : Seed) (value : Value) : Prop where
  shown : ∃ setting, .editable setting ∈ settings declared ∧ setting.key = sd.key
  reads : ∀ setting, .editable setting ∈ settings declared → setting.key = sd.key →
    ∃ type, setting.valueType = .own type ∧ decode sd.value type = .ok value

/-- No entry declares the key with another type. -/
def OneType (declared : JsonValue) (key : String) (type : ValueType) : Prop :=
  ∀ entry ∈ entries declared, ∀ name property, Declares entry key name →
    lookUp name = some property → property = .own type

theorem readsBack_iff {declared entry : JsonValue} {sd : Seed} {value : Value}
    (hentry : entry ∈ entries declared) (hseed : seed entry = some sd)
    (hdefault : defaultOf entry = some value) :
    ReadsBack declared sd value ↔ value.Readable ∧ OneType declared sd.key value.type := by
  obtain ⟨setting, value', hsetting, hkey, htype, hdefault', hencodes⟩ := editable_of_seed hseed
  obtain rfl := Option.some.inj (hdefault'.symm.trans hdefault)
  have hshown := mem_settings.mpr ⟨entry, hentry, hsetting⟩
  constructor
  · rintro ⟨-, hreads⟩
    refine ⟨?_, fun other hother name property hdeclares hlookUp => ?_⟩
    · obtain ⟨type, hown, hdecode⟩ := hreads setting hshown hkey
      rw [← type_of_decode hdecode] at hdecode
      exact (decode_encodes_iff hencodes).mp hdecode
    · obtain ⟨setting', hsetting', hkey', -, hproperty⟩ := exists_editable hdeclares hlookUp
      obtain ⟨type, hown, hdecode⟩ :=
        hreads setting' (mem_settings.mpr ⟨other, hother, hsetting'⟩) hkey'
      rw [← hproperty, hown, type_of_decode hdecode]
  · rintro ⟨hreadable, hone⟩
    refine ⟨⟨setting, hshown, hkey⟩, fun setting' hshown' hkey' => ?_⟩
    obtain ⟨other, hother, hsetting'⟩ := mem_settings.mp hshown'
    obtain ⟨hdeclares, hlookUp⟩ := toSetting_eq_editable hsetting'
    rw [hkey'] at hdeclares
    exact ⟨_, hone other hother _ _ hdeclares hlookUp, (decode_encodes_iff hencodes).mpr hreadable⟩

/-- A value comes back as it was exactly if it is one that returns, bytes are written back as
they were read exactly if they are canonical, and a seed is read as the declared default exactly
if the default is readable and its key is declared with one type. -/
theorem codec_round_trips_iff (maxArguments : ℕ) :
    (∀ v, roundTrip maxArguments v = .ok v ↔ v.Returns maxArguments) ∧
    (∀ raw type, (∀ v, decode raw type = .ok v → encode maxArguments v type = .ok raw) ↔
      Canonical maxArguments raw type) ∧
    ∀ declared, declaredDefaults declared = (entries declared).filterMap seed ∧
      ∀ entry ∈ entries declared, ∀ sd, seed entry = some sd →
        ∃ value, defaultOf entry = some value ∧
          (ReadsBack declared sd value ↔ value.Readable ∧ OneType declared sd.key value.type) := by
  refine ⟨roundTrip_eq_ok_iff maxArguments, decode_encode_iff maxArguments, fun declared => ?_⟩
  refine ⟨declaredDefaults_eq declared, fun entry hentry sd hseed => ?_⟩
  obtain ⟨setting, value, -, -, -, hdefault, -⟩ := editable_of_seed hseed
  exact ⟨value, hdefault, readsBack_iff hentry hseed hdefault⟩

/-- A text that begins with a byte order mark. -/
def marked : String := String.ofList [markChar, 'a']

/-- A text control with this default. -/
def markedDefault : JsonValue :=
  .array [.object [("type", .string "text"), ("key", .string "k"), ("default", .string marked)]]

/-- The mark is lost, a longer number is written back shorter, and the seed is read as another
default. -/
theorem mark_lost : roundTrip 65536 (.string marked) ≠ .ok (.string marked) ∧
    decode [0x80, 0] .int = .ok (.int 0) ∧ encode 65536 (.int 0) .int ≠ .ok [0x80, 0] ∧
    ¬ ∀ entry ∈ entries markedDefault, ∀ sd, seed entry = some sd →
      ∃ value, defaultOf entry = some value ∧ ReadsBack markedDefault sd value := by
  have hmark : ¬ Postcard.Readable marked := fun h => h.mark rfl
  refine ⟨fun h => hmark ?_, by decide +kernel, by decide +kernel, fun h => hmark ?_⟩
  · exact ((roundTrip_eq_ok_iff _ _).mp h).1
  · obtain ⟨value, hvalue, hreads⟩ := h _ (List.mem_singleton.mpr rfl) _ rfl
    obtain rfl := Option.some.inj hvalue
    exact ((readsBack_iff (List.mem_singleton.mpr rfl) rfl rfl).mp hreads).1

end Nyuka.Web
