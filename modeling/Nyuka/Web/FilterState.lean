import Mathlib.Data.List.Induction
import Nyuka.Web.Filters

/-! What the URL parameter of the filters can do: which parameters are safe to take, and which
states come back from one. -/
namespace Nyuka.Web.Filters
open Nyuka.Runtime (FilterValue)

section Closed

/-- The elements of the parameter, if it reads as an array. -/
def elements (parse : String → Option JsonValue) : Option String → List JsonValue
  | none => []
  | some text =>
    if text = "" then []
    else match parse text with
      | some (.array values) => values
      | _ => []

/-- The elements that carry an id, in their order. -/
def named (values : List JsonValue) (id : String) : List JsonValue :=
  values.filter fun value => decide (filterId value = some id)

/-- The element that becomes the prototype: of those with the id `__proto__` the first that has a
member of this name, or else the last. -/
def heir (values : List JsonValue) : Option JsonValue :=
  ((named values "__proto__").find? hasProto).or (named values "__proto__").getLast?

/-- The element set under an id: the last that carries it. Under `__proto__` these are the ones
behind the prototype that keeps the assignments from its setter. -/
def assigned (values : List JsonValue) (id : String) : Option JsonValue :=
  if id = "__proto__" then
    ((named values id).dropWhile fun value => !hasProto value).tail.getLast?
  else (named values id).getLast?

/-- What the parameter gives a filter. -/
def given (values : List JsonValue) (id : String) : Option Js :=
  match assigned values id with
  | some value => some (.json value)
  | none => inherited (heir values) id

variable {values : List JsonValue} {value : JsonValue} {id key : String}

theorem parseState_eq (parse : String → Option JsonValue) (raw : Option String) :
    parseState parse raw = (elements parse raw).foldl assign .empty := by
  cases raw with
  | none => rfl
  | some text =>
    unfold parseState elements
    dsimp only
    split
    · rfl
    · cases parse text with
      | none => rfl
      | some value => cases value <;> rfl

theorem named_concat : named (values ++ [value]) id =
    if filterId value = some id then named values id ++ [value] else named values id := by
  unfold named
  by_cases h : filterId value = some id <;> simp [h]

/-- Either no element with the id keeps assignments from the setter, or the first that does is the
prototype. -/
theorem heir_cases (values : List JsonValue) :
    ((named values "__proto__").find? hasProto = none ∧ assigned values "__proto__" = none ∧
      (heir values).any hasProto = false ∧
      ((named values "__proto__").dropWhile fun value => !hasProto value) = []) ∨
    ∃ first, (named values "__proto__").find? hasProto = some first ∧ heir values = some first ∧
      (heir values).any hasProto = true ∧
      ((named values "__proto__").dropWhile fun value => !hasProto value) ≠ [] := by
  cases hfind : (named values "__proto__").find? hasProto with
  | none =>
    left
    have hnone := List.find?_eq_none.mp hfind
    have hdrop : ((named values "__proto__").dropWhile fun value => !hasProto value) = [] :=
      List.dropWhile_eq_nil_iff.mpr fun v hv => by simpa using hnone v hv
    refine ⟨rfl, ?_, ?_, hdrop⟩
    · rw [assigned, if_pos rfl, hdrop]
      rfl
    · rw [heir, hfind, Option.none_or]
      cases hlast : (named values "__proto__").getLast? with
      | none => rfl
      | some last => simpa using hnone last (List.mem_of_getLast? hlast)
  | some first =>
    right
    have hfirst := List.find?_some hfind
    have hheir : heir values = some first := by rw [heir, hfind, Option.some_or]
    refine ⟨first, rfl, hheir, by rw [hheir]; exact hfirst, fun hdrop => ?_⟩
    have := List.dropWhile_eq_nil_iff.mp hdrop first (List.mem_of_find?_eq_some hfind)
    rw [hfirst] at this
    cases this

theorem assigned_concat_of_ne (h : filterId value ≠ some id) :
    assigned (values ++ [value]) id = assigned values id := by
  rw [assigned, assigned, named_concat, if_neg h]

theorem assigned_concat (hid : id ≠ "__proto__") (h : filterId value = some id) :
    assigned (values ++ [value]) id = some value := by
  rw [assigned, if_neg hid, named_concat, if_pos h, List.getLast?_concat]

theorem heir_concat_of_ne (h : filterId value ≠ some "__proto__") :
    heir (values ++ [value]) = heir values := by
  rw [heir, heir, named_concat, if_neg h]

/-- Under `__proto__` an element reaches the setter, or what stands behind the prototype. -/
theorem set_proto (h : filterId value = some "__proto__") :
    FilterState.set ⟨assigned values, heir values⟩ "__proto__" value =
      ⟨assigned (values ++ [value]), heir (values ++ [value])⟩ := by
  have hnamed : named (values ++ [value]) "__proto__" = named values "__proto__" ++ [value] := by
    rw [named_concat, h, if_pos rfl]
  have hrest : ∀ id, id ≠ "__proto__" →
      assigned (values ++ [value]) id = assigned values id := fun id hid =>
    assigned_concat_of_ne (by simpa [h] using hid.symm)
  rcases heir_cases values with
    ⟨hfind, hown, hany, hdrop⟩ | ⟨first, hfind, hheir, hany, hdrop⟩
  · rw [FilterState.set, if_pos ⟨rfl, hown, hany⟩, FilterState.mk.injEq]
    refine ⟨funext fun id => ?_, ?_⟩
    · by_cases hid : id = "__proto__"
      · subst hid
        change assigned values "__proto__" = _
        rw [hown, assigned, if_pos rfl, hnamed,
          List.dropWhile_append_of_pos (List.dropWhile_eq_nil_iff.mp hdrop)]
        cases hvalue : hasProto value <;> simp [hvalue]
      · exact (hrest id hid).symm
    · rw [heir, hnamed, List.find?_append, hfind, List.getLast?_concat]
      cases hvalue : hasProto value <;> simp [hvalue]
  · have hset : ¬ ("__proto__" = "__proto__" ∧ assigned values "__proto__" = none ∧
        (heir values).any hasProto = false) := fun hset => by
      rw [hany] at hset
      cases hset.2.2
    rw [FilterState.set, if_neg hset, FilterState.mk.injEq]
    refine ⟨funext fun id => ?_, ?_⟩
    · by_cases hid : id = "__proto__"
      · subst hid
        obtain ⟨head, tail, htail⟩ := List.exists_cons_of_ne_nil hdrop
        rw [Function.update_self, assigned, if_pos rfl, hnamed, List.dropWhile_append, htail]
        simp
      · rw [Function.update_of_ne hid, hrest id hid]
    · rw [heir, heir, hnamed, List.find?_append, hfind]
      rfl

/-- Assignments by name leave what the closed forms say. -/
theorem foldl_assign (values : List JsonValue) :
    values.foldl assign .empty = ⟨assigned values, heir values⟩ := by
  induction values using List.reverseRecOn with
  | nil =>
    refine congrArg₂ FilterState.mk (funext fun id => ?_) rfl
    unfold assigned
    split <;> rfl
  | append_singleton values value ih =>
    rw [List.foldl_append, ih, List.foldl_cons, List.foldl_nil, assign]
    cases hid : filterId value with
    | none =>
      have hne : ∀ id, filterId value ≠ some id := fun id h => by
        rw [hid] at h
        cases h
      exact congrArg₂ FilterState.mk (funext fun id => (assigned_concat_of_ne (hne id)).symm)
        (heir_concat_of_ne (hne _)).symm
    | some key =>
      change FilterState.set _ key value = _
      by_cases hproto : key = "__proto__"
      · subst hproto
        exact set_proto hid
      have hset : ¬ (key = "__proto__" ∧ assigned values key = none ∧
          (heir values).any hasProto = false) := fun h => hproto h.1
      rw [FilterState.set, if_neg hset, FilterState.mk.injEq]
      refine ⟨funext fun id => ?_, (heir_concat_of_ne (by simpa [hid] using hproto)).symm⟩
      by_cases h : id = key
      · subst h
        rw [Function.update_self, assigned_concat hproto hid]
      · rw [Function.update_of_ne h, assigned_concat_of_ne (by simpa [hid] using Ne.symm h)]

@[simp]
theorem get_parseState (parse : String → Option JsonValue) (raw : Option String) (id : String) :
    (parseState parse raw).get id = given (elements parse raw) id := by
  rw [parseState_eq, foldl_assign]
  rfl

end Closed

section Safety
variable (positive : JsonValue → Option Bool)

/-- What is found under a filter's id is dropped as empty, or is a value that the server reads, for
a filter of the declaration. -/
def Harmless (ids : List String) : Js → Prop
  | .json value => keepsJson positive value = some false ∨
      ∃ fv, FilterValue.fromValue value = some fv ∧ fv.id ∈ ids
  | .builtin _ => False

/-- The values to send are computed, and the server accepts them, each for a declared filter. -/
def Safe (describe : JsonValue → String) (filters : List Filter) (state : FilterState) : Prop :=
  ∃ values accepted, toValues positive filters state = some values ∧
    Runtime.parseFilters describe (toArray values) = .ok accepted ∧
    ∀ fv ∈ accepted, ∃ filter ∈ filters, filter.id = fv.id

variable {positive} {filters : List Filter} {state : FilterState}

theorem keepAll_eq_some {found values : List Js} : keepAll positive found = some values ↔
    (∀ value ∈ found, (keeps positive value).isSome = true) ∧
      (found.filter fun value => keeps positive value == some true) = values := by
  induction found generalizing values with
  | nil => simp [keepAll]
  | cons value found ih =>
    rw [keepAll]
    cases hkeep : keeps positive value with
    | none =>
      refine iff_of_false (by simp) fun h => ?_
      have hsome := h.1 value List.mem_cons_self
      rw [hkeep] at hsome
      cases hsome
    | some keep =>
      change ((keepAll positive found).bind fun kept =>
        some (if keep then value :: kept else kept)) = some values ↔ _
      rw [Option.bind_eq_some_iff, List.forall_mem_cons, List.filter_cons, hkeep]
      simp only [ih, Option.some.injEq]
      cases keep <;> simp

@[simp] theorem get_singleton (variant name : String) (value : JsonValue) :
    (JsonValue.object [(variant, value)]).get name =
      if variant = name then some value else none := by
  by_cases h : variant = name <;> simp [JsonValue.get, h]

/-- Values that the server reads have what the client looks at. -/
theorem keepsJson_of_fromValue {value : JsonValue} {fv : FilterValue}
    (h : FilterValue.fromValue value = some fv) : (keepsJson positive value).isSome = true := by
  unfold FilterValue.fromValue at h
  split at h
  · rename_i variant members
    have hnonempty : (nonempty (.object members)).isSome = true := rfl
    have hlonger : ∀ name, ((JsonValue.object members).get name).bind Runtime.readStrings ≠ none →
        (longer positive ((JsonValue.object members).get name)).isSome = true :=
        fun name hname => by
      cases hfield : (JsonValue.object members).get name with
      | none => exact absurd (by rw [hfield]; rfl) hname
      | some field =>
        rw [hfield] at hname
        cases field with
        | array items => rfl
        | null | bool | number | string | object => exact absurd rfl hname
    rw [keepsJson, if_pos (show isObject (.object [(variant, .object members)]) = true from rfl),
      get_singleton, get_singleton, get_singleton]
    by_cases hmulti : variant = "MultiSelect"
    · subst hmulti
      obtain ⟨id, -, h⟩ := Option.bind_eq_some_iff.mp h
      obtain ⟨included, hincluded, h⟩ := Option.bind_eq_some_iff.mp h
      obtain ⟨excluded, hexcluded, -⟩ := Option.bind_eq_some_iff.mp h
      obtain ⟨more, hmore⟩ := Option.isSome_iff_exists.mp
        (hlonger "included" (by rw [hincluded]; exact Option.some_ne_none _))
      obtain ⟨less, hless⟩ := Option.isSome_iff_exists.mp
        (hlonger "excluded" (by rw [hexcluded]; exact Option.some_ne_none _))
      cases more <;> simp [hmore, hless]
    · by_cases htext : variant = "Text"
      · simp [htext, hnonempty]
      · by_cases hselect : variant = "Select" <;> simp [hmulti, htext, hselect, hnonempty]
  · cases h

@[simp] private theorem fromValue_builtin (name : String) :
    FilterValue.fromValue (Js.builtin name).toJson = none := by
  rw [Js.toJson]
  split <;> rfl

theorem harmless_iff {ids : List String} {found : Js} : Harmless positive ids found ↔
    (keeps positive found).isSome = true ∧ (keeps positive found = some true →
      ∃ fv, FilterValue.fromValue found.toJson = some fv ∧ fv.id ∈ ids) := by
  cases found with
  | builtin name =>
    refine iff_of_false id fun h => ?_
    obtain ⟨fv, hfv, -⟩ := h.2 rfl
    rw [fromValue_builtin] at hfv
    cases hfv
  | json value =>
    change (keepsJson positive value = some false ∨ _) ↔ (keepsJson positive value).isSome = true ∧
      (keepsJson positive value = some true → _)
    constructor
    · rintro (hdropped | ⟨fv, hfv, hid⟩)
      · rw [hdropped]
        exact ⟨rfl, fun h => by cases h⟩
      · exact ⟨keepsJson_of_fromValue hfv, fun _ => ⟨fv, hfv, hid⟩⟩
    · rintro ⟨hsome, hkept⟩
      obtain ⟨keep, hkeep⟩ := Option.isSome_iff_exists.mp hsome
      cases keep with
      | true => exact .inr (hkept hkeep)
      | false => exact .inl hkeep

/-- All values are read exactly if each of them is. -/
theorem exists_accepted {values : List Js} {ids : List String} :
    (∃ accepted, (values.map Js.toJson).mapM FilterValue.fromValue = some accepted ∧
        ∀ fv ∈ accepted, fv.id ∈ ids) ↔
      ∀ value ∈ values, ∃ fv, FilterValue.fromValue value.toJson = some fv ∧ fv.id ∈ ids := by
  induction values with
  | nil => simp
  | cons value values ih =>
    rw [List.forall_mem_cons, ← ih]
    simp only [List.map_cons, List.mapM_cons, Option.bind_eq_bind, Option.bind_eq_some_iff,
      Option.pure_def, Option.some.injEq]
    constructor
    · rintro ⟨_, ⟨fv, hfv, rest, hrest, rfl⟩, h⟩
      exact ⟨⟨fv, hfv, h fv List.mem_cons_self⟩, rest, hrest,
        fun fv' h' => h fv' (List.mem_cons_of_mem _ h')⟩
    · rintro ⟨⟨fv, hfv, hid⟩, rest, hrest, h⟩
      exact ⟨fv :: rest, ⟨fv, hfv, rest, hrest, rfl⟩, List.forall_mem_cons.mpr ⟨hid, h⟩⟩

theorem safe_iff (describe : JsonValue → String) : Safe positive describe filters state ↔
    ∀ filter ∈ filters, ∀ found ∈ state.get filter.id,
      Harmless positive (filters.map Filter.id) found := by
  have hdeclared : ∀ fv : FilterValue, (∃ filter ∈ filters, filter.id = fv.id) ↔
      fv.id ∈ filters.map Filter.id := fun fv => List.mem_map.symm
  have hfound : ∀ P : Js → Prop, (∀ filter ∈ filters, ∀ found ∈ state.get filter.id, P found) ↔
      ∀ found ∈ filters.filterMap fun filter => state.get filter.id, P found := fun P => by
    simp only [List.mem_filterMap, Option.mem_def]
    exact ⟨fun h found ⟨filter, hfilter, hget⟩ => h filter hfilter found hget,
      fun h filter hfilter found hget => h found ⟨filter, hfilter, hget⟩⟩
  have hsafe : Safe positive describe filters state ↔ ∃ values,
      toValues positive filters state = some values ∧ ∀ value ∈ values, ∃ fv,
        FilterValue.fromValue value.toJson = some fv ∧ fv.id ∈ filters.map Filter.id := by
    simp only [Safe, toArray, Runtime.parseFilters_array_eq_ok, hdeclared, ← exists_accepted,
      exists_and_left]
  rw [hsafe, hfound]
  simp only [toValues, keepAll_eq_some, harmless_iff]
  constructor
  · rintro ⟨_, ⟨hkeeps, rfl⟩, hread⟩ found hmem
    exact ⟨hkeeps found hmem, fun hkeep =>
      hread found (List.mem_filter.mpr ⟨hmem, by rw [hkeep]; rfl⟩)⟩
  · intro h
    refine ⟨_, ⟨fun found hmem => (h found hmem).1, rfl⟩, fun found hmem => ?_⟩
    obtain ⟨hmem, hkeep⟩ := List.mem_filter.mp hmem
    exact (h found hmem).2 (beq_iff_eq.mp hkeep)

end Safety

end Nyuka.Web.Filters
