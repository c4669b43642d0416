import Nyuka.Web.FilterState

/-! What the controls set comes back from the URL parameter, but for a multi-select that was
emptied: it is left out there, and its id may be one that the state inherits. -/
namespace Nyuka.Web.Filters

section Controls

/-- A value that a control sets for its filter. -/
inductive ControlValue (id : String) : JsonValue → Prop
  | text {value : String} : value ≠ "" → ControlValue id (textValue id value)
  | sort (index : JsonValue) (ascending : Bool) : ControlValue id (sortValue id index ascending)
  | check : ControlValue id (checkValue id)
  | select {value : String} : value ≠ "" → ControlValue id (selectValue id value)
  | multiSelect (included excluded : List String) :
      ControlValue id (multiSelectValue id included excluded)

/-- A multi-select with no option chosen. -/
def emptied (id : String) : JsonValue := multiSelectValue id [] []

variable {positive : JsonValue → Option Bool} {id key : String} {value held : JsonValue}

theorem ControlValue.filterId_eq (h : ControlValue id value) : filterId value = some id := by
  cases h <;> rfl

theorem ControlValue.hasProto_eq (h : ControlValue id value) : hasProto value = false := by
  cases h <;> rfl

@[simp] theorem keepsJson_emptied : keepsJson positive (emptied id) = some false := rfl

theorem ControlValue.keepsJson_eq (h : ControlValue id value) (hne : value ≠ emptied id) :
    keepsJson positive value = some true := by
  cases h with
  | text hvalue | select hvalue =>
    refine congrArg some (decide_eq_true fun h => hvalue ?_)
    exact Option.some.inj h
  | sort | check => rfl
  | multiSelect included excluded =>
    cases included with
    | cons => rfl
    | nil =>
      cases excluded with
      | cons => rfl
      | nil => exact absurd rfl hne

/-- The only member of a control's value holds an id and no object. -/
theorem ControlValue.inner (h : ControlValue id value) (hown : ownProperty value key = some held) :
    filterId held = none ∧ keepsJson positive held = some true := by
  cases h with
  | text | sort | check | select | multiSelect =>
    change (JsonValue.object _).get key = some held at hown
    rw [get_singleton] at hown
    split at hown
    · cases hown
      exact ⟨rfl, rfl⟩
    · cases hown

theorem respond_control {filter : Filter} {current : Option Js} {input : Input}
    (h : respond filter current input = some (some value)) : ControlValue filter.id value := by
  unfold respond at h
  split at h
  · dsimp only at h
    split at h
    · cases h
    · rename_i hne
      cases h
      exact .text hne
  · split at h
    · cases h
      exact .check
    · cases h
  · split at h
    · cases h
    · rename_i hne
      split at h
      · cases h
        exact .select hne
      · cases h
  · split at h
    · cases h
    · obtain ⟨index, -, h⟩ := Option.map_eq_some_iff.mp h
      cases h
      exact .sort _ _
  · obtain ⟨sort, -, h⟩ := Option.bind_eq_some_iff.mp h
    obtain ⟨index, -, h⟩ := Option.bind_eq_some_iff.mp h
    obtain ⟨ascending, -, h⟩ := Option.bind_eq_some_iff.mp h
    split at h
    · cases h
      exact .sort _ _
    · cases h
  · obtain ⟨option, -, h⟩ := Option.bind_eq_some_iff.mp h
    cases h
    exact .multiSelect _ _
  · cases h

end Controls

section Invariant

/-- What the controls build: the value of a filter under its id, and as the prototype one that was
set for a filter `__proto__`. -/
structure Tidy (filters : List Filter) (state : FilterState) : Prop where
  own : ∀ {id value}, state.own id = some value → id ≠ "__proto__" ∧ ControlValue id value
  proto : ∀ {value}, state.proto = some value →
    ControlValue "__proto__" value ∧ ∃ filter ∈ filters, filter.id = "__proto__"

variable (positive : JsonValue → Option Bool) {filters : List Filter} {state : FilterState}
  {id key : String} {value : JsonValue} {found : Js}

theorem Tidy.empty : Tidy filters .empty := ⟨fun h => (by cases h), fun h => (by cases h)⟩

theorem Tidy.update (h : Tidy filters state) {filter : Filter} (hfilter : filter ∈ filters)
    {value : Option JsonValue} (hvalue : ∀ v, value = some v → ControlValue filter.id v) :
    Tidy filters (state.update filter.id value) := by
  have hset : ∀ {own : String → Option JsonValue} {set : Option JsonValue},
      own = Function.update state.own filter.id set →
      (∀ v, set = some v → filter.id ≠ "__proto__" ∧ ControlValue filter.id v) →
      Tidy filters ⟨own, none⟩ := fun {own set} hown hset => by
    refine ⟨fun {id v} hget => ?_, fun hproto => by cases hproto⟩
    subst hown
    by_cases hid : id = filter.id
    · subst hid
      exact hset v (by simpa using hget)
    · exact h.own (by simpa [Function.update_of_ne hid] using hget)
  cases value with
  | none => exact hset rfl fun v hv => by cases hv
  | some v =>
    have hcontrol := hvalue v rfl
    rw [FilterState.update, FilterState.set]
    split
    · rename_i hproto
      refine ⟨fun hget => h.own hget, fun hget => ?_⟩
      rw [← Option.some.inj hget, ← hproto.1]
      exact ⟨hcontrol, filter, hfilter, rfl⟩
    · rename_i hproto
      have hne : filter.id ≠ "__proto__" := fun hid => hproto ⟨hid, by
        cases hown : state.own filter.id with
        | none => rfl
        | some v => exact absurd hid (h.own hown).1, rfl⟩
      exact hset rfl fun u hu => ⟨hne, Option.some.inj hu ▸ hcontrol⟩

/-- What is inherited is not a control's value, but for the prototype itself. -/
theorem Tidy.inherited_cases (h : Tidy filters state)
    (hget : inherited state.proto key = some found) :
    (key = "__proto__" ∧ ∃ value, state.proto = some value ∧ found = .json value) ∨
      (filterId found.toJson = none ∧ keeps positive found = some true) := by
  have hbuiltin : ∀ name, filterId (Js.builtin name).toJson = none := fun name => by
    rw [Js.toJson]
    split <;> rfl
  cases hproto : state.proto with
  | none =>
    rw [hproto, inherited] at hget
    split at hget
    · cases hget
      exact .inr ⟨hbuiltin key, rfl⟩
    · cases hget
  | some value =>
    rw [hproto, inherited] at hget
    split at hget
    · rename_i held hown
      cases hget
      exact .inr ((h.proto hproto).1.inner hown)
    · split at hget
      · rename_i hkey
        cases hget
        exact .inl ⟨hkey, value, rfl, rfl⟩
      · split at hget
        · cases hget
          exact .inr ⟨hbuiltin key, rfl⟩
        · cases hget

/-- What is found under an id is the value that its control set, or inherited. -/
theorem Tidy.get_cases (h : Tidy filters state) (hget : state.get key = some found) :
    (∃ value, found = .json value ∧ ControlValue key value ∧
      (state.own key = some value ∨ key = "__proto__" ∧ state.proto = some value)) ∨
    (filterId found.toJson = none ∧ keeps positive found = some true) := by
  unfold FilterState.get at hget
  split at hget
  · rename_i value hown
    cases hget
    exact .inl ⟨value, rfl, (h.own hown).2, .inl hown⟩
  · rcases h.inherited_cases positive hget with ⟨hkey, value, hproto, hfound⟩ | hother
    · subst hkey
      exact .inl ⟨value, hfound, (h.proto hproto).1, .inr ⟨rfl, hproto⟩⟩
    · exact .inr hother

end Invariant

section Reload
variable (positive : JsonValue → Option Bool)

/-- What a filter adds to the values to send. -/
def contribution (state : FilterState) (filter : Filter) : Option Js :=
  (state.get filter.id).filter fun value => keeps positive value == some true

/-- The values to send, as they are read back. -/
def written (filters : List Filter) (state : FilterState) : List JsonValue :=
  (filters.filterMap (contribution positive state)).map Js.toJson

/-- The state that is read back from them. -/
def reloaded (filters : List Filter) (state : FilterState) : FilterState :=
  ⟨assigned (written positive filters state), heir (written positive filters state)⟩

variable {positive} {filters : List Filter} {filter : Filter} {state : FilterState} {id : String}
  {value : JsonValue} {found : Js}

theorem contribution_eq_some : contribution positive state filter = some found ↔
    state.get filter.id = some found ∧ keeps positive found = some true := by
  rw [contribution, Option.filter_eq_some_iff, beq_iff_eq]

theorem Tidy.toValues_eq (h : Tidy filters state) (positive : JsonValue → Option Bool) :
    toValues positive filters state = some (filters.filterMap (contribution positive state)) := by
  refine keepAll_eq_some.mpr ⟨fun found hmem => ?_, List.filter_filterMap⟩
  obtain ⟨filter, -, hget⟩ := List.mem_filterMap.mp hmem
  rcases h.get_cases positive hget with ⟨value, rfl, hcontrol, -⟩ | ⟨-, hkeep⟩
  · by_cases hvalue : value = emptied filter.id
    · rw [hvalue, keeps, keepsJson_emptied]
      rfl
    · rw [keeps, hcontrol.keepsJson_eq hvalue]
      rfl
  · rw [hkeep]
    rfl

/-- What is written with an id is what the control of a filter with this id has set. -/
theorem Tidy.mem_named (h : Tidy filters state) :
    value ∈ named (written positive filters state) id ↔ (∃ filter ∈ filters, filter.id = id) ∧
      state.get id = some (.json value) ∧ ControlValue id value ∧ value ≠ emptied id := by
  simp only [named, written, List.mem_filter, List.mem_map, List.mem_filterMap,
    contribution_eq_some, decide_eq_true_eq]
  constructor
  · rintro ⟨⟨found, ⟨filter, hfilter, hget, hkeep⟩, rfl⟩, hid⟩
    rcases h.get_cases positive hget with ⟨value, rfl, hcontrol, -⟩ | ⟨hnone, -⟩
    · obtain rfl : filter.id = id := Option.some.inj (hcontrol.filterId_eq.symm.trans hid)
      refine ⟨⟨filter, hfilter, rfl⟩, hget, hcontrol, fun hvalue => ?_⟩
      change value = _ at hvalue
      rw [hvalue, keeps, keepsJson_emptied] at hkeep
      cases hkeep
    · rw [hnone] at hid
      cases hid
  · rintro ⟨⟨filter, hfilter, rfl⟩, hget, hcontrol, hvalue⟩
    exact ⟨⟨.json value, ⟨filter, hfilter, hget, hcontrol.keepsJson_eq hvalue⟩, rfl⟩,
      hcontrol.filterId_eq⟩

theorem Tidy.getLast?_named (h : Tidy filters state) :
    (named (written positive filters state) id).getLast? = some value ↔
      value ∈ named (written positive filters state) id := by
  refine ⟨List.mem_of_getLast?, fun hmem => ?_⟩
  cases hlast : (named (written positive filters state) id).getLast? with
  | none =>
    rw [List.getLast?_eq_none_iff.mp hlast] at hmem
    cases hmem
  | some last =>
    have hget := (h.mem_named.mp (List.mem_of_getLast? hlast)).2.1
    rw [(h.mem_named.mp hmem).2.1] at hget
    cases hget
    rfl

theorem Tidy.reloaded_own (h : Tidy filters state) :
    (reloaded positive filters state).own id = some value ↔
      id ≠ "__proto__" ∧ value ∈ named (written positive filters state) id := by
  change assigned (written positive filters state) id = some value ↔ _
  rw [assigned]
  split
  · rename_i hid
    subst hid
    rw [List.dropWhile_eq_nil_iff.mpr fun u hu => by
      rw [(h.mem_named.mp hu).2.2.1.hasProto_eq]
      rfl]
    simp
  · rename_i hid
    rw [h.getLast?_named]
    exact ⟨fun hmem => ⟨hid, hmem⟩, And.right⟩

theorem Tidy.reloaded_proto (h : Tidy filters state) :
    (reloaded positive filters state).proto = some value ↔
      value ∈ named (written positive filters state) "__proto__" := by
  change heir (written positive filters state) = some value ↔ _
  have hnone : (named (written positive filters state) "__proto__").find? hasProto = none :=
    List.find?_eq_none.mpr fun u hu => by
      rw [(h.mem_named.mp hu).2.2.1.hasProto_eq]
      exact Bool.false_ne_true
  rw [heir, hnone, Option.none_or, h.getLast?_named]

theorem Tidy.reload (h : Tidy filters state) : Tidy filters (reloaded positive filters state) where
  own hget := by
    obtain ⟨hid, hmem⟩ := h.reloaded_own.mp hget
    exact ⟨hid, (h.mem_named.mp hmem).2.2.1⟩
  proto hget := by
    obtain ⟨hfilter, -, hcontrol, -⟩ := h.mem_named.mp (h.reloaded_proto.mp hget)
    exact ⟨hcontrol, hfilter⟩

/-- The JSON functions write a text for the values, and read them back from it. -/
theorem parseState_stringify {parse : String → Option JsonValue} {stringify : JsonValue → String}
    {values : List Js} (h : Returns parse stringify values) :
    parseState parse (some (stringify (toArray values))) =
      ⟨assigned (values.map Js.toJson), heir (values.map Js.toJson)⟩ := by
  rw [parseState_eq, elements, if_neg h.1, h.2]
  exact foldl_assign _

theorem Built.tidy {parse : String → Option JsonValue} {stringify : JsonValue → String}
    (h : Built positive parse stringify filters state) : Tidy filters state := by
  induction h with
  | empty => exact .empty
  | input _ hfilter hrespond ih =>
    exact ih.update hfilter fun v hv => respond_control (hv ▸ hrespond)
  | reload _ hvalues hreturns ih =>
    rw [ih.toValues_eq positive] at hvalues
    rw [parseState_stringify hreturns, ← Option.some.inj hvalues]
    exact ih.reload

end Reload

section Stability
variable {positive : JsonValue → Option Bool} {filters : List Filter} {filter : Filter}
  {state : FilterState} {id : String} {value : JsonValue}

/-- The values to send are the same after they were read back. -/
def Stable (positive : JsonValue → Option Bool) (parse : String → Option JsonValue)
    (stringify : JsonValue → String) (filters : List Filter) (state : FilterState) : Prop :=
  ∃ values, toValues positive filters state = some values ∧
    toValues positive filters (parseState parse (some (stringify (toArray values)))) = some values

/-- Where one function only leaves out values of another and the values are the same, nothing is
left out. -/
theorem eq_of_filterMap_eq {α β : Type} {f g : α → Option β} {l : List α}
    (hfg : ∀ x ∈ l, f x = none ∨ f x = g x) (h : l.filterMap f = l.filterMap g) :
    ∀ x ∈ l, f x = g x := by
  have hlength : ∀ l : List α, (∀ x ∈ l, f x = none ∨ f x = g x) →
      (l.filterMap f).length ≤ (l.filterMap g).length := fun l => by
    induction l with
    | nil => exact fun _ => le_rfl
    | cons x l ih =>
      intro hfg
      have htail := ih fun y hy => hfg y (List.mem_cons_of_mem _ hy)
      rcases hfg x List.mem_cons_self with hx | hx
      · cases hg : g x with
        | none => simpa [hx, hg] using htail
        | some value => simpa [hx, hg] using Nat.le_succ_of_le htail
      · cases hg : g x <;> simpa [hx, hg] using htail
  induction l with
  | nil => exact fun x hx => by cases hx
  | cons x l ih =>
    have htail := hlength l fun y hy => hfg y (List.mem_cons_of_mem _ hy)
    have hx : f x = g x := by
      rcases hfg x List.mem_cons_self with hx | hx
      · cases hg : g x with
        | none => exact hx
        | some value =>
          have hlen := congrArg List.length h
          rw [List.filterMap_cons_none hx, List.filterMap_cons_some hg, List.length_cons] at hlen
          omega
      · exact hx
    refine List.forall_mem_cons.mpr ⟨hx, ih (fun y hy => hfg y (List.mem_cons_of_mem _ hy)) ?_⟩
    cases hg : g x with
    | none => rwa [List.filterMap_cons_none (hx.trans hg), List.filterMap_cons_none hg] at h
    | some value =>
      rw [List.filterMap_cons_some (hx.trans hg), List.filterMap_cons_some hg] at h
      exact (List.cons.inj h).2

/-- Where nothing was set, what is inherited stays inherited. -/
theorem Tidy.reloaded_get_of_unset (h : Tidy filters state)
    (hproto : (reloaded positive filters state).proto = state.proto) (hown : state.own id = none) :
    (reloaded positive filters state).get id = state.get id := by
  have hunset : (reloaded positive filters state).own id = none := by
    refine Option.eq_none_iff_forall_ne_some.mpr fun value hvalue => ?_
    obtain ⟨hid, hmem⟩ := h.reloaded_own.mp hvalue
    obtain ⟨-, hget, hcontrol, -⟩ := h.mem_named.mp hmem
    rcases h.get_cases positive hget with ⟨v, -, -, hset | ⟨hkey, -⟩⟩ | ⟨hnone, -⟩
    · rw [hown] at hset
      cases hset
    · exact hid hkey
    · rw [Js.toJson, hcontrol.filterId_eq] at hnone
      cases hnone
  rw [FilterState.get, FilterState.get, hunset, hown, hproto]

theorem Tidy.reloaded_own_of_kept (h : Tidy filters state) (hfilter : filter ∈ filters)
    (hown : state.own filter.id = some value) (hvalue : value ≠ emptied filter.id) :
    (reloaded positive filters state).own filter.id = some value := by
  obtain ⟨hid, hcontrol⟩ := h.own hown
  have hget : state.get filter.id = some (.json value) := by rw [FilterState.get, hown]
  exact h.reloaded_own.mpr
    ⟨hid, h.mem_named.mpr ⟨⟨filter, hfilter, rfl⟩, hget, hcontrol, hvalue⟩⟩

/-- A multi-select that was emptied is not set again. -/
theorem Tidy.reloaded_own_of_emptied (h : Tidy filters state)
    (hown : state.own id = some (emptied id)) :
    (reloaded positive filters state).own id = none := by
  refine Option.eq_none_iff_forall_ne_some.mpr fun value hvalue => ?_
  obtain ⟨-, hget, -, hne⟩ := h.mem_named.mp (h.reloaded_own.mp hvalue).2
  rw [FilterState.get, hown] at hget
  cases hget
  exact hne rfl

theorem Tidy.get_proto (h : Tidy filters state) :
    state.get "__proto__" = inherited state.proto "__proto__" := by
  cases hown : state.own "__proto__" with
  | none => rw [FilterState.get, hown]
  | some value => exact absurd rfl (h.own hown).1

/-- A value with the id of the prototype is what was assigned to it. -/
theorem Tidy.get_proto_eq_json (h : Tidy filters state) :
    state.get "__proto__" = some (.json value) ↔ state.proto = some value := by
  rw [h.get_proto]
  cases hproto : state.proto with
  | none => exact iff_of_false (fun hget => by cases hget) (fun hget => by cases hget)
  | some proto =>
    have hown : ownProperty proto "__proto__" = none := by
      have hvalue := (h.proto hproto).1.hasProto_eq
      rwa [hasProto, Option.isSome_eq_false_iff, Option.isNone_iff_eq_none] at hvalue
    rw [inherited, hown]
    change some (Js.json proto) = some (.json value) ↔ some proto = some value
    simp

/-- The prototype is read back, unless it is a multi-select that was emptied. -/
theorem Tidy.reloaded_proto_eq (h : Tidy filters state)
    (hne : state.proto ≠ some (emptied "__proto__")) :
    (reloaded positive filters state).proto = state.proto := by
  refine Option.ext fun value => ?_
  rw [h.reloaded_proto, h.mem_named, h.get_proto_eq_json]
  constructor
  · exact fun hvalue => hvalue.2.1
  · intro hproto
    obtain ⟨hcontrol, hfilter⟩ := h.proto hproto
    exact ⟨hfilter, hproto, hcontrol, fun hvalue => hne (hvalue ▸ hproto)⟩

theorem Tidy.reloaded_proto_of_emptied (h : Tidy filters state)
    (hproto : state.proto = some (emptied "__proto__")) :
    (reloaded positive filters state).proto = none := by
  refine Option.eq_none_iff_forall_ne_some.mpr fun value hvalue => ?_
  rw [h.reloaded_proto, h.mem_named, h.get_proto_eq_json, hproto] at hvalue
  exact hvalue.2.2.2 (Option.some.inj hvalue.2.1).symm

/-- A property of the language is found under its own name, and `__proto__` only where the prototype
is none that was assigned. -/
theorem get_eq_builtin {name : String} (h : state.get id = some (.builtin name)) :
    name = id ∧ (id = "__proto__" → state.proto = none) := by
  unfold FilterState.get at h
  split at h
  · cases h
  · unfold inherited at h
    split at h
    · rename_i hproto
      split at h
      · cases h
        exact ⟨rfl, fun _ => hproto⟩
      · cases h
    · split at h
      · cases h
      · split at h
        · cases h
        · rename_i hid
          split at h
          · cases h
            exact ⟨rfl, fun hname => absurd hname hid⟩
          · cases h

theorem Tidy.own_of_get_emptied (h : Tidy filters state)
    (hproto : state.proto ≠ some (emptied "__proto__"))
    (hget : state.get id = some (.json (emptied id))) : state.own id = some (emptied id) := by
  rcases h.get_cases (fun _ => none) hget with ⟨value, hvalue, -, hset | ⟨rfl, hset⟩⟩ | ⟨-, hkeep⟩
  · cases hvalue
    exact hset
  · cases hvalue
    exact absurd hset hproto
  · rw [keeps, keepsJson_emptied] at hkeep
    cases hkeep

theorem contribution_of_emptied (hown : state.own filter.id = some (emptied filter.id)) :
    contribution positive state filter = none := by
  rw [contribution, FilterState.get, hown]
  rfl

theorem Tidy.reloaded_contribution (h : Tidy filters state)
    (hproto : (reloaded positive filters state).proto = state.proto) (hfilter : filter ∈ filters)
    (hne : state.own filter.id ≠ some (emptied filter.id)) :
    contribution positive (reloaded positive filters state) filter =
      contribution positive state filter := by
  unfold contribution
  cases hown : state.own filter.id with
  | none => rw [h.reloaded_get_of_unset hproto hown]
  | some value =>
    have hvalue : value ≠ emptied filter.id := fun hvalue => hne (hvalue ▸ hown)
    rw [FilterState.get, FilterState.get, hown, h.reloaded_own_of_kept hfilter hown hvalue]

/-- In the place of a multi-select that was emptied stands what its id inherits. -/
theorem Tidy.reloaded_contribution_of_emptied (h : Tidy filters state)
    (hproto : (reloaded positive filters state).proto = state.proto)
    (hown : state.own filter.id = some (emptied filter.id)) :
    contribution positive (reloaded positive filters state) filter =
      inherited state.proto filter.id := by
  rw [contribution, FilterState.get, h.reloaded_own_of_emptied hown, hproto]
  dsimp only
  cases hfound : inherited state.proto filter.id with
  | none => rfl
  | some found =>
    rcases h.inherited_cases positive hfound with ⟨hid, -⟩ | ⟨-, hkeep⟩
    · exact absurd hid (h.own hown).1
    · exact Option.filter_some_pos (by rw [hkeep]; rfl)

/-- If the values come back, no prototype was emptied: `Object.prototype` would be found in its
place. -/
theorem Tidy.proto_ne_emptied (h : Tidy filters state)
    (heq : filters.filterMap (contribution positive (reloaded positive filters state)) =
      filters.filterMap (contribution positive state)) :
    state.proto ≠ some (emptied "__proto__") := fun hproto => by
  obtain ⟨-, filter, hfilter, hid⟩ := h.proto hproto
  have hfound : contribution positive (reloaded positive filters state) filter =
      some (.builtin "__proto__") := by
    rw [contribution_eq_some, hid, h.reload.get_proto, h.reloaded_proto_of_emptied hproto]
    exact ⟨rfl, rfl⟩
  have hmem := List.mem_filterMap.mpr ⟨filter, hfilter, hfound⟩
  rw [heq] at hmem
  obtain ⟨other, -, hother⟩ := List.mem_filterMap.mp hmem
  obtain ⟨hname, hnone⟩ := get_eq_builtin (contribution_eq_some.mp hother).1
  rw [hnone hname.symm] at hproto
  cases hproto

/-- What is left out of the URL comes back as nothing exactly if nothing of its name is
inherited. -/
theorem Tidy.contributions_eq_iff (h : Tidy filters state) :
    filters.filterMap (contribution positive (reloaded positive filters state)) =
        filters.filterMap (contribution positive state) ↔
      ∀ filter ∈ filters, state.get filter.id = some (.json (emptied filter.id)) →
        inherited state.proto filter.id = none := by
  constructor
  · intro heq filter hfilter hget
    have hne := h.proto_ne_emptied heq
    have hproto : (reloaded positive filters state).proto = state.proto := h.reloaded_proto_eq hne
    have hown := h.own_of_get_emptied hne hget
    have hleft : ∀ other ∈ filters, contribution positive state other = none ∨
        contribution positive state other =
          contribution positive (reloaded positive filters state) other := fun other hother => by
      by_cases hemptied : state.own other.id = some (emptied other.id)
      · exact .inl (contribution_of_emptied hemptied)
      · exact .inr (h.reloaded_contribution hproto hother hemptied).symm
    rw [← h.reloaded_contribution_of_emptied hproto hown,
      ← eq_of_filterMap_eq hleft heq.symm filter hfilter]
    exact contribution_of_emptied hown
  · intro hfree
    have hne : state.proto ≠ some (emptied "__proto__") := fun hproto => by
      obtain ⟨-, filter, hfilter, hid⟩ := h.proto hproto
      have hget := h.get_proto_eq_json.mpr hproto
      have hnone := hfree filter hfilter (by rw [hid]; exact hget)
      rw [hid, ← h.get_proto, hget] at hnone
      cases hnone
    have hproto : (reloaded positive filters state).proto = state.proto := h.reloaded_proto_eq hne
    refine List.filterMap_congr fun filter hfilter => ?_
    by_cases hown : state.own filter.id = some (emptied filter.id)
    · rw [h.reloaded_contribution_of_emptied hproto hown, contribution_of_emptied hown]
      exact hfree filter hfilter (by rw [FilterState.get, hown])
    · exact h.reloaded_contribution hproto hfilter hown

theorem Built.stable_iff {parse : String → Option JsonValue} {stringify : JsonValue → String}
    (h : Built positive parse stringify filters state)
    (hreturns : ∀ values, toValues positive filters state = some values →
      Returns parse stringify values) :
    Stable positive parse stringify filters state ↔ ∀ filter ∈ filters,
      state.get filter.id = some (.json (emptied filter.id)) →
        inherited state.proto filter.id = none := by
  have htidy := h.tidy
  have hsent := htidy.toValues_eq positive
  have hread := parseState_stringify (hreturns _ hsent)
  have hagain : toValues positive filters (reloaded positive filters state) = _ :=
    htidy.reload.toValues_eq positive
  have hiff : filters.filterMap (contribution positive (reloaded positive filters state)) =
      filters.filterMap (contribution positive state) ↔ _ := htidy.contributions_eq_iff
  rw [← hiff]
  constructor
  · rintro ⟨values, hvalues, hback⟩
    obtain rfl := Option.some.inj (hsent.symm.trans hvalues)
    rw [hread] at hback
    exact Option.some.inj (hagain.symm.trans hback)
  · intro heq
    refine ⟨_, hsent, ?_⟩
    rw [hread]
    exact hagain.trans (congrArg some heq)

/-- A parameter is safe exactly if what it gives to each filter is harmless, and what the controls
built comes back exactly if no multi-select was emptied whose id is inherited. -/
theorem parameter_safe_iff_and_stable_iff (positive : JsonValue → Option Bool)
    (parse : String → Option JsonValue) (stringify describe : JsonValue → String)
    (raw : Option String) (declared : JsonValue) :
    (Safe positive describe (parseFilters declared) (parseState parse raw) ↔
      ∀ filter ∈ parseFilters declared, ∀ found ∈ given (elements parse raw) filter.id,
        Harmless positive ((parseFilters declared).map Filter.id) found) ∧
    ∀ (filters : List Filter) (state : FilterState),
      Built positive parse stringify filters state →
      (∀ values, toValues positive filters state = some values →
        Returns parse stringify values) →
      (Stable positive parse stringify filters state ↔ ∀ filter ∈ filters,
        state.get filter.id = some (.json (emptied filter.id)) →
          inherited state.proto filter.id = none) := by
  refine ⟨?_, fun filters state hbuilt hreturns => hbuilt.stable_iff hreturns⟩
  simp only [safe_iff, get_parseState]

section Pressed

/-- Two filters of a usual source. -/
def usual : List Filter :=
  [⟨"author", "Author", .text⟩, ⟨"genre", "Genre", .multiSelect ["Action"] ["Action"] true⟩]

/-- A multi-select with an inherited name, behind two usual filters. -/
def shapes : List Filter := usual ++ [⟨"constructor", "Shape", .multiSelect ["A"] ["A"] false⟩]

/-- What the first two filters are set to. -/
def settledValues : List Js :=
  [.json (textValue "author" "Oda"), .json (multiSelectValue "genre" ["Action"] [])]

def writtenText : String :=
  "[\x7b\"Text\":\x7b\"id\":\"author\",\"value\":\"Oda\"\x7d\x7d,\x7b\"MultiSelect\":" ++
    "\x7b\"id\":\"genre\",\"included\":[\"Action\"],\"excluded\":[]\x7d\x7d]"

def parseWritten (text : String) : Option JsonValue :=
  if text = writtenText then some (toArray settledValues) else none

def settled : FilterState :=
  (FilterState.empty.update "author" (some (textValue "author" "Oda"))).update "genre"
    (some (multiSelectValue "genre" ["Action"] []))

def pressedOnce : FilterState :=
  settled.update "constructor" (some (multiSelectValue "constructor" ["A"] []))

def pressedTwice : FilterState := pressedOnce.update "constructor" (some (emptied "constructor"))

private theorem settled_built {positive : JsonValue → Option Bool} {stringify : JsonValue → String}
    {filters : List Filter} (h : ∀ filter ∈ usual, filter ∈ filters) :
    Built positive parseWritten stringify filters settled := by
  have hauthor : respond ⟨"author", "Author", .text⟩ (FilterState.empty.get "author")
      (.typed " Oda") = some (some (textValue "author" "Oda")) := rfl
  have hgenre : respond ⟨"genre", "Genre", .multiSelect ["Action"] ["Action"] true⟩
      ((FilterState.empty.update "author" (some (textValue "author" "Oda"))).get "genre")
      (.pressed 0) = some (some (multiSelectValue "genre" ["Action"] [])) := rfl
  exact .input (.input .empty (h _ (by simp [usual])) hauthor) (h _ (by simp [usual])) hgenre

private theorem pressedTwice_built {positive : JsonValue → Option Bool}
    {stringify : JsonValue → String} :
    Built positive parseWritten stringify shapes pressedTwice := by
  have hfirst : respond ⟨"constructor", "Shape", .multiSelect ["A"] ["A"] false⟩
      (settled.get "constructor") (.pressed 0) =
        some (some (multiSelectValue "constructor" ["A"] [])) := rfl
  have hsecond : respond ⟨"constructor", "Shape", .multiSelect ["A"] ["A"] false⟩
      (pressedOnce.get "constructor") (.pressed 0) = some (some (emptied "constructor")) := rfl
  have hsettled := @settled_built positive stringify shapes fun filter => List.mem_append_left _
  exact .input (.input hsettled (by simp [shapes]) hfirst) (by simp [shapes]) hsecond

/-- The author and the genre come back. A multi-select `constructor` that was pressed twice comes
back beside them as the function of this name. -/
theorem pressed_twice_not_stable :
    Stable (fun _ => some false) parseWritten (fun _ => writtenText) usual settled ∧
      ¬ Stable (fun _ => some false) parseWritten (fun _ => writtenText) shapes pressedTwice := by
  have hiff := (parameter_safe_iff_and_stable_iff (fun _ => some false) parseWritten
    (fun _ => writtenText) (fun _ => "") none .null).2
  have hreturns : Returns parseWritten (fun _ => writtenText) settledValues :=
    ⟨by decide, if_pos rfl⟩
  constructor
  · refine (hiff _ _ (settled_built fun _ h => h) fun values hvalues => ?_).mpr
      fun filter hfilter hempty => ?_
    · cases hvalues
      exact hreturns
    · simp only [usual, List.mem_cons, List.not_mem_nil, or_false] at hfilter
      rcases hfilter with rfl | rfl
      · have hauthor : settled.get "author" = some (.json (textValue "author" "Oda")) := rfl
        simp [hauthor, textValue, emptied, multiSelectValue] at hempty
      · have hgenre : settled.get "genre" =
            some (.json (multiSelectValue "genre" ["Action"] [])) := rfl
        simp [hgenre, emptied, multiSelectValue, strings] at hempty
  · intro hstable
    have hnone := (hiff _ _ pressedTwice_built fun values hvalues => by
      cases hvalues
      exact hreturns).mp hstable ⟨"constructor", "Shape", .multiSelect ["A"] ["A"] false⟩
        (by simp [shapes]) rfl
    cases hnone

end Pressed

/-- A multi-select without its lists is kept under its id, and the lengths are read of no list. -/
theorem lists_missing_not_safe :
    ¬ Safe (fun _ => some false) (fun _ => "")
      (parseFilters (.array [.object [("id", .string "a"), ("type", .string "multi-select")]]))
      (parseState (fun text =>
        if text = "[\x7b\"MultiSelect\":\x7b\"id\":\"a\"\x7d\x7d]" then
          some (.array [.object [("MultiSelect", .object [("id", .string "a")])]])
        else none)
        (some "[\x7b\"MultiSelect\":\x7b\"id\":\"a\"\x7d\x7d]")) := by
  rintro ⟨values, _, hvalues, -⟩
  cases hvalues

end Stability

end Nyuka.Web.Filters
