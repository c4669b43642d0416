import Nyuka.Api.Problem
import Nyuka.Foundation.Runs
import Nyuka.Web.FilterReload

/-! What a reader chooses with a source's filters, and what the server makes of it. The browser
keeps the choices in the URL only, and reads them from there for every input. -/
namespace Nyuka.Web.Filters
open Nyuka.Runtime (FilterValue)

section Literals

/-- The object a control writes for a value. -/
def literal : FilterValue → JsonValue
  | .text id value => textValue id value
  | .sort id index ascending => sortValue id (.number (toString index.toInt)) ascending
  | .check id value =>
    .object [("Check", .object [("id", .string id), ("value", .number (toString value.toInt))])]
  | .select id value => selectValue id value
  | .multiSelect id included excluded => multiSelectValue id included excluded

@[simp]
theorem readI32_toString (n : Int32) : Runtime.readI32 (.number (toString n.toInt)) = some n := by
  have hlow := n.le_toInt
  have hhigh := n.toInt_lt
  have hdigit (k : ℕ) : ∀ c ∈ Nat.toDigits 10 k, c.isDigit = true :=
    fun c hc => Text.isDigit_of_mem_toDigits hc
  have hplain (k : ℕ) :
      ¬ (Nat.toDigits 10 k = [] ∨ ¬ (Nat.toDigits 10 k).all Char.isDigit = true) := by
    rw [not_or, not_not]
    exact ⟨Nat.toDigits_ne_nil, List.all_eq_true.mpr (hdigit k)⟩
  have hback : Int32.ofInt n.toInt = n := Int32.ofInt_toInt n
  rcases hn : n.toInt with k | k
  · have htext : (toString (Int.ofNat k)).toList = Nat.toDigits 10 k := by
      change (toString k).toList = _
      rw [Nat.toString_eq_ofList_toDigits, String.toList_ofList]
    have hhead : ¬ (Nat.toDigits 10 k).head? = some '-' := by
      intro hs
      obtain ⟨rest, hrest⟩ := List.head?_eq_some_iff.mp hs
      exact absurd (hdigit k '-' (by rw [hrest]; exact List.mem_cons_self)) (by decide)
    rw [hn] at hback hhigh
    change (k : ℤ) < 2 ^ 31 at hhigh
    simp only [Runtime.readI32, htext, hhead, if_false, hplain, Nat.ofDigitChars_ten_toDigits]
    rw [if_pos (by omega)]
    exact congrArg some hback
  · have htext : (toString (Int.negSucc k)).toList = '-' :: Nat.toDigits 10 (k + 1) := by
      change ("-" ++ toString (k + 1)).toList = _
      rw [String.toList_append, Nat.toString_eq_ofList_toDigits, String.toList_ofList]
      simp
    rw [hn] at hback hlow
    simp only [Runtime.readI32, htext, List.head?_cons, if_true, List.tail_cons, hplain, if_false,
      Nat.ofDigitChars_ten_toDigits]
    rw [if_neg (by omega)]
    exact congrArg some hback

@[simp] theorem readStrings_strings (items : List String) :
    Runtime.readStrings (strings items) = some items := by
  change (items.map JsonValue.string).mapM JsonValue.asStr = some items
  induction items with
  | nil => rfl
  | cons item items ih =>
    rw [List.map_cons, List.mapM_cons, ih]
    rfl

@[simp]
theorem asStrings_strings (items : List String) : asStrings (some (strings items)) = items := by
  change (items.map JsonValue.string).filterMap JsonValue.asStr = items
  induction items with
  | nil => rfl
  | cons item items ih =>
    have hitem : JsonValue.asStr (.string item) = some item := rfl
    rw [List.map_cons, List.filterMap_cons_some hitem, ih]

@[simp] private theorem fromValue_literal (value : FilterValue) :
    FilterValue.fromValue (literal value) = some value := by
  cases value with
  | text id value | select id value => rfl
  | sort id index ascending =>
    change ((Runtime.readI32 (.number (toString index.toInt))).bind fun index =>
      some (FilterValue.sort id index ascending)) = _
    rw [readI32_toString]
    rfl
  | check id value =>
    change ((Runtime.readI32 (.number (toString value.toInt))).bind fun value =>
      some (FilterValue.check id value)) = _
    rw [readI32_toString]
    rfl
  | multiSelect id included excluded =>
    change ((Runtime.readStrings (strings included)).bind fun included =>
      (Runtime.readStrings (strings excluded)).bind fun excluded =>
        some (FilterValue.multiSelect id included excluded)) = _
    rw [readStrings_strings, readStrings_strings]
    rfl

@[simp] theorem mapM_literal (values : List FilterValue) :
    (values.map literal).mapM FilterValue.fromValue = some values := by
  induction values with
  | nil => rfl
  | cons value values ih =>
    rw [List.map_cons, List.mapM_cons, fromValue_literal, ih]
    rfl

end Literals

section Chosen

/-- The value that is chosen under each id. -/
abbrev Choices := String → Option FilterValue

/-- A multi-select with no option in it chooses nothing. -/
def isChosen : FilterValue → Bool
  | .multiSelect _ [] [] => false
  | _ => true

def ascends : Option FilterValue → Bool
  | some (.sort _ _ ascending) => ascending
  | _ => false

def includes : Option FilterValue → List String
  | some (.multiSelect _ included _) => included
  | _ => []

def excludes : Option FilterValue → List String
  | some (.multiSelect _ _ excluded) => excluded
  | _ => []

/-- What an input makes of the value that is chosen for a filter, if its control takes it. -/
def react (filter : Filter) (choice : Option FilterValue) (input : Input) :
    Option (Option FilterValue) :=
  match filter.kind, input with
  | .text, .typed text =>
    some (if trim text = "" then none else some (.text filter.id (trim text)))
  | .check, .ticked checked => some (if checked then some (.check filter.id 1) else none)
  | .select options values, .chosen value =>
    if value = "" then some none
    else if (List.range options.length).any fun i => sent options values i = some value then
      some (some (.select filter.id value))
    else none
  | .sort options _, .chosen value =>
    if value = "" then some none
    else ((List.range options.length).find? fun i => toString i = value).map fun index =>
      some (.sort filter.id (.ofNat index) (ascends choice))
  | .sort _ canAscend, .reversed =>
    match choice with
    | some (.sort _ index ascending) =>
      if canAscend then some (some (.sort filter.id index !ascending)) else none
    | _ => none
  | .multiSelect options values canExclude, .pressed index =>
    (sent options values index).map fun option =>
      let (included, excluded) := press canExclude (includes choice) (excludes choice) option
      some (.multiSelect filter.id (values.filter (· ∈ included)) (values.filter (· ∈ excluded)))
  | _, _ => none

/-- The filters that a source may declare: none whose id an empty object inherits, and no list
longer than the numbers of its places. -/
structure Plain (filter : Filter) : Prop where
  id : filter.id ∉ objectPrototype
  places : ∀ options canAscend, filter.kind = .sort options canAscend → options.length ≤ 2 ^ 31

variable {filter : Filter} {choice : Option FilterValue} {input : Input}

@[simp] theorem variantOf_literal (variant : String) (choice : Option FilterValue) :
    variantOf variant (choice.map fun v => .json (literal v)) =
      choice.bind fun v => (literal v).get variant := by
  cases choice <;> rfl

theorem ascending_literal (choice : Option FilterValue) :
    ((((variantOf "Sort" (choice.map fun v => .json (literal v))).bind (·.get "ascending")).bind
      JsonValue.asBool).getD false) = ascends choice := by
  rw [variantOf_literal]
  rcases choice with _ | v
  · rfl
  · cases v <;> rfl

theorem included_literal (choice : Option FilterValue) :
    asStrings ((variantOf "MultiSelect" (choice.map fun v => .json (literal v))).bind
      (·.get "included")) = includes choice := by
  rw [variantOf_literal]
  rcases choice with _ | v
  · rfl
  · cases v with
    | multiSelect id included excluded => exact asStrings_strings included
    | text | sort | check | select => rfl

private theorem excluded_literal (choice : Option FilterValue) :
    asStrings ((variantOf "MultiSelect" (choice.map fun v => .json (literal v))).bind
      (·.get "excluded")) = excludes choice := by
  rw [variantOf_literal]
  rcases choice with _ | v
  · rfl
  · cases v with
    | multiSelect id included excluded => exact asStrings_strings excluded
    | text | sort | check | select => rfl

/-- A control that holds the object of a value does to it what the input does to the value. -/
theorem respond_literal (hplain : Plain filter) :
    respond filter (choice.map fun v => .json (literal v)) input =
      (react filter choice input).map (Option.map literal) := by
  obtain ⟨id, title, kind⟩ := filter
  cases kind with
  | text =>
    cases input with
    | typed text =>
      simp only [respond, react, Option.map_some]
      split <;> rfl
    | ticked | chosen | reversed | pressed => rfl
  | check =>
    cases input with
    | ticked checked => cases checked <;> rfl
    | typed | chosen | reversed | pressed => rfl
  | select options values =>
    cases input with
    | chosen value =>
      simp only [respond, react]
      split
      · rfl
      · split <;> rfl
    | typed | ticked | reversed | pressed => rfl
  | sort options canAscend =>
    cases input with
    | chosen value =>
      simp only [respond, react, ascending_literal]
      split
      · rfl
      · rw [Option.map_map]
        refine Option.map_congr fun index hindex => ?_
        have hlt := List.mem_range.mp (List.mem_of_find?_eq_some hindex)
        have hplace : index < 2 ^ 31 := hlt.trans_le (hplain.places options canAscend rfl)
        have htext : toString (Int32.ofNat index).toInt = toString index := by
          rw [Int32.toInt_ofNat_of_lt hplace]
          rfl
        rw [Function.comp_apply, Option.map_some, literal, htext]
    | reversed =>
      simp only [respond, react, variantOf_literal]
      rcases choice with _ | v
      · rfl
      · cases v with
        | sort key index ascending => cases canAscend <;> rfl
        | text | check | select | multiSelect => rfl
    | typed | ticked | pressed => rfl
  | multiSelect options values canExclude =>
    cases input with
    | pressed index =>
      simp only [respond, react, included_literal, excluded_literal]
      cases sent options values index <;> rfl
    | typed | ticked | chosen | reversed => rfl
  | unsupported => cases input <;> rfl

end Chosen

section States
variable {filters : List Filter} {filter : Filter} {choices : Choices}
  {positive : JsonValue → Option Bool}

/-- The object that holds the values under their ids. -/
def stateOf (choices : Choices) : FilterState := ⟨fun id => (choices id).map literal, none⟩

/-- Every value is one that the control of a declared filter writes, under its id. -/
structure Controlled (filters : List Filter) (choices : Choices) : Prop where
  control : ∀ {id v}, choices id = some v → ControlValue id (literal v)
  declared : ∀ {id v}, choices id = some v → ∃ filter ∈ filters, filter.id = id

/-- Without the multi-selects that choose nothing. -/
def settle (choices : Choices) : Choices := fun id => (choices id).filter isChosen

/-- What is chosen, in the order of the declaration. -/
def chosenValues (filters : List Filter) (choices : Choices) : List FilterValue :=
  filters.filterMap fun filter => choices filter.id

theorem isChosen_iff {id : String} {v : FilterValue} (h : ControlValue id (literal v)) :
    isChosen v = true ↔ literal v ≠ emptied id := by
  have hid : v.id = id := by
    have hname := h.filterId_eq
    cases v <;> exact Option.some.inj hname
  subst hid
  cases v with
  | multiSelect id included excluded =>
    cases included with
    | nil =>
      cases excluded with
      | nil => exact iff_of_false Bool.false_ne_true fun h => h rfl
      | cons => simp [isChosen, literal, emptied, multiSelectValue, strings]
    | cons => simp [isChosen, literal, emptied, multiSelectValue, strings]
  | text | sort | check | select =>
    simp [isChosen, literal, emptied, multiSelectValue, textValue, sortValue, selectValue]

theorem Controlled.settle (h : Controlled filters choices) :
    Controlled filters (settle choices) where
  control hv := h.control (Option.filter_eq_some_iff.mp hv).1
  declared hv := h.declared (Option.filter_eq_some_iff.mp hv).1

theorem Controlled.tidy (hplain : ∀ filter ∈ filters, Plain filter)
    (h : Controlled filters choices) : Tidy filters (stateOf choices) where
  own {id value} hown := by
    obtain ⟨v, hv, rfl⟩ := Option.map_eq_some_iff.mp hown
    obtain ⟨filter, hfilter, rfl⟩ := h.declared hv
    refine ⟨fun hproto => (hplain filter hfilter).id ?_, h.control hv⟩
    rw [hproto]
    decide
  proto hproto := by cases hproto

theorem get_stateOf (hplain : Plain filter) :
    (stateOf choices).get filter.id = (choices filter.id).map fun v => .json (literal v) := by
  have hown : (stateOf choices).own filter.id = (choices filter.id).map literal := rfl
  cases hv : choices filter.id with
  | none =>
    rw [FilterState.get, hown, hv]
    exact if_neg hplain.id
  | some v =>
    rw [FilterState.get, hown, hv]
    rfl

theorem contribution_stateOf (hplain : Plain filter) (h : Controlled filters choices) :
    contribution positive (stateOf choices) filter =
      (settle choices filter.id).map fun v => .json (literal v) := by
  rw [contribution, get_stateOf hplain, Filters.settle]
  cases hv : choices filter.id with
  | none => rfl
  | some v =>
    have hcontrol := h.control hv
    by_cases hchosen : isChosen v = true
    · have hkeep : keepsJson positive (literal v) = some true :=
        hcontrol.keepsJson_eq ((isChosen_iff hcontrol).mp hchosen)
      change Option.filter _ (some _) = (Option.filter isChosen (some v)).map _
      rw [Option.filter_some, Option.filter_some, if_pos hchosen, keeps, hkeep]
      rfl
    · have hempty : literal v = emptied filter.id :=
        not_not.mp (mt (isChosen_iff hcontrol).mpr hchosen)
      change Option.filter _ (some _) = (Option.filter isChosen (some v)).map _
      rw [Option.filter_some, Option.filter_some, if_neg hchosen]
      change (if (keepsJson positive (literal v) == some true) = true then _ else none) = none
      rw [hempty, keepsJson_emptied]
      rfl

/-- What is sent is what is chosen. -/
theorem toValues_stateOf (hplain : ∀ filter ∈ filters, Plain filter)
    (h : Controlled filters choices) : toValues positive filters (stateOf choices) =
      some ((chosenValues filters (settle choices)).map fun v => .json (literal v)) := by
  rw [(h.tidy hplain).toValues_eq positive, chosenValues, List.map_filterMap]
  exact congrArg some (List.filterMap_congr fun filter hfilter =>
    contribution_stateOf (hplain filter hfilter) h)

theorem written_stateOf (hplain : ∀ filter ∈ filters, Plain filter)
    (h : Controlled filters choices) : written positive filters (stateOf choices) =
      (chosenValues filters (settle choices)).map literal := by
  have hvalues := Option.some.inj (((h.tidy hplain).toValues_eq positive).symm.trans
    (toValues_stateOf hplain h))
  rw [written, hvalues, List.map_map]
  rfl

/-- What is written is read back as it was chosen. -/
theorem reloaded_stateOf (hplain : ∀ filter ∈ filters, Plain filter)
    (h : Controlled filters choices) :
    reloaded positive filters (stateOf choices) = stateOf (settle choices) := by
  have htidy := h.tidy hplain
  refine congrArg₂ FilterState.mk (funext fun id => Option.ext fun value => ?_) ?_
  · change (reloaded positive filters (stateOf choices)).own id = some value ↔
      (settle choices id).map literal = some value
    rw [htidy.reloaded_own, htidy.mem_named]
    constructor
    · rintro ⟨-, ⟨filter, hfilter, rfl⟩, hget, hcontrol, hne⟩
      rw [get_stateOf (hplain filter hfilter)] at hget
      obtain ⟨v, hv, hjson⟩ := Option.map_eq_some_iff.mp hget
      cases hjson
      have hchosen := (isChosen_iff hcontrol).mpr hne
      exact Option.map_eq_some_iff.mpr ⟨v, Option.filter_eq_some_iff.mpr ⟨hv, hchosen⟩, rfl⟩
    · intro hvalue
      obtain ⟨v, hv, rfl⟩ := Option.map_eq_some_iff.mp hvalue
      obtain ⟨hv, hchosen⟩ := Option.filter_eq_some_iff.mp hv
      obtain ⟨filter, hfilter, rfl⟩ := h.declared hv
      have hcontrol := h.control hv
      refine ⟨(htidy.own (Option.map_eq_some_iff.mpr ⟨v, hv, rfl⟩)).1, ⟨filter, hfilter, rfl⟩, ?_,
        hcontrol, (isChosen_iff hcontrol).mp hchosen⟩
      rw [get_stateOf (hplain filter hfilter), hv]
      rfl
  · refine Option.eq_none_iff_forall_ne_some.mpr fun value hvalue => ?_
    obtain ⟨⟨filter, hfilter, hid⟩, -⟩ := htidy.mem_named.mp (htidy.reloaded_proto.mp hvalue)
    refine (hplain filter hfilter).id ?_
    rw [hid]
    decide

end States

section Browsing

/-- The JSON functions of the browser and of the server. -/
structure JsonText where
  stringify : JsonValue → String
  parse : String → Option JsonValue
  fromStr : String → Except String JsonValue

/-- A text is written for the values that both read as it was meant. -/
structure JsonText.Reads (json : JsonText) (values : List FilterValue) : Prop where
  nonempty : json.stringify (.array (values.map literal)) ≠ ""
  parse : json.parse (json.stringify (.array (values.map literal))) =
    some (.array (values.map literal))
  fromStr : json.fromStr (json.stringify (.array (values.map literal))) =
    .ok (.array (values.map literal))

/-- An input to a filter's control, or to the button that clears them all. -/
inductive Event where
  | input (filter : Filter) (input : Input)
  | clear

section Page
variable (positive : JsonValue → Option Bool) (json : JsonText) (filters : List Filter)

/-- The parameter that the next state is kept in. -/
def onChange (next : FilterState) : Option (Option String) :=
  (toValues positive filters next).map fun values =>
    if values.isEmpty then none else some (json.stringify (toArray values))

/-- What an event makes of the parameter. Nothing comes back where the page throws, or has no such
control. -/
def browse (raw : Option String) : Event → Option (Option String)
  | .input filter input =>
    if filter ∈ filters then
      let state := parseState json.parse raw
      (respond filter (state.get filter.id) input).bind fun value =>
        onChange positive json filters (state.update filter.id value)
    else none
  | .clear => onChange positive json filters .empty

/-- What an event makes of the choices. -/
def choose (choices : Choices) : Event → Option Choices
  | .input filter input =>
    if filter ∈ filters then
      (react filter (choices filter.id) input).map fun choice =>
        settle (Function.update choices filter.id choice)
    else none
  | .clear => some fun _ => none

/-- The parameter for some values. -/
def parameter (values : List FilterValue) : Option String :=
  if values.isEmpty then none else some (json.stringify (.array (values.map literal)))

end Page

/-- `CatalogQuery::filters` -/
def catalogFilters (fromStr : String → Except String JsonValue) :
    Option String → Except Api.Problem JsonValue
  | none => .ok .null
  | some raw => (fromStr raw).mapError fun e => .invalid s!"`filters` is not valid JSON: {e}"

variable {positive : JsonValue → Option Bool} {json : JsonText} {filters : List Filter}
  {filter : Filter} {choices : Choices} {values : List FilterValue}

theorem onChange_stateOf (hplain : ∀ filter ∈ filters, Plain filter)
    (h : Controlled filters choices) : onChange positive json filters (stateOf choices) =
      some (parameter json (chosenValues filters (settle choices))) := by
  rw [onChange, toValues_stateOf hplain h, Option.map_some, parameter, toArray, List.map_map,
    List.isEmpty_map]
  rfl

/-- The state is in the parameter. -/
theorem parseState_parameter (hplain : ∀ filter ∈ filters, Plain filter)
    (h : Controlled filters choices) (hchosen : settle choices = choices)
    (hjson : json.Reads (chosenValues filters choices)) :
    parseState json.parse (parameter json (chosenValues filters choices)) = stateOf choices := by
  by_cases hnil : chosenValues filters choices = []
  · have hnone : choices = fun _ => none := by
      funext id
      refine Option.eq_none_iff_forall_ne_some.mpr fun v hv => ?_
      obtain ⟨filter, hfilter, rfl⟩ := h.declared hv
      have hmem : v ∈ chosenValues filters choices :=
        List.mem_filterMap.mpr ⟨filter, hfilter, hv⟩
      rw [hnil] at hmem
      cases hmem
    rw [hnil, hnone]
    rfl
  · have hvalues : (chosenValues filters choices).map literal =
        written (fun _ => none) filters (stateOf choices) := by
      rw [written_stateOf hplain h, hchosen]
    rw [parameter, if_neg (by simpa using hnil), parseState_eq, elements, if_neg hjson.nonempty,
      hjson.parse]
    change List.foldl assign .empty ((chosenValues filters choices).map literal) = _
    rw [foldl_assign, hvalues]
    exact (reloaded_stateOf hplain h).trans (congrArg stateOf hchosen)

theorem Controlled.none : Controlled filters fun _ => none :=
  ⟨fun h => (by cases h), fun h => (by cases h)⟩

@[simp] theorem settle_settle (choices : Choices) : settle (settle choices) = settle choices := by
  funext id
  change ((choices id).filter isChosen).filter isChosen = (choices id).filter isChosen
  cases choices id with
  | none => rfl
  | some v =>
    rw [Option.filter_some]
    split
    · next hchosen => rw [Option.filter_some, if_pos hchosen]
    · rfl

theorem Controlled.update (h : Controlled filters choices) (hplain : Plain filter)
    (hfilter : filter ∈ filters) {input : Input} {choice : Option FilterValue}
    (hreact : react filter (choices filter.id) input = some choice) :
    Controlled filters (Function.update choices filter.id choice) := by
  have hcontrol : ∀ v, choice = some v → ControlValue filter.id (literal v) := by
    rintro v rfl
    have hrespond : respond filter ((choices filter.id).map fun v => .json (literal v)) input =
        some (some (literal v)) := by
      rw [respond_literal hplain, hreact]
      rfl
    exact respond_control hrespond
  constructor
  · intro id v hv
    by_cases hid : id = filter.id
    · subst hid
      rw [Function.update_self] at hv
      exact hcontrol v hv
    · rw [Function.update_of_ne hid] at hv
      exact h.control hv
  · intro id v hv
    by_cases hid : id = filter.id
    · exact ⟨filter, hfilter, hid.symm⟩
    · rw [Function.update_of_ne hid] at hv
      exact h.declared hv

/-- An own property that is set or deleted is a choice that is set or dropped. -/
theorem update_stateOf (hplain : Plain filter) (choice : Option FilterValue) :
    (stateOf choices).update filter.id (choice.map literal) =
      stateOf (Function.update choices filter.id choice) := by
  have hown : Function.update (stateOf choices).own filter.id (choice.map literal) =
      (stateOf (Function.update choices filter.id choice)).own := by
    funext id
    change _ = (Function.update choices filter.id choice id).map literal
    by_cases hid : id = filter.id
    · rw [hid, Function.update_self, Function.update_self]
    · rw [Function.update_of_ne hid, Function.update_of_ne hid]
      rfl
  have hproto : filter.id ≠ "__proto__" := fun hid => hplain.id (by rw [hid]; decide)
  cases choice with
  | none => exact congrArg (FilterState.mk · none) hown
  | some v =>
    rw [Option.map_some, FilterState.update, FilterState.set, if_neg fun h => hproto h.1]
    exact congrArg (FilterState.mk · none) hown

/-- An event does to the parameter what it does to the choices that are in it. -/
theorem browse_parameter (hplain : ∀ filter ∈ filters, Plain filter)
    (h : Controlled filters choices) (hchosen : settle choices = choices)
    (hjson : json.Reads (chosenValues filters choices)) (event : Event) :
    browse positive json filters (parameter json (chosenValues filters choices)) event =
      (choose filters choices event).map fun c => parameter json (chosenValues filters c) := by
  cases event with
  | clear => exact onChange_stateOf hplain Controlled.none
  | input filter input =>
    rw [browse, choose]
    split
    · next hfilter =>
      have hown := hplain filter hfilter
      change ((respond filter ((parseState json.parse (parameter json
        (chosenValues filters choices))).get filter.id) input).bind _) = _
      rw [parseState_parameter hplain h hchosen hjson, get_stateOf hown, respond_literal hown]
      cases hreact : react filter (choices filter.id) input with
      | none => rfl
      | some choice =>
        change onChange positive json filters ((stateOf choices).update filter.id
          (choice.map literal)) = _
        rw [update_stateOf hown, onChange_stateOf hplain (h.update hown hfilter hreact)]
        rfl
    · rfl

theorem controlled_choose (hplain : ∀ filter ∈ filters, Plain filter) {event : Event}
    {next : Choices} (h : Controlled filters choices ∧ settle choices = choices)
    (hstep : choose filters choices event = some next) :
    Controlled filters next ∧ settle next = next := by
  cases event with
  | clear =>
    cases hstep
    exact ⟨.none, rfl⟩
  | input filter input =>
    rw [choose] at hstep
    split at hstep
    · next hfilter =>
      obtain ⟨choice, hreact, rfl⟩ := Option.map_eq_some_iff.mp hstep
      exact ⟨(h.1.update (hplain filter hfilter) hfilter hreact).settle, settle_settle _⟩
    · cases hstep

/-- Whatever is entered into the controls one after the other, the parameter holds what was chosen
by it, and the server makes of it these values in the order of the declaration. -/
theorem choices_arrive {describe : JsonValue → String} {events : List Event}
    (hplain : ∀ filter ∈ filters, Plain filter)
    (hjson : Runs.Always (choose filters) (fun c => json.Reads (chosenValues filters c))
      (fun _ => none) events) :
    Runs.exec (browse positive json filters) none events =
      (Runs.exec (choose filters) (fun _ => none) events).map
        (fun c => parameter json (chosenValues filters c)) ∧
    ∀ c, Runs.exec (choose filters) (fun _ => none) events = some c →
      ∃ sent, catalogFilters json.fromStr (parameter json (chosenValues filters c)) = .ok sent ∧
        Runtime.parseFilters describe sent = .ok (chosenValues filters c) := by
  have hnone : parameter json (chosenValues filters fun _ => none) = none := by
    have hnil : (chosenValues filters fun _ => none) = [] := List.filterMap_none filters
    rw [hnil]
    rfl
  constructor
  · have hstep : ∀ c event, (Controlled filters c ∧ settle c = c) →
        json.Reads (chosenValues filters c) →
        browse positive json filters (parameter json (chosenValues filters c)) event =
          (choose filters c event).map fun c => parameter json (chosenValues filters c) :=
      fun c event hc hreads => browse_parameter hplain hc.1 hc.2 hreads event
    have hrun := Runs.exec_refines hstep (fun c event next hc => controlled_choose hplain hc)
      ⟨Controlled.none, rfl⟩ hjson
    rwa [hnone] at hrun
  · intro c hc
    have hreads : json.Reads (chosenValues filters c) := hjson.last hc
    by_cases hnil : chosenValues filters c = []
    · rw [hnil]
      exact ⟨.null, rfl, rfl⟩
    · refine ⟨.array ((chosenValues filters c).map literal), ?_, ?_⟩
      · rw [parameter, if_neg (by simpa using hnil), catalogFilters, hreads.fromStr]
        rfl
      · rw [Runtime.parseFilters_array_eq_ok, mapM_literal]

/-! A source with a text and a multi-select, of which an option is pressed until it is excluded. -/

def author : Filter := ⟨"author", "Author", .text⟩

def genre : Filter := ⟨"genre", "Genre", .multiSelect ["Action"] ["action"] true⟩

def authorText : String := "\x7b\"Text\":\x7b\"id\":\"author\",\"value\":\"Mori\"\x7d\x7d"

def genreText (included excluded : String) : String :=
  "\x7b\"MultiSelect\":\x7b\"id\":\"genre\",\"included\":[" ++ included ++
    "],\"excluded\":[" ++ excluded ++ "]\x7d\x7d"

def wanted : FilterValue := .text "author" "Mori"

/-- The lists of values that the page writes, with their texts. -/
def writtenTexts : List (List FilterValue × String) :=
  [([], "[]"), ([wanted], "[" ++ authorText ++ "]"),
    ([wanted, .multiSelect "genre" ["action"] []],
      "[" ++ authorText ++ "," ++ genreText "\"action\"" "" ++ "]"),
    ([wanted, .multiSelect "genre" [] ["action"]],
      "[" ++ authorText ++ "," ++ genreText "" "\"action\"" ++ "]")]

def tableText : JsonText where
  stringify value :=
    ((value.asArray.bind fun items => items.mapM FilterValue.fromValue).bind
      fun values => writtenTexts.lookup values).getD "null"
  parse text :=
    (writtenTexts.find? fun entry => entry.2 = text).map fun entry => .array (entry.1.map literal)
  fromStr text :=
    match writtenTexts.find? fun entry => entry.2 = text with
    | some entry => .ok (.array (entry.1.map literal))
    | none => .error "expected value at line 1 column 1"

def entered : List Event :=
  [.input author (.typed " Mori "), .input genre (.pressed 0), .input genre (.pressed 0)]

private theorem tableText_reads {values : List FilterValue} {text : String}
    (htext : (writtenTexts.lookup values) = some text) (hne : text ≠ "")
    (hback : (writtenTexts.find? fun entry => entry.2 = text) = some (values, text)) :
    tableText.Reads values := by
  have hwritten : tableText.stringify (.array (values.map literal)) = text := by
    change ((((values.map literal).mapM FilterValue.fromValue).bind fun values =>
      writtenTexts.lookup values).getD "null") = text
    rw [mapM_literal, Option.bind_some, htext]
    rfl
  constructor
  · rwa [hwritten]
  · rw [hwritten]
    change ((writtenTexts.find? fun entry => entry.2 = text).map fun entry =>
      JsonValue.array (entry.1.map literal)) = _
    rw [hback]
    rfl
  · rw [hwritten]
    change (match writtenTexts.find? fun entry => entry.2 = text with
      | some entry => Except.ok (JsonValue.array (entry.1.map literal))
      | none => .error "expected value at line 1 column 1") = _
    rw [hback]

theorem excluded_arrives : ∃ c sent,
    Runs.exec (choose [author, genre]) (fun _ => none) entered = some c ∧
    chosenValues [author, genre] c = [wanted, .multiSelect "genre" [] ["action"]] ∧
    Runs.exec (browse (fun _ => none) tableText [author, genre]) none entered =
      some (some ("[" ++ authorText ++ "," ++ genreText "" "\"action\"" ++ "]")) ∧
    catalogFilters tableText.fromStr
      (some ("[" ++ authorText ++ "," ++ genreText "" "\"action\"" ++ "]")) = .ok sent ∧
    Runtime.parseFilters (fun _ => "") sent =
      .ok [wanted, .multiSelect "genre" [] ["action"]] := by
  have hplain : ∀ filter ∈ [author, genre], Plain filter := by
    intro filter hfilter
    simp only [List.mem_cons, List.not_mem_nil, or_false] at hfilter
    rcases hfilter with rfl | rfl
    · exact ⟨by decide, fun options canAscend h => by cases h⟩
    · exact ⟨by decide, fun options canAscend h => by cases h⟩
  have hjson : Runs.Always (choose [author, genre])
      (fun c => tableText.Reads (chosenValues [author, genre] c)) (fun _ => none) entered := by
    refine ⟨?_, fun c hc => ?_⟩
    · exact tableText_reads rfl (by decide) rfl
    · cases hc
      refine ⟨?_, fun c hc => ?_⟩
      · exact @tableText_reads [wanted] _ rfl (by decide) rfl
      · cases hc
        refine ⟨?_, fun c hc => ?_⟩
        · exact @tableText_reads [wanted, .multiSelect "genre" ["action"] []] _ rfl
            (by decide) rfl
        · cases hc
          exact @tableText_reads [wanted, .multiSelect "genre" [] ["action"]] _ rfl
            (by decide) rfl
  obtain ⟨hbrowsed, harrived⟩ :=
    @choices_arrive (fun _ => none) tableText _ (fun _ => "") entered hplain hjson
  obtain ⟨sent, hsent, hparsed⟩ := harrived _ rfl
  exact ⟨_, sent, rfl, rfl, hbrowsed.trans rfl, hsent, hparsed⟩

end Browsing

end Nyuka.Web.Filters
