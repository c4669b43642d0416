import Nyuka.Runtime.Settings

/-! The filter values that a client sends with a search, as the host decodes them. -/
namespace Nyuka
namespace Runtime

/-- A filter value supplied to `get_search_manga_list`. -/
inductive FilterValue where
  | text (id value : String)
  | sort (id : String) (index : Int32) (ascending : Bool)
  | check (id : String) (value : Int32)
  | select (id value : String)
  | multiSelect (id : String) (included excluded : List String)
deriving DecidableEq, Repr

def FilterValue.id : FilterValue → String
  | text id _ | sort id _ _ | check id _ | select id _ | multiSelect id _ _ => id

/-- A number without fraction or exponent that fits 32 bits. `-0` is a double. -/
def readI32 : JsonValue → Option Int32
  | .number text =>
    let negative := text.toList.head? = some '-'
    let digits := if negative then text.toList.tail else text.toList
    if digits = [] ∨ ¬ digits.all Char.isDigit then none
    else
      let n := Nat.ofDigitChars 10 digits 0
      if negative then if n = 0 ∨ 2 ^ 31 < n then none else some (Int32.ofInt (-n))
      else if n < 2 ^ 31 then some (Int32.ofInt n) else none
  | _ => none

def readStrings (value : JsonValue) : Option (List String) :=
  value.asArray.bind fun items => items.mapM JsonValue.asStr

/-- The fields of a variant. Other fields are ignored. -/
def FilterValue.ofFields (variant : String) (fields : JsonValue) : Option FilterValue := do
  let id ← (fields.get "id").bind JsonValue.asStr
  match variant with
  | "Text" => return .text id (← (fields.get "value").bind JsonValue.asStr)
  | "Sort" =>
    return .sort id (← (fields.get "index").bind readI32)
      (← (fields.get "ascending").bind JsonValue.asBool)
  | "Check" => return .check id (← (fields.get "value").bind readI32)
  | "Select" => return .select id (← (fields.get "value").bind JsonValue.asStr)
  | "MultiSelect" =>
    return .multiSelect id (← (fields.get "included").bind readStrings)
      (← (fields.get "excluded").bind readStrings)
  | _ => none

/-- An object whose only member is a variant with its fields. -/
def FilterValue.fromValue : JsonValue → Option FilterValue
  | .object [(variant, .object members)] => ofFields variant (.object members)
  | _ => none

/-- Reads the filter values a client sent into what the guest expects. `describe` is what the
decoder says of a value it refuses. -/
def parseFilters (describe : JsonValue → String) :
    JsonValue → Except DomainError (List FilterValue)
  | .null => .ok []
  | value =>
    match value.asArray.bind fun items => items.mapM FilterValue.fromValue with
    | some values => .ok values
    | none => .error (.invalid ("filters must be a JSON array of filter values " ++
        s!"(Text, Sort, Check, Select, MultiSelect): {describe value}"))

/-- An array is accepted if each of its items is. -/
@[simp] theorem parseFilters_array_eq_ok {describe : JsonValue → String} {items : List JsonValue}
    {values : List FilterValue} : parseFilters describe (.array items) = .ok values ↔
      items.mapM FilterValue.fromValue = some values := by
  change (match items.mapM FilterValue.fromValue with
    | some values => Except.ok values
    | none => .error _) = .ok values ↔ _
  cases items.mapM FilterValue.fromValue <;> simp

end Runtime
end Nyuka
