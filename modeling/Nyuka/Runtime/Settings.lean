import Nyuka.Domain.Library

/-! The defaults a package declares, encoded the way a source reads its settings back. -/
namespace Nyuka

namespace JsonValue

def asArray : JsonValue → Option (List JsonValue)
  | array items => some items
  | _ => none

def asBool : JsonValue → Option Bool
  | bool b => some b
  | _ => none

end JsonValue

namespace Runtime

/-! The encodings of the values a setting may have. -/
namespace Postcard

/-- Seven bits a byte, the least significant first. -/
def varint (n : ℕ) : Bytes :=
  if n < 128 then [n.toUInt8] else (n % 128 + 128).toUInt8 :: varint (n / 128)
termination_by n

def bool (b : Bool) : Bytes := [if b then 1 else 0]

def string (s : String) : Bytes := varint s.toUTF8.size ++ s.toUTF8.toList

def strings (items : List String) : Bytes := varint items.length ++ items.flatMap string

end Postcard

/-- One declared default. -/
structure Seed where
  key : String
  value : Bytes
deriving DecidableEq

def seed (entry : JsonValue) : Option Seed := do
  let key ← (← entry.get "key").asStr
  let declared ← (← entry.get "type").asStr
  let default ← entry.get "default"
  -- by the declared type: a select whose default parses as a number is still a string
  let value ←
    if declared = "switch" then default.asBool.map Postcard.bool
    else if declared = "text" ∨ declared = "select" ∨ declared = "segment" then
      default.asStr.map Postcard.string
    else if declared = "multi-select" then do
      let items ← default.asArray
      (items.mapM JsonValue.asStr).map Postcard.strings
    else none
  return ⟨key, value⟩

/-- The defaults of a declaration, ready to store. A group's items stand for the group. -/
def declaredDefaults (declaration : JsonValue) : List Seed :=
  (declaration.asArray.getD []).flatMap fun entry =>
    if (entry.get "type").bind JsonValue.asStr = some "group" then
      (((entry.get "items").bind JsonValue.asArray).getD []).filterMap seed
    else (seed entry).toList

end Runtime
end Nyuka
