import Nyuka.Runtime.Egress
import Nyuka.Foundation.Text

/-! Addresses as text: what the standard library reads as an address of either family. A reader
takes what it can from the front of a text and leaves the rest. -/
namespace Nyuka.Runtime

/-- What is read from the front of a text, and what is left of it. -/
abbrev Reader (α : Type) := List Char → Option (α × List Char)

namespace Reader

def decimalDigit (c : Char) : Option ℕ := if c.isDigit then some (c.toNat - 48) else none

/-- A number of at most `width` digits, below a bound. A leading zero may be forbidden. -/
def number (digit : Char → Option ℕ) (base width : ℕ) (zeroPrefix : Bool) (bound : ℕ) :
    Reader ℕ := fun s =>
  let digits := s.takeWhile fun c => (digit c).isSome
  let value := digits.foldl (fun n c => base * n + (digit c).getD 0) 0
  if digits.length = 0 ∨ width < digits.length then none
  else if zeroPrefix = false ∧ digits.head? = some '0' ∧ 1 < digits.length then none
  else if value < bound then some (value, s.drop digits.length)
  else none

/-- A separator in front of all groups but the first. -/
def separated {α : Type} (sep : Char) (index : ℕ) (inner : Reader α) : Reader α := fun s =>
  if index = 0 then inner s
  else
    match s with
    | c :: s => if c = sep then inner s else none
    | [] => none

def octet : Reader ℕ := number decimalDigit 10 3 false 256

def ipv4Addr : Reader Ipv4Addr := fun s => do
  let (a, s) ← octet s
  let (b, s) ← separated '.' 1 octet s
  let (c, s) ← separated '.' 2 octet s
  let (d, s) ← separated '.' 3 octet s
  return (⟨a.toUInt8, b.toUInt8, c.toUInt8, d.toUInt8⟩, s)

/-- Up to `room` groups of a v6 address from the group of an index on, whether they end with a v4
address, and what is left of the text. -/
def groups : ℕ → ℕ → List Char → List UInt16 × Bool × List Char
  | 0, _, s => ([], false, s)
  | room + 1, index, s =>
    match if 0 < room then separated ':' index ipv4Addr s else none with
    | some (ip, s) =>
      ([ip.a.toUInt16 <<< 8 ||| ip.b.toUInt16, ip.c.toUInt16 <<< 8 ||| ip.d.toUInt16], true, s)
    | none =>
      match separated ':' index (number Text.hexDigit 16 4 true 65536) s with
      | none => ([], false, s)
      | some (g, s) =>
        let (gs, embedded, s) := groups room (index + 1) s
        (g.toUInt16 :: gs, embedded, s)

def ipv6OfGroups (gs : List UInt16) : Ipv6Addr :=
  ⟨gs.getD 0 0, gs.getD 1 0, gs.getD 2 0, gs.getD 3 0, gs.getD 4 0, gs.getD 5 0, gs.getD 6 0,
    gs.getD 7 0⟩

/-- All eight groups, or the groups around a `::`, which stands for one at least. -/
def ipv6Addr : Reader Ipv6Addr := fun s =>
  let (head, embedded, s) := groups 8 0 s
  if head.length = 8 then some (ipv6OfGroups head, s)
  else if embedded then none
  else
    match s with
    | ':' :: ':' :: s =>
      let (tail, _, s) := groups (7 - head.length) 0 s
      some (ipv6OfGroups (head ++ List.replicate (8 - head.length - tail.length) 0 ++ tail), s)
    | _ => none

def ipAddr : Reader IpAddr := fun s =>
  match ipv4Addr s with
  | some (ip, s) => some (.v4 ip, s)
  | none => (ipv6Addr s).map fun (ip, s) => (.v6 ip, s)

end Reader

/-- `text.parse::<IpAddr>()`: an address and nothing after it. -/
def IpAddr.parse (text : List Char) : Option IpAddr :=
  match Reader.ipAddr text with
  | some (ip, []) => some ip
  | _ => none

example : IpAddr.parse "203.0.113.9".toList = some (.v4 ⟨203, 0, 113, 9⟩) := by decide
example : IpAddr.parse "2001:db8::1".toList =
    some (.v6 ⟨0x2001, 0xdb8, 0, 0, 0, 0, 0, 1⟩) := by decide

end Nyuka.Runtime
