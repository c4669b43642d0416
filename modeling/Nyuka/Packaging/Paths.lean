import Nyuka.Foundation.Binary32

/-! Path construction and sanitization. The Unicode normalizer is a parameter; the one thing
used of it is that text behind which plain ASCII is written normalizes as without it. -/
namespace Nyuka
namespace Packaging
open Text

inductive PathError where
  | empty
  | escapes
  | unresolvable (detail : String)
deriving DecidableEq, Repr

/-- Names Windows refuses regardless of extension. -/
def reserved : List (List Char) :=
  [['C', 'O', 'N'], ['P', 'R', 'N'], ['A', 'U', 'X'], ['N', 'U', 'L']] ++
    ['1', '2', '3', '4', '5', '6', '7', '8', '9'].flatMap
      fun d => [['C', 'O', 'M', d], ['L', 'P', 'T', d]]

def maxComponentBytes : ℕ := 255

/-- `char::is_control`: the category Cc. -/
def isControl (c : Char) : Bool := c.toNat < 32 || (127 ≤ c.toNat && c.toNat < 160)

/-- `char::is_whitespace`: the property White_Space. -/
def isWhitespace (c : Char) : Bool :=
  let n := c.toNat
  (9 ≤ n && n ≤ 13) || n = 32 || n = 0x85 || n = 0xA0 || n = 0x1680 ||
    (0x2000 ≤ n && n ≤ 0x200A) || n = 0x2028 || n = 0x2029 || n = 0x202F || n = 0x205F || n = 0x3000

/-- Controls that make a name display as something else. -/
def isBidi (c : Char) : Bool :=
  let n := c.toNat
  (0x202A ≤ n && n ≤ 0x202E) || (0x2066 ≤ n && n ≤ 0x2069) || n = 0x200E || n = 0x200F

/-- What a character is replaced by, if it is kept at all. -/
def replacement (c : Char) : Option Char :=
  if c = '/' || c = '\\' then some '-'
  else if c.toNat = 34 || c ∈ [':', '*', '?', '<', '>', '|'] then some '-'
  else if isControl c then none
  else if isBidi c then none
  else some c

def cleaned (s : List Char) : List Char := s.filterMap replacement

/-- Whitespace collapsed to single blanks. -/
def collapsed (s : List Char) : List Char := [' '].intercalate (words isWhitespace s)

def isEdge (c : Char) : Bool := c = '.' || c = '-' || isWhitespace c

def isTail (c : Char) : Bool := c = '.' || isWhitespace c

def isReserved (stem : List Char) : Bool :=
  reserved.any fun r => r.map Char.toLower = stem.map Char.toLower

/-- A reserved stem gets an underscore before it. -/
def escaped (s : List Char) : List Char :=
  if isReserved (s.takeWhile (· ≠ '.')) then '_' :: s else s

/-- The name with everything but its length put right. -/
def spelled (nfc : List Char → List Char) (input : List Char) : List Char :=
  trimMatches isEdge (collapsed (cleaned (nfc input)))

/-- A name that is too long ends at the last character that fits, and a dot or a blank there
goes too. -/
def cut (s : List Char) : List Char :=
  if maxComponentBytes < bytes s then trimMatches isTail (takeBytes maxComponentBytes s) else s

def sanitizeComponent (nfc : List Char → List Char) (input : List Char) :
    Except PathError (List Char) :=
  let trimmed := spelled nfc input
  if trimmed = [] || trimmed = ['.'] || trimmed = ['.', '.'] then .error .empty else
    let result := cut (escaped trimmed)
    if maxComponentBytes < bytes (escaped trimmed) && result.isEmpty then .error .empty
    else .ok result

/-- Builds the directory a series lives in. -/
def seriesDir (nfc : List Char → List Char) (title : List Char)
    (disambiguator : Option (List Char)) :
    Except PathError (List Char) :=
  match sanitizeComponent nfc title with
  | .error e => .error e
  | .ok base =>
    match disambiguator with
    | none => .ok base
    | some slug =>
      match sanitizeComponent nfc slug with
      | .error e => .error e
      | .ok slug => sanitizeComponent nfc (base ++ [' ', '['] ++ slug ++ [']'])

/-- Formats a chapter or volume number, keeping a fractional part when there is one. -/
def padNumber (value : Binary32) (width : ℕ) : List Char :=
  if value.whole then paddedInt width value.toI64
  else paddedInt width value.toI64 ++ '.' :: value.fractionText.getD ['0']

/-- Builds a chapter's filename, without extension. -/
def chapterStem (nfc : List Char → List Char) (series : List Char)
    (volume number : Option Binary32) : Except PathError (List Char) :=
  match sanitizeComponent nfc series with
  | .error e => .error e
  | .ok series =>
    let name := match volume with
      | some v => series ++ ' ' :: 'v' :: padNumber v 2
      | none => series
    let name := match number with
      | some n => name ++ ' ' :: 'c' :: padNumber n 3
      | none => name
    sanitizeComponent nfc name

example : sanitizeComponent id "Re:Zero".toList = .ok "Re-Zero".toList := by decide
example : sanitizeComponent id "nul.txt".toList = .ok "_nul.txt".toList := by decide
example : chapterStem id "Series".toList (some 0x40400000) (some 0x41280000) =
    .ok "Series v03 c010.5".toList := by decide +kernel

end Packaging
end Nyuka
