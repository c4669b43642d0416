import Nyuka.Packaging.Paths
import Nyuka.Runtime.DatePatterns
import Nyuka.Runtime.Net

/-! `std::parse_date`: the number a source is given for a date. How a text is read under a chrono
format is the date library's; what it makes of the fields it has read is as documented. -/
namespace Nyuka
namespace Runtime

def isLeap (year : ℤ) : Bool := year % 4 = 0 && (year % 100 ≠ 0 || year % 400 = 0)

/-- The lengths of the months. -/
def monthLengths (year : ℤ) : List ℕ :=
  [31, if isLeap year then 29 else 28, 31, 30, 31, 30, 31, 31, 30, 31, 30, 31]

/-- A date as the number of days from 1 January 1970. -/
def dayNumber (year : ℤ) (month day : ℕ) : Option ℤ :=
  match (monthLengths year)[month - 1]? with
  | none => none
  | some length =>
    if 0 < month ∧ 0 < day ∧ day ≤ length then
      some (365 * (year - 1) + (year - 1) / 4 - (year - 1) / 100 + (year - 1) / 400 +
        ((monthLengths year).take (month - 1)).sum + day - 719163)
    else none

/-- What a text gives for the specifiers of a format; weekdays are counted from Monday. -/
structure Fields where
  year : Option ℤ
  yearMod100 : Option ℕ
  month : Option ℕ
  day : Option ℕ
  weekday : Option ℕ
  hourDiv12 : Option ℕ
  hourMod12 : Option ℕ
  minute : Option ℕ
  second : Option ℕ
  offset : Option ℤ
deriving DecidableEq, Repr

namespace Fields

/-- Two digits of a year are of the years from 1970 to 2069. -/
def fullYear (p : Fields) : Option ℤ :=
  match p.year, p.yearMod100 with
  | some year, none => some year
  | some year, some rest => if 0 ≤ year ∧ year % 100 = rest then some year else none
  | none, some rest => some (if rest < 70 then 2000 + rest else 1900 + rest)
  | none, none => none

/-- The day that the fields name. -/
def date (p : Fields) : Option ℤ := do
  let number ← dayNumber (← p.fullYear) (← p.month) (← p.day)
  if p.weekday.all fun weekday => (number + 3) % 7 = weekday then some number else none

/-- A leap second has no Unix time of its own. -/
def clock (hourDiv12 hourMod12 minute second : ℕ) : ℤ :=
  3600 * (12 * hourDiv12 + hourMod12) + 60 * minute + min 59 second

/-- The time of day that the fields name; a part that is not given is none of it. -/
def timeOfDay (p : Fields) : ℤ :=
  clock (p.hourDiv12.getD 0) (p.hourMod12.getD 0) (p.minute.getD 0) (p.second.getD 0)

/-- The time of day as chrono has it: seconds may be missing, hours and minutes may not. -/
def time (p : Fields) : Option ℤ := do
  some (clock (← p.hourDiv12) (← p.hourMod12) (← p.minute) (p.second.getD 0))

/-- The Unix time of the instant that the fields name. -/
def instant (p : Fields) : Option ℤ :=
  p.date.map fun day => 86400 * day + p.timeOfDay - p.offset.getD 0

/-- Which fields the specifiers of a format give. -/
structure Given (p : Fields) (specifiers : List Char) : Prop where
  hourDiv12 : p.hourDiv12.isSome ↔ 'H' ∈ specifiers ∨ 'p' ∈ specifiers
  hourMod12 : p.hourMod12.isSome ↔ 'H' ∈ specifiers ∨ 'I' ∈ specifiers
  minute : p.minute.isSome ↔ 'M' ∈ specifiers
  second : p.second.isSome ↔ 'S' ∈ specifiers
  offset : p.offset.isSome ↔ 'z' ∈ specifiers

end Fields

/-- The specifiers of a chrono format, of which two percent signs are none. -/
def specifiers : List Char → List Char
  | '%' :: '%' :: s => specifiers s
  | '%' :: '-' :: c :: s => c :: specifiers s
  | '%' :: c :: s => c :: specifiers s
  | _ :: s => specifiers s
  | [] => []

/-- The date library: the fields of a text that matches a format, and its two parsers, whose results
are in seconds and in days from 1970 on. -/
structure Chrono where
  fields : String → String → Option Fields
  naiveDateTime : String → String → Option ℤ
  naiveDate : String → String → Option ℤ

/-- Both parsers ignore an offset, and that of dates ignores the time. -/
structure Chrono.Documented (chrono : Chrono) : Prop where
  given : ∀ format text p, chrono.fields format text = some p → p.Given (specifiers format.toList)
  dateTime : ∀ format text p, chrono.fields format text = some p →
    chrono.naiveDateTime format text =
      p.date.bind fun day => p.time.map fun time => 86400 * day + time
  date : ∀ format text p, chrono.fields format text = some p → chrono.naiveDate format text = p.date

/-- Whether a format has one of these texts somewhere. -/
def hasTime (format : String) : Bool :=
  ["%H", "%-H", "%I", "%-I", "%M", "%-M"].any fun s => s.toList <:+: format.toList

def trimmed (text : String) : String :=
  String.ofList (Text.trimMatches Packaging.isWhitespace text.toList)

/-- The zones that are taken for UTC. -/
def isUtc (timezone : String) : Bool :=
  timezone = "" || timezone.toList.map Char.toLower = "utc".toList

/-- Parses a date into a Unix timestamp in seconds. -/
def parse (chrono : Chrono) (date pattern timezone : String) : Option ℤ :=
  if !isUtc timezone then none
  else do
    let format ← patternToChrono pattern
    if hasTime format then chrono.naiveDateTime format (trimmed date)
    else (chrono.naiveDate format (trimmed date)).map fun day => 86400 * day

/-- What the guest is given. A timestamp of the years chrono has is exact as `f64`. -/
def parseDate (chrono : Chrono) (date pattern timezone : String) : ℤ :=
  (parse chrono date pattern timezone).getD message

/-- Negative means error. -/
def IsError (value : ℤ) : Prop := value < 0

/-- The formats and fields for which the parser that is chosen gives the instant. -/
def PlainClock (format : String) (p : Fields) : Prop :=
  if hasTime format then
    ('H' ∈ specifiers format.toList ∨
      'I' ∈ specifiers format.toList ∧ 'p' ∈ specifiers format.toList) ∧
      'M' ∈ specifiers format.toList ∧ p.offset.getD 0 = 0
  else p.timeOfDay = p.offset.getD 0

section
variable {chrono : Chrono} {text pattern timezone format : String} {p : Fields} {i : ℤ}

theorem Fields.time_isSome (hgiven : p.Given (specifiers format.toList)) : p.time.isSome ↔
    ('H' ∈ specifiers format.toList ∨
      'I' ∈ specifiers format.toList ∧ 'p' ∈ specifiers format.toList) ∧
      'M' ∈ specifiers format.toList := by
  have hparts : p.time.isSome ↔ p.hourDiv12.isSome ∧ p.hourMod12.isSome ∧ p.minute.isSome := by
    unfold Fields.time
    cases p.hourDiv12 <;> cases p.hourMod12 <;> cases p.minute <;> simp
  rw [hparts, hgiven.hourDiv12, hgiven.hourMod12, hgiven.minute]
  tauto

theorem Fields.time_eq {time : ℤ} (h : p.time = some time) : time = p.timeOfDay := by
  simp only [Fields.time, Option.bind_eq_bind, Option.bind_eq_some_iff] at h
  obtain ⟨div, hdiv, rest, hrest, minute, hminute, heq⟩ := h
  rw [Fields.timeOfDay, hdiv, hrest, hminute]
  exact (Option.some.inj heq).symm

/-- A date is given to a source as its instant, and not as an error, if and only if the time of day
is plain and the instant is not before 1970. -/
theorem parseDate_right_iff (h : chrono.Documented) (hzone : isUtc timezone = true)
    (hformat : patternToChrono pattern = some format)
    (hfields : chrono.fields format (trimmed text) = some p) (hinstant : p.instant = some i) :
    (parseDate chrono text pattern timezone = i ∧
      ¬ IsError (parseDate chrono text pattern timezone)) ↔ PlainClock format p ∧ 0 ≤ i := by
  obtain ⟨day, hday, rfl⟩ := Option.map_eq_some_iff.mp hinstant
  have hparse : parse chrono text pattern timezone =
      if hasTime format then p.time.map fun time => 86400 * day + time else some (86400 * day) := by
    simp only [parse, hzone, hformat, Bool.not_true, Bool.false_eq_true, if_false,
      Option.bind_eq_bind, Option.bind_some]
    rw [h.dateTime format (trimmed text) p hfields, h.date format (trimmed text) p hfields, hday]
    rfl
  have htime := p.time_isSome (h.given format (trimmed text) p hfields)
  rw [parseDate, hparse, PlainClock, IsError]
  cases hhas : hasTime format with
  | false =>
    simp only [Bool.false_eq_true, if_false, Option.getD_some]
    constructor
    · rintro ⟨heq, hpos⟩
      omega
    · rintro ⟨hclock, hpos⟩
      omega
  | true =>
    simp only [if_true]
    cases hclock : p.time with
    | none =>
      -- Without hours or minutes the parser refuses what the fields name.
      have hnot : ¬ _ := htime.not.mp (by simp [hclock])
      simp only [Option.map_none, Option.getD_none, message]
      constructor
      · rintro ⟨-, hpos⟩
        omega
      · rintro ⟨⟨hhour, hminute, -⟩, -⟩
        exact absurd ⟨hhour, hminute⟩ hnot
    | some time =>
      obtain rfl := Fields.time_eq hclock
      have hgiven := htime.mp (by simp [hclock])
      simp only [Option.map_some, Option.getD_some, hgiven, true_and]
      constructor
      · rintro ⟨heq, hpos⟩
        omega
      · rintro ⟨hoffset, hpos⟩
        omega

end

section Offset

def isoPattern : String :=
  String.ofList ("yyyy-MM-dd".toList ++ UnicodePatterns.apostrophe :: 'T' ::
    UnicodePatterns.apostrophe :: "HH:mm:ssZ".toList)

def isoFormat : String := "%Y-%m-%dT%H:%M:%S%z"

/-- Midnight of 2 January 2025, two hours east of Greenwich. -/
def isoFields : Fields where
  year := some 2025
  yearMod100 := none
  month := some 1
  day := some 2
  weekday := none
  hourDiv12 := some 0
  hourMod12 := some 0
  minute := some 0
  second := some 0
  offset := some 7200

/-- The parsers as they are documented, for a reading of texts. -/
def documented (fields : String → String → Option Fields) : Chrono where
  fields := fields
  naiveDateTime format text := (fields format text).bind fun p =>
    p.date.bind fun day => p.time.map fun time => 86400 * day + time
  naiveDate format text := (fields format text).bind Fields.date

theorem documented_of_given {fields : String → String → Option Fields}
    (h : ∀ format text p, fields format text = some p → p.Given (specifiers format.toList)) :
    (documented fields).Documented where
  given := h
  dateTime format text p hp := by
    have hfields : fields format text = some p := hp
    simp [documented, hfields]
  date format text p hp := by
    have hfields : fields format text = some p := hp
    simp [documented, hfields]

/-- Reads one text under one format. -/
def readIso (format text : String) : Option Fields :=
  if format = isoFormat ∧ text = "2025-01-02T00:00:00+0200" then some isoFields else none

private theorem isoFields_given : isoFields.Given (specifiers isoFormat.toList) := by
  constructor <;> decide

theorem readIso_documented : (documented readIso).Documented := by
  refine documented_of_given fun format text p hp => ?_
  obtain ⟨⟨rfl, -⟩, hfields⟩ := Option.ite_none_right_eq_some.mp hp
  rw [← Option.some.inj hfields]
  exact isoFields_given

theorem readIso_right_iff :
    (parseDate (documented readIso) "2025-01-02T00:00:00+0200" isoPattern "UTC" = 1735768800 ∧
      ¬ IsError (parseDate (documented readIso) "2025-01-02T00:00:00+0200" isoPattern "UTC")) ↔
    PlainClock isoFormat isoFields ∧ 0 ≤ (1735768800 : ℤ) :=
  parseDate_right_iff readIso_documented (by decide) (by decide) (by decide) (by decide)

/-- The offset in the text is dropped, and the date is two hours late. -/
theorem offset_dropped : ¬ ∀ (chrono : Chrono) (text pattern timezone format : String) (p : Fields)
    (i : ℤ), chrono.Documented → isUtc timezone = true → patternToChrono pattern = some format →
      chrono.fields format (trimmed text) = some p → p.instant = some i →
        parseDate chrono text pattern timezone = i ∧
          ¬ IsError (parseDate chrono text pattern timezone) := by
  intro h
  have hright := h (documented readIso) "2025-01-02T00:00:00+0200" isoPattern "UTC" isoFormat
    isoFields 1735768800 readIso_documented (by decide) (by decide) (by decide) (by decide)
  have hlate : parseDate (documented readIso) "2025-01-02T00:00:00+0200" isoPattern "UTC" =
      1735776000 := by decide
  rw [hlate] at hright
  exact absurd hright.1 (by decide)

end Offset

end Runtime
end Nyuka
