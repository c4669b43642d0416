import Mathlib.Data.List.Forall2
import Nyuka.Packaging.FileOrder
import Nyuka.Packaging.Metadata

/-! The metadata document against the schema of ComicInfo 2.0: what each element may hold, and
what a reader gets back of the fields. -/
namespace Nyuka
namespace Packaging
open Xml Text Binary32
open Floats (scaled)

section Schema

inductive ElementType where
  | string
  | int
  | enumeration (values : List String)
deriving DecidableEq

/-- The elements of `ComicInfo` in their order, none of which must be there. Those behind the last
that is written are left out. -/
def schema : List (String × ElementType) :=
  [("Title", .string), ("Series", .string), ("Number", .string), ("Count", .int), ("Volume", .int),
    ("AlternateSeries", .string), ("AlternateNumber", .string), ("AlternateCount", .int),
    ("Summary", .string), ("Notes", .string), ("Year", .int), ("Month", .int), ("Day", .int),
    ("Writer", .string), ("Penciller", .string), ("Inker", .string), ("Colorist", .string),
    ("Letterer", .string), ("CoverArtist", .string), ("Editor", .string), ("Publisher", .string),
    ("Imprint", .string), ("Genre", .string), ("Web", .string), ("PageCount", .int),
    ("LanguageISO", .string), ("Format", .string),
    ("BlackAndWhite", .enumeration ["Unknown", "No", "Yes"]),
    ("Manga", .enumeration ["Unknown", "No", "Yes", "YesAndRightToLeft"])]

def natural (s : List Char) : Option ℕ :=
  if s ≠ [] && s.all Char.isDigit then some (Nat.ofDigitChars 10 s 0) else none

/-- The number an integer's text is, of either sign. -/
def integer : List Char → Option ℤ
  | '-' :: s => (natural s).map fun n => -(n : ℤ)
  | '+' :: s => (natural s).map fun n => (n : ℤ)
  | s => (natural s).map fun n => (n : ℤ)

def ElementType.allows : ElementType → List Char → Bool
  | .string, _ => true
  | .int, s => (integer s).any fun n => decide (-2 ^ 31 ≤ n) && decide (n < 2 ^ 31)
  | .enumeration values, s => values.any fun value => decide (value.toList = s)

/-- The elements are some of the schema's in its order, and each has a text it allows. -/
structure Valid (fields : List (List Char × List Char)) : Prop where
  ordered : (fields.map Prod.fst).Sublist (schema.map fun element => element.1.toList)
  allowed : ∀ field ∈ fields, ∃ element ∈ schema,
    element.1.toList = field.1 ∧ element.2.allows field.2 = true

end Schema

section Contents

/-- The digits of a decimal without sign, and how many of them are behind the point. -/
def unsigned (s : List Char) : Option (ℕ × ℕ) :=
  match s.splitOn '.' with
  | [a] => (natural a).map fun n => (n, 0)
  | [a, b] => if a ≠ [] && b ≠ [] then (natural (a ++ b)).map fun n => (n, b.length) else none
  | _ => none

/-- A decimal's sign, digits and places. -/
def decimal : List Char → Option (Bool × ℕ × ℕ)
  | '-' :: s => (unsigned s).map fun p => (true, p)
  | s => (unsigned s).map fun p => (false, p)

/-- What an element is written from. -/
inductive Content where
  | text (s : String)
  | int (n : ℤ)
  | number (x : Binary32)

/-- The text an element is read with tells what it was written from. The escaper drops some
characters, and a reader makes all line ends one. A number as good as whole is its integer part,
and any other finite one the nearest to a decimal. -/
def Content.ReadAs : Content → List Char → Prop
  | .text s, t => t = normalizeLines (kept s)
  | .int n, t => integer t = some n
  | .number x, t =>
    (x.whole = true → |value x| < 2 ^ 63 * (unit : ℤ) →
      integer t = some ((value x).tdiv unit)) ∧
    (x.whole = false → x.isFinite = true → ∃ digits places,
      decimal t = some (x.isNegative, digits, places) ∧
        Floats.Rounds 23 unit x.magnitude (-(places : ℤ)) digits)

/-- A text there is something in. -/
def given (s : String) : Option Content := if s = "" then none else some (.text s)

/-- What there is for each of the elements that can be written. -/
def ComicInfo.contents (info : ComicInfo) : List (String × Option Content) :=
  [("Title", info.title.bind given), ("Series", given info.series),
    ("Number", info.number.map .number),
    ("Volume", (info.volume.filter Binary32.whole).map .number),
    ("Summary", info.summary.bind given), ("Year", info.year.map fun y => .int y.toInt),
    ("Month", info.month.map fun m => .int m.toNat), ("Day", info.day.map fun d => .int d.toNat),
    ("Writer", given (", ".intercalate info.writers)),
    ("Penciller", given (", ".intercalate info.pencillers)),
    ("Genre", given (", ".intercalate info.genres)), ("Web", info.web.bind given),
    ("PageCount", some (.int info.pageCount.toNat)), ("LanguageISO", info.languageIso.bind given),
    ("Manga", some (.text (mangaValue info.direction)))]

/-- The elements that have something to hold. -/
def ComicInfo.elements (info : ComicInfo) : List (String × Content) :=
  info.contents.filterMap fun slot => slot.2.map fun content => (slot.1, content)

/-- The texts that come from a source. -/
def ComicInfo.sourceTexts (info : ComicInfo) : List String :=
  info.title.toList ++ [info.series] ++ info.summary.toList ++ info.writers ++ info.pencillers ++
    info.genres ++ info.web.toList ++ info.languageIso.toList

/-- The numbers the schema has a range for are in it. -/
structure ComicInfo.InRange (info : ComicInfo) : Prop where
  volume : ∀ v ∈ info.volume, v.whole = true → -2 ^ 31 ≤ v.toI64 ∧ v.toI64 < 2 ^ 31
  pageCount : info.pageCount.toNat < 2 ^ 31
  month : ∀ m ∈ info.month, m.toNat < 2 ^ 31
  day : ∀ d ∈ info.day, d.toNat < 2 ^ 31

end Contents

section Numbers

/-- A printed character is neither a line end nor dropped. -/
theorem lines_kept_of_printed {s : String} (h : ∀ c ∈ s.toList, 32 ≤ c.toNat ∧ c.toNat < 127) :
    normalizeLines (kept s) = s.toList := by
  have hkept : kept s = s.toList := by
    apply List.filter_eq_self.mpr
    intro c hc
    have hbounds := h c hc
    have hlow : decide (c.toNat < 32) = false := decide_eq_false (by omega)
    have hhigh : decide (127 ≤ c.toNat) = false := decide_eq_false (by omega)
    simp [isKept, isControl, hlow, hhigh]
  have hreturn : '\r' ∉ s.toList := fun hmem => by
    have hbounds := h _ hmem
    simp at hbounds
  have happend := normalizeLines_append hreturn []
  rw [List.append_nil, normalizeLines, List.append_nil] at happend
  rw [hkept, happend]

theorem natural_of_digits {s : List Char} (hne : s ≠ []) (hs : ∀ c ∈ s, c.isDigit = true) :
    natural s = some (Nat.ofDigitChars 10 s 0) := by
  rw [natural, if_pos (by simp [hne]; exact hs)]

@[simp] theorem natural_toDigits (n : ℕ) : natural (Nat.toDigits 10 n) = some n := by
  rw [natural_of_digits Nat.toDigits_ne_nil fun c hc => isDigit_of_mem_toDigits hc]
  simp

theorem integer_of_head {c : Char} (hminus : c ≠ '-') (hplus : c ≠ '+') (s : List Char) :
    integer (c :: s) = (natural (c :: s)).map fun n => (n : ℤ) := by
  rw [integer]
  · exact fun _ h => absurd (List.cons.inj h).1 hminus
  · exact fun _ h => absurd (List.cons.inj h).1 hplus

@[simp] theorem integer_toDigits (n : ℕ) : integer (Nat.toDigits 10 n) = some (n : ℤ) := by
  obtain ⟨c, rest, hdigits⟩ := List.exists_cons_of_ne_nil (@Nat.toDigits_ne_nil n 10)
  have hc : c.isDigit = true :=
    isDigit_of_mem_toDigits (n := n) (by rw [hdigits]; exact List.mem_cons_self)
  have hminus : c ≠ '-' := fun h => by
    rw [h] at hc
    contradiction
  have hplus : c ≠ '+' := fun h => by
    rw [h] at hc
    contradiction
  rw [hdigits, integer_of_head hminus hplus, ← hdigits, natural_toDigits]
  rfl

@[simp]
theorem toList_toString_nat (n : ℕ) : (toString n).toList = Nat.toDigits 10 n := Nat.toList_repr

@[simp] theorem integer_toString (n : ℤ) : integer (toString n).toList = some n := by
  cases n with
  | ofNat n =>
    have hlist : (toString (Int.ofNat n)).toList = Nat.toDigits 10 n := toList_toString_nat n
    rw [hlist, integer_toDigits]
    rfl
  | negSucc n =>
    have hlist : (toString (Int.negSucc n)).toList = '-' :: Nat.toDigits 10 (n + 1) := by
      show ("-" ++ (n + 1).repr).toList = _
      rw [String.toList_append, Nat.toList_repr]
      rfl
    rw [hlist, integer, natural_toDigits]
    rfl

theorem printed_of_isDigit {c : Char} (h : c.isDigit = true) : 32 ≤ c.toNat ∧ c.toNat < 127 := by
  have hbounds := isDigit_bounds h
  omega

theorem printed_int (n : ℤ) : ∀ c ∈ (toString n).toList, 32 ≤ c.toNat ∧ c.toNat < 127 := by
  intro c hc
  by_cases hdigit : c.isDigit = true
  · exact printed_of_isDigit hdigit
  by_cases hminus : c = '-'
  · rw [hminus]
    decide
  · exact absurd hc (plain_int n (by simpa using hdigit) hminus)

variable {x : Binary32}

private theorem printed_decimalText (k : ℤ) (d : ℕ) :
    ∀ c ∈ decimalText k d, 32 ≤ c.toNat ∧ c.toNat < 127 := by
  intro c hc
  unfold decimalText at hc
  split at hc
  · exact printed_of_isDigit (isDigit_of_mem_toDigits hc)
  · rcases List.mem_append.mp hc with hc | hc
    · exact printed_of_isDigit (isDigit_of_mem_toDigits hc)
    · rcases List.mem_cons.mp hc with rfl | hc
      · decide
      · exact printed_of_isDigit (isDigit_of_mem_padded hc)

private theorem printed_display (x : Binary32) : ∀ c ∈ x.display, 32 ≤ c.toNat ∧ c.toNat < 127 := by
  have hnan : ∀ c ∈ ['N', 'a', 'N'], 32 ≤ c.toNat ∧ c.toNat < 127 := by simp
  have habsolute : ∀ c ∈ (if isFinite x then
      decimalText (exponent (magnitude x)) (digits (magnitude x)) else ['i', 'n', 'f']),
      32 ≤ c.toNat ∧ c.toNat < 127 := by
    split
    · exact printed_decimalText _ _
    · simp
  intro c hc
  simp only [display] at hc
  by_cases hx : isNan x = true
  · rw [if_pos hx] at hc
    exact hnan c hc
  rw [if_neg hx] at hc
  by_cases hsign : isNegative x = true
  · rw [if_pos hsign] at hc
    rcases List.mem_cons.mp hc with rfl | hc
    · decide
    · exact habsolute c hc
  · rw [if_neg hsign] at hc
    exact habsolute c hc

theorem printed_formatNumber (x : Binary32) :
    ∀ c ∈ (formatNumber x).toList, 32 ≤ c.toNat ∧ c.toNat < 127 := by
  unfold formatNumber
  split
  · exact printed_int _
  · rw [String.toList_ofList]
    exact printed_display x

/-- Where the integer part of a whole number is one of 64 bits, the conversion does not saturate. -/
theorem toI64_of_whole (hx : x.whole = true) (h : |value x| < 2 ^ 63 * (unit : ℤ)) :
    x.toI64 = (value x).tdiv unit := by
  have hfin : isFinite x = true := by
    simp only [whole, Bool.and_eq_true] at hx
    exact hx.1
  have hnan : isNan x = false := by
    simp only [isFinite, isNan, decide_eq_true_eq, decide_eq_false_iff_not] at hfin ⊢
    omega
  have hpos : 0 < unit := unit_pos
  unfold toI64 value at *
  rw [hnan]
  generalize scaled 23 (magnitude x) = s at *
  generalize unit = u at *
  have hdiv : ((s / u : ℕ) : ℤ) = (s : ℤ).tdiv u := Int.ofNat_tdiv s u
  have hlt : s / u < 2 ^ 63 := by
    apply Nat.div_lt_of_lt_mul
    have habs : (s : ℤ) < 2 ^ 63 * (u : ℤ) := by
      split at h
      · rwa [abs_neg, Nat.abs_cast] at h
      · rwa [Nat.abs_cast] at h
    rw [Nat.mul_comm]
    exact_mod_cast habs
  simp only [Bool.false_eq_true, if_false]
  generalize s / u = q at *
  split
  · rw [Int.neg_tdiv, ← hdiv]
    omega
  · rw [← hdiv]
    omega

private theorem unsigned_point {a b : List Char} (ha : a ≠ []) (hb : b ≠ [])
    (hdigits : ∀ c ∈ a ++ b, c.isDigit = true) :
    unsigned (a ++ '.' :: b) = some (Nat.ofDigitChars 10 (a ++ b) 0, b.length) := by
  have hpoint : '.' ∉ a ++ b := fun hmem => by
    have := hdigits _ hmem
    contradiction
  rw [List.mem_append, not_or] at hpoint
  have hne : a ++ b ≠ [] := List.append_ne_nil_of_left_ne_nil ha b
  unfold unsigned
  rw [List.splitOn_append_cons_self_of_not_mem hpoint.1, List.splitOn_eq_singleton hpoint.2]
  simp only [natural_of_digits hne hdigits, Option.map_some]
  exact if_pos (by simp [ha, hb])

/-- The digits of a number that is not whole, with those behind the point. -/
theorem unsigned_decimalText {n : ℕ} (h : scaled 23 n % unit ≠ 0) :
    unsigned (decimalText (exponent n) (digits n)) = some (digits n, places n) := by
  have hlt : digits n % 10 ^ places n < 10 ^ places n := Nat.mod_lt _ (Nat.pow_pos (by decide))
  have hne : fractionDigits n ≠ [] := padded_ne_nil _ _
  have hlength : (fractionDigits n).length = places n := length_padded (places_pos h) hlt
  have hdigits : ∀ c ∈ Nat.toDigits 10 (digits n / 10 ^ places n) ++ fractionDigits n,
      c.isDigit = true := by
    intro c hc
    rcases List.mem_append.mp hc with hc | hc
    · exact isDigit_of_mem_toDigits hc
    · exact isDigit_of_mem_padded hc
  have hvalue : Nat.ofDigitChars 10
      (Nat.toDigits 10 (digits n / 10 ^ places n) ++ fractionDigits n) 0 = digits n := by
    rw [Nat.ofDigitChars_append, Nat.ofDigitChars_eq_ofDigitChars_zero, hlength, fractionDigits,
      ofDigitChars_padded, Nat.ofDigitChars_ten_toDigits]
    exact Nat.div_add_mod _ _
  rw [decimalText_of_fraction h, unsigned_point Nat.toDigits_ne_nil hne hdigits, hvalue, hlength]

private theorem decimal_of_head {s : List Char} (h : s.head? ≠ some '-') :
    decimal s = (unsigned s).map fun p => (false, p) := by
  rw [decimal]
  intro t ht
  exact h (by rw [ht]; rfl)

/-- A number's text tells it again: whole numbers by their integer part, as far as it is one of
64 bits, and the others by a decimal that rounds to them. -/
theorem readAs_formatNumber (x : Binary32) :
    (Content.number x).ReadAs (normalizeLines (kept (formatNumber x))) := by
  rw [lines_kept_of_printed (printed_formatNumber x)]
  refine ⟨fun hx h => ?_, fun hx hfin => ?_⟩
  · rw [formatNumber, if_pos hx, integer_toString, toI64_of_whole hx h]
  · have hfrac := fraction_of_not_whole hfin hx
    have hnan : isNan x = false := by
      simp only [isFinite, isNan, decide_eq_true_eq, decide_eq_false_iff_not] at hfin ⊢
      omega
    have htext := unsigned_decimalText hfrac
    have hrounds := rounds_digits x.magnitude
    rw [exponent_eq hfrac] at hrounds
    refine ⟨_, _, ?_, hrounds⟩
    rw [formatNumber, if_neg (by simp [hx]), String.toList_ofList]
    unfold display
    simp only [hnan, hfin, Bool.false_eq_true, if_false, if_true]
    cases hsign : isNegative x with
    | true => rw [if_pos rfl, decimal, htext, Option.map_some]
    | false =>
      have hhead : (decimalText (exponent x.magnitude) (digits x.magnitude)).head? ≠ some '-' := by
        intro hhead
        rw [decimalText_of_fraction hfrac] at hhead
        obtain ⟨c, rest, hdigits⟩ := List.exists_cons_of_ne_nil
          (@Nat.toDigits_ne_nil (digits x.magnitude / 10 ^ places x.magnitude) 10)
        have hc := isDigit_of_mem_toDigits (hdigits ▸ List.mem_cons_self)
        rw [hdigits, List.cons_append, List.head?_cons] at hhead
        rw [Option.some.inj hhead] at hc
        contradiction
      rw [if_neg (by simp), decimal_of_head hhead, htext, Option.map_some]

end Numbers

section Document

/-- What there is for an element, and the text it gets: none where there is nothing. -/
def Fits (slot : String × Option Content) (field : String × String) : Prop :=
  slot.1 = field.1 ∧ (slot.2 = none ∧ field.2 = "" ∨
    ∃ content, slot.2 = some content ∧ field.2 ≠ "" ∧
      content.ReadAs (normalizeLines (kept field.2)))

theorem fits_text (name s : String) : Fits (name, given s) (name, s) := by
  refine ⟨rfl, ?_⟩
  by_cases hs : s = ""
  · exact Or.inl ⟨by simp [given, hs], hs⟩
  · exact Or.inr ⟨.text s, by simp [given, hs], hs, rfl⟩

theorem fits_optional (name : String) (s : Option String) :
    Fits (name, s.bind given) (name, s.getD "") := by
  cases s with
  | none => exact ⟨rfl, Or.inl ⟨rfl, rfl⟩⟩
  | some s => exact fits_text name s

theorem toString_int_ne (n : ℤ) : toString n ≠ "" := fun h => by
  have hinteger := integer_toString n
  rw [h] at hinteger
  contradiction

theorem fits_int (name : String) (n : ℤ) : Fits (name, some (.int n)) (name, toString n) := by
  refine ⟨rfl, Or.inr ⟨.int n, rfl, toString_int_ne n, ?_⟩⟩
  show integer (normalizeLines (kept (toString n))) = some n
  rw [lines_kept_of_printed (printed_int n), integer_toString]

private theorem formatNumber_ne (x : Binary32) : formatNumber x ≠ "" := by
  unfold formatNumber
  split
  · exact toString_int_ne _
  · intro h
    have hnil := congrArg String.toList h
    rw [String.toList_ofList] at hnil
    simp only [display] at hnil
    have hdecimal : decimalText (exponent (magnitude x)) (digits (magnitude x)) ≠ [] := by
      unfold decimalText
      split
      · exact Nat.toDigits_ne_nil
      · exact List.append_ne_nil_of_left_ne_nil Nat.toDigits_ne_nil _
    split at hnil
    · contradiction
    · split at hnil
      · contradiction
      · split at hnil
        · exact hdecimal hnil
        · contradiction

theorem fits_number (name : String) (x : Option Binary32) :
    Fits (name, x.map .number) (name, (x.map formatNumber).getD "") := by
  cases x with
  | none => exact ⟨rfl, Or.inl ⟨rfl, rfl⟩⟩
  | some x => exact ⟨rfl, Or.inr ⟨.number x, rfl, formatNumber_ne x, readAs_formatNumber x⟩⟩

theorem fits_year (name : String) (y : Option Int32) :
    Fits (name, y.map fun y => .int y.toInt) (name, (y.map toString).getD "") := by
  cases y with
  | none => exact ⟨rfl, Or.inl ⟨rfl, rfl⟩⟩
  | some y => exact fits_int name y.toInt

private theorem fits_count (name : String) (n : Option UInt32) :
    Fits (name, n.map fun n => .int n.toNat) (name, (n.map toString).getD "") := by
  cases n with
  | none => exact ⟨rfl, Or.inl ⟨rfl, rfl⟩⟩
  | some n => exact fits_int name n.toNat

theorem contents_fit (info : ComicInfo) : List.Forall₂ Fits info.contents info.texts :=
  .cons (fits_optional _ _) <| .cons (fits_text _ _) <| .cons (fits_number _ _) <|
  .cons (fits_number _ _) <| .cons (fits_optional _ _) <| .cons (fits_year _ _) <|
  .cons (fits_count _ _) <| .cons (fits_count _ _) <| .cons (fits_text _ _) <|
  .cons (fits_text _ _) <| .cons (fits_text _ _) <| .cons (fits_optional _ _) <|
  .cons (fits_int _ _) <| .cons (fits_optional _ _) <|
  .cons ⟨rfl, Or.inr ⟨.text _, rfl, by cases info.direction <;> decide, rfl⟩⟩ .nil

/-- An element is read under its name, and its text tells what it was written from. -/
def ReadsAs (element : String × Content) (field : List Char × List Char) : Prop :=
  field.1 = element.1.toList ∧ element.2.ReadAs field.2

theorem readsAs_of_fits {slots : List (String × Option Content)} {fields : List (String × String)}
    (h : List.Forall₂ Fits slots fields) :
    List.Forall₂ ReadsAs
      (slots.filterMap fun slot => slot.2.map fun content => (slot.1, content))
      ((fields.filter fun field => field.2 ≠ "").map fun field =>
        (field.1.toList, normalizeLines (kept field.2))) := by
  induction h with
  | nil => exact .nil
  | @cons slot field slots fields hfits _ ih =>
    obtain ⟨hname, ⟨hslot, hfield⟩ | ⟨content, hslot, hfield, hread⟩⟩ := hfits
    · rw [List.filterMap_cons_none (by rw [hslot]; rfl), List.filter_cons_of_neg (by simp [hfield])]
      exact ih
    · rw [List.filterMap_cons_some (by rw [hslot]; rfl), List.filter_cons_of_pos (by simp [hfield]),
        List.map_cons]
      exact .cons ⟨by rw [hname], hread⟩ ih

private theorem allows_int {n : ℤ} (hlow : -2 ^ 31 ≤ n) (hhigh : n < 2 ^ 31) :
    ElementType.int.allows (normalizeLines (kept (toString n))) = true := by
  rw [ElementType.allows, lines_kept_of_printed (printed_int n), integer_toString, Option.any_some,
    Bool.and_eq_true]
  exact ⟨decide_eq_true hlow, decide_eq_true hhigh⟩

/-- Each text is one the schema allows for its element. -/
theorem texts_allowed {info : ComicInfo} (h : info.InRange) :
    ∀ field ∈ info.texts, field.2 ≠ "" → ∃ element ∈ schema,
      element.1 = field.1 ∧ element.2.allows (normalizeLines (kept field.2)) = true := by
  have hstring (name : String) (hname : (name, ElementType.string) ∈ schema) (text : String) :
      ∃ element ∈ schema, element.1 = name ∧
        element.2.allows (normalizeLines (kept text)) = true := ⟨_, hname, rfl, rfl⟩
  have hint (name : String) (hname : (name, ElementType.int) ∈ schema) {n : ℤ}
      (hlow : -2 ^ 31 ≤ n) (hhigh : n < 2 ^ 31) :
      ∃ element ∈ schema, element.1 = name ∧
        element.2.allows (normalizeLines (kept (toString n))) = true :=
    ⟨_, hname, rfl, allows_int hlow hhigh⟩
  have hcount (name : String) (hname : (name, ElementType.int) ∈ schema) {n : Option UInt32}
      (hn : ∀ m ∈ n, m.toNat < 2 ^ 31) (hne : (n.map toString).getD "" ≠ "") :
      ∃ element ∈ schema, element.1 = name ∧
        element.2.allows (normalizeLines (kept ((n.map toString).getD ""))) = true := by
    cases n with
    | none => exact absurd rfl hne
    | some n =>
      have hlt := hn n rfl
      have htext : ((some n).map toString).getD "" = toString (n.toNat : ℤ) := rfl
      rw [htext]
      exact hint name hname (by omega) (by exact_mod_cast hlt)
  intro field hfield hne
  simp only [ComicInfo.texts, List.mem_cons, List.not_mem_nil, or_false] at hfield
  rcases hfield with rfl | rfl | rfl | rfl | rfl | rfl | rfl | rfl | rfl | rfl | rfl | rfl | rfl |
    rfl | rfl
  · exact hstring "Title" (by decide) _
  · exact hstring "Series" (by decide) _
  · exact hstring "Number" (by decide) _
  · cases hv : info.volume.filter Binary32.whole with
    | none =>
      rw [hv] at hne
      exact absurd rfl hne
    | some v =>
      obtain ⟨hvolume, hwhole⟩ := Option.filter_eq_some_iff.mp hv
      obtain ⟨hlow, hhigh⟩ := h.volume v hvolume hwhole
      have htext : formatNumber v = toString v.toI64 := by rw [formatNumber, if_pos hwhole]
      rw [Option.map_some, Option.getD_some, htext]
      exact hint "Volume" (by decide) hlow hhigh
  · exact hstring "Summary" (by decide) _
  · cases hy : info.year with
    | none =>
      rw [hy] at hne
      exact absurd rfl hne
    | some y =>
      have htext : ((some y).map toString).getD "" = toString y.toInt := rfl
      rw [htext]
      exact hint "Year" (by decide) (Int32.le_toInt y) (Int32.toInt_lt y)
  · exact hcount "Month" (by decide) h.month hne
  · exact hcount "Day" (by decide) h.day hne
  · exact hstring "Writer" (by decide) _
  · exact hstring "Penciller" (by decide) _
  · exact hstring "Genre" (by decide) _
  · exact hstring "Web" (by decide) _
  · have hlt := h.pageCount
    have htext : toString info.pageCount = toString (info.pageCount.toNat : ℤ) := rfl
    rw [htext]
    exact hint "PageCount" (by decide) (by omega) (by exact_mod_cast hlt)
  · exact hstring "LanguageISO" (by decide) _
  · refine ⟨("Manga", .enumeration ["Unknown", "No", "Yes", "YesAndRightToLeft"]),
      by decide, rfl, ?_⟩
    cases info.direction <;> decide

theorem valid_written {info : ComicInfo} (h : info.InRange) :
    Valid (info.written.map fun field => (field.1.toList, normalizeLines (kept field.2))) where
  ordered := by
    have hnames : (info.written.map Prod.fst).Sublist (schema.map Prod.fst) := by
      have hschema : elementNames.Sublist (schema.map Prod.fst) := by decide
      refine List.Sublist.trans ?_ hschema
      rw [← texts_names info]
      exact List.filter_sublist.map _
    have hlists := hnames.map String.toList
    rw [List.map_map, List.map_map] at hlists
    rw [List.map_map]
    exact hlists
  allowed field hfield := by
    obtain ⟨written, hwritten, rfl⟩ := List.mem_map.mp hfield
    obtain ⟨hmem, hne⟩ := List.mem_filter.mp hwritten
    obtain ⟨element, helement, hname, hallows⟩ := texts_allowed h written hmem (by simpa using hne)
    exact ⟨element, helement, by rw [hname], hallows⟩

/-- What no text of a source has, no text in the document has. -/
theorem notMem_texts {info : ComicInfo} {c : Char} (hc : 127 ≤ c.toNat)
    (h : ∀ s ∈ info.sourceTexts, c ∉ s.toList) : ∀ field ∈ info.texts, c ∉ field.2.toList := by
  have hprinted {s : String} (hs : ∀ c ∈ s.toList, 32 ≤ c.toNat ∧ c.toNat < 127) :
      c ∉ s.toList := fun hmem => by
    have hbounds := hs c hmem
    omega
  have hoption {s : Option String} (hs : ∀ t ∈ s.toList, c ∉ t.toList) :
      c ∉ (s.getD "").toList := by
    cases s with
    | none => simp
    | some s => exact hs s (by simp)
  have hcomma : c ∉ ", ".toList := hprinted (by simp)
  have hjoined {ls : List String} (hls : ∀ t ∈ ls, c ∉ t.toList) :
      c ∉ (", ".intercalate ls).toList := by
    rw [String.toList_intercalate]
    apply notMem_intercalate hcomma
    intro l hl
    obtain ⟨t, ht, rfl⟩ := List.mem_map.mp hl
    exact hls t ht
  have hnumber {x : Option Binary32} : c ∉ ((x.map formatNumber).getD "").toList := by
    cases x with
    | none => simp
    | some x => exact hprinted (printed_formatNumber x)
  have hcount {n : Option UInt32} : c ∉ ((n.map toString).getD "").toList := by
    cases n with
    | none => simp
    | some n => exact hprinted (printed_int n.toNat)
  simp only [ComicInfo.sourceTexts, List.mem_append, or_imp, forall_and, List.mem_singleton,
    forall_eq] at h
  obtain ⟨⟨⟨⟨⟨⟨⟨htitle, hseries⟩, hsummary⟩, hwriters⟩, hpencillers⟩, hgenres⟩, hweb⟩,
    hlanguage⟩ := h
  intro field hfield
  simp only [ComicInfo.texts, List.mem_cons, List.not_mem_nil, or_false] at hfield
  rcases hfield with rfl | rfl | rfl | rfl | rfl | rfl | rfl | rfl | rfl | rfl | rfl | rfl | rfl |
    rfl | rfl
  · exact hoption htitle
  · exact hseries
  · exact hnumber
  · exact hnumber
  · exact hoption hsummary
  · cases hy : info.year with
    | none => simp
    | some y => exact hprinted (printed_int y.toInt)
  · exact hcount
  · exact hcount
  · exact hjoined hwriters
  · exact hjoined hpencillers
  · exact hjoined hgenres
  · exact hoption hweb
  · exact hprinted (printed_int info.pageCount.toNat)
  · exact hoption hlanguage
  · apply hprinted
    cases info.direction <;> simp [mangaValue]

/-- A reader gets the fields back from the document: it is well formed, its elements are those
that have something to hold, and each tells what it was written from. Where the numbers are in
range it is one of the schema. -/
theorem toXml_faithful (info : ComicInfo)
    (h : ∀ s ∈ info.sourceTexts, Char.ofNat 0xFFFE ∉ s.toList ∧ Char.ofNat 0xFFFF ∉ s.toList) :
    ∃ attributes children fields,
      parse info.toXml.toList = some (.element "ComicInfo".toList attributes children) ∧
      Xml.fields children = some fields ∧ List.Forall₂ ReadsAs info.elements fields ∧
      (info.InRange → Valid fields) := by
  have hfirst := notMem_texts (c := Char.ofNat 0xFFFE) (by decide) fun s hs => (h s hs).1
  have hsecond := notMem_texts (c := Char.ofNat 0xFFFF) (by decide) fun s hs => (h s hs).2
  obtain ⟨children, hparse, hfields⟩ :=
    parse_toXml fun field hfield => ⟨hfirst field hfield, hsecond field hfield⟩
  exact ⟨rootAttributes, children, _, hparse, hfields, readsAs_of_fits (contents_fit info),
    valid_written⟩

/-- A chapter of a half volume. -/
def halfVolume : ComicInfo where
  series := "Tom & Jerry"
  number := some 0x41280000
  volume := some 0x40600000
  pageCount := 18
  direction := .rightToLeft

theorem halfVolume_readable : ∃ attributes children fields,
    parse halfVolume.toXml.toList = some (.element "ComicInfo".toList attributes children) ∧
    Xml.fields children = some fields ∧ List.Forall₂ ReadsAs halfVolume.elements fields ∧
    Valid fields := by
  have hrange : halfVolume.InRange := by
    refine ⟨fun v hv hwhole => ?_, by decide, fun _ h => ?_, fun _ h => ?_⟩
    · have hhalf : Binary32.whole 0x40600000 = false := by decide
      obtain rfl : (0x40600000 : Binary32) = v := Option.some.inj hv
      rw [hhalf] at hwhole
      contradiction
    · cases h
    · cases h
  obtain ⟨attributes, children, fields, hparse, hfields, hread, hvalid⟩ :=
    toXml_faithful halfVolume (by decide)
  exact ⟨attributes, children, fields, hparse, hfields, hread, hvalid hrange⟩

/-- The volume of such a chapter is not among the elements. -/
theorem half_volume_lost : ¬ ∀ info : ComicInfo, ∃ attributes children fields,
    parse info.toXml.toList = some (.element "ComicInfo".toList attributes children) ∧
    Xml.fields children = some fields ∧
    (info.volume.isSome = true → "Volume".toList ∈ fields.map Prod.fst) := by
  intro h
  obtain ⟨attributes, children, fields, hparse, hfields, hvolume⟩ := h halfVolume
  have hclean : ∀ field ∈ halfVolume.texts,
      Char.ofNat 0xFFFE ∉ field.2.toList ∧ Char.ofNat 0xFFFF ∉ field.2.toList := by
    have hsources : ∀ s ∈ halfVolume.sourceTexts,
        Char.ofNat 0xFFFE ∉ s.toList ∧ Char.ofNat 0xFFFF ∉ s.toList := by decide
    exact fun field hfield =>
      ⟨notMem_texts (by decide) (fun s hs => (hsources s hs).1) field hfield,
      notMem_texts (by decide) (fun s hs => (hsources s hs).2) field hfield⟩
  obtain ⟨children', hparse', hfields'⟩ := parse_toXml hclean
  rw [hparse'] at hparse
  obtain ⟨-, -, rfl⟩ := Node.element.inj (Option.some.inj hparse)
  rw [hfields'] at hfields
  obtain rfl := Option.some.inj hfields
  have hmem := hvolume rfl
  rw [List.map_map] at hmem
  obtain ⟨field, hfield, hname⟩ := List.mem_map.mp hmem
  obtain ⟨htexts, hne⟩ := List.mem_filter.mp hfield
  have hname' : field.1 = "Volume" := String.toList_inj.mp hname
  have hwhole : halfVolume.volume.filter Binary32.whole = none := by decide
  simp only [ComicInfo.texts, hwhole, List.mem_cons, List.not_mem_nil, or_false] at htexts
  rcases htexts with rfl | rfl | rfl | rfl | rfl | rfl | rfl | rfl | rfl | rfl | rfl | rfl | rfl |
    rfl | rfl <;> simp at hname' hne

end Document

end Packaging
end Nyuka
