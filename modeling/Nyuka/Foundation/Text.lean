import Mathlib.Data.List.Basic
import Mathlib.Data.List.DropRight
import Mathlib.Data.Nat.Digits.Lemmas
import Mathlib.Tactic.IntervalCases
import Mathlib.Tactic.TypeStar

/-! Text put together from fields. Two texts that join their fields with a delimiter are told
apart by the fields as long as the delimiter occurs in none of them, and a number written
with a fixed count of digits is told apart by its value. -/
namespace Text

/-- The delimiter does not occur in the text. -/
def Plain (sep : Char) (s : String) : Prop := sep ∉ s.toList

instance (sep : Char) (s : String) : Decidable (Plain sep s) := by unfold Plain; infer_instance

/-- The parts of a text between its delimiters. -/
def fields (sep : Char) (s : String) : List String := (s.toList.splitOn sep).map String.ofList

theorem fields_of_plain {sep : Char} {s : String} (h : Plain sep s) : fields sep s = [s] := by
  simp [fields, List.splitOn_eq_singleton h]

theorem fields_cons {sep : Char} {a b s : String} (ha : Plain sep a)
    (hs : s.toList = a.toList ++ sep :: b.toList) : fields sep s = a :: fields sep b := by
  simp [fields, hs, List.splitOn_append_cons_self_of_not_mem ha]

/-- An interpolated text is its own interpolation. -/
@[simp] theorem toString_self (s : String) : toString s = s := rfl

theorem plain_append {sep : Char} {a b : String} (ha : Plain sep a) (hb : Plain sep b) :
    Plain sep (a ++ b) := by
  simp only [Plain, String.toList_append, List.mem_append, not_or]
  exact ⟨ha, hb⟩

theorem plain_nat (n : ℕ) {sep : Char} (hsep : sep.isDigit = false) : Plain sep (toString n) := by
  intro hmem
  have hdigits : sep ∈ Nat.toDigits 10 n := by
    rw [← Nat.toList_repr]
    exact hmem
  have hdigit := Nat.isDigit_of_mem_toDigits (by decide) (by decide) hdigits
  rw [hsep] at hdigit
  contradiction

theorem toString_nat_inj {a b : ℕ} (h : toString a = toString b) : a = b := by
  have hdigits := congrArg (fun s : String => Nat.ofDigitChars 10 s.toList 0) h
  simpa [Nat.toString_eq_ofList_toDigits] using hdigits

/-- A decimal integer has no delimiter other than a digit or a minus sign. -/
theorem plain_int (n : ℤ) {sep : Char} (hsep : sep.isDigit = false) (hminus : sep ≠ '-') :
    Plain sep (toString n) := by
  cases n with
  | ofNat n => exact plain_nat n hsep
  | negSucc n =>
    refine plain_append (a := "-") ?_ (plain_nat (n + 1) hsep)
    simpa [Plain] using hminus

theorem notMem_intercalate {α : Type*} {x : α} {sep : List α} (hsep : x ∉ sep)
    {ls : List (List α)} (hls : ∀ l ∈ ls, x ∉ l) : x ∉ sep.intercalate ls := by
  induction ls with
  | nil => simp
  | cons l ls ih =>
    cases ls with
    | nil => simpa using hls l (by simp)
    | cons l' ls =>
      simp only [List.intercalate_cons_cons, List.mem_append, not_or]
      exact ⟨⟨hls l (by simp), hsep⟩, ih fun l hl => hls l (List.mem_cons_of_mem _ hl)⟩

/-- The last `w` hexadecimal digits of a number, most significant first. -/
def hexDigits : ℕ → ℕ → List Char
  | 0, _ => []
  | w + 1, n => hexDigits w (n / 16) ++ [Nat.digitChar (n % 16)]

@[simp] theorem length_hexDigits (w n : ℕ) : (hexDigits w n).length = w := by
  induction w generalizing n with
  | zero => rfl
  | succ w ih => simp [hexDigits, ih]

theorem digitChar_inj {a b : ℕ} (ha : a < 16) (hb : b < 16)
    (h : Nat.digitChar a = Nat.digitChar b) : a = b := by
  have : ∀ a < 16, ∀ b < 16, Nat.digitChar a = Nat.digitChar b → a = b := by decide
  exact this a ha b hb h

/-- A character that is no hexadecimal digit does not occur. -/
theorem notMem_hexDigits {c : Char} (hc : ∀ d < 16, Nat.digitChar d ≠ c) (w n : ℕ) :
    c ∉ hexDigits w n := by
  induction w generalizing n with
  | zero => simp [hexDigits]
  | succ w ih =>
    simp only [hexDigits, List.mem_append, List.mem_singleton, not_or]
    exact ⟨ih _, (hc _ (Nat.mod_lt _ (by omega))).symm⟩

theorem hexDigits_inj {w a b : ℕ} (ha : a < 16 ^ w) (hb : b < 16 ^ w)
    (h : hexDigits w a = hexDigits w b) : a = b := by
  induction w generalizing a b with
  | zero => omega
  | succ w ih =>
    simp only [hexDigits] at h
    obtain ⟨hhigh, hlow⟩ := List.append_inj h (by simp)
    have hdiv : a / 16 = b / 16 := ih (by omega) (by omega) hhigh
    have hmod : a % 16 = b % 16 :=
      digitChar_inj (Nat.mod_lt _ (by omega)) (Nat.mod_lt _ (by omega)) (by simpa using hlow)
    omega

/-- The value of a hexadecimal digit of either case. -/
def hexDigit (c : Char) : Option ℕ :=
  if '0' ≤ c ∧ c ≤ '9' then some (c.toNat - 48)
  else if 'a' ≤ c ∧ c ≤ 'f' then some (c.toNat - 87)
  else if 'A' ≤ c ∧ c ≤ 'F' then some (c.toNat - 55)
  else none

/-- The value of hexadecimal digits, most significant first. -/
def hexValue (s : List Char) : Option ℕ :=
  s.foldlM (fun n c => (hexDigit c).map fun d => 16 * n + d) 0

private theorem hexDigit_digitChar {d : ℕ} (h : d < 16) : hexDigit (Nat.digitChar d) = some d := by
  have : ∀ d < 16, hexDigit (Nat.digitChar d) = some d := by decide
  exact this d h

theorem hexValue_hexDigits {w n : ℕ} (h : n < 16 ^ w) : hexValue (hexDigits w n) = some n := by
  induction w generalizing n with
  | zero =>
    obtain rfl : n = 0 := by omega
    rfl
  | succ w ih =>
    have hhigh : n / 16 < 16 ^ w := by omega
    have hlow : n % 16 < 16 := Nat.mod_lt _ (by omega)
    have hvalue := ih hhigh
    simp only [hexValue] at hvalue
    simp only [hexValue, hexDigits, List.foldlM_append, hvalue, List.foldlM_cons, List.foldlM_nil,
      hexDigit_digitChar hlow, Option.map_some, Option.bind_eq_bind, Option.bind_some]
    exact congrArg some (by omega)

/-- A whole number of at least `w` digits, filled up with zeros. -/
def padded (w n : ℕ) : List Char := (Nat.toDigits 10 n).leftpad w '0'

/-- `format!("{:0w$}", n)`: the sign counts towards the width. -/
def paddedInt (w : ℕ) (n : ℤ) : List Char :=
  if n < 0 then '-' :: padded (w - 1) n.natAbs else padded w n.natAbs

theorem isDigit_bounds {c : Char} (h : c.isDigit = true) : 48 ≤ c.toNat ∧ c.toNat ≤ 57 := by
  simpa [Char.isDigit, UInt32.le_iff_toNat_le] using h

theorem isLower_bounds {c : Char} (h : c.isLower = true) : 97 ≤ c.toNat ∧ c.toNat ≤ 122 := by
  have hcode : (decide (c.val ≥ 'a'.val) && decide (c.val ≤ 'z'.val)) = true := h
  rw [Bool.and_eq_true, decide_eq_true_eq, decide_eq_true_eq] at hcode
  exact ⟨UInt32.le_iff_toNat_le.mp hcode.1, UInt32.le_iff_toNat_le.mp hcode.2⟩

theorem isUpper_bounds {c : Char} (h : c.isUpper = true) : 65 ≤ c.toNat ∧ c.toNat ≤ 90 := by
  have hcode : c.val ≥ 'A'.val ∧ c.val ≤ 'Z'.val := of_decide_eq_true h
  exact ⟨UInt32.le_iff_toNat_le.mp hcode.1, UInt32.le_iff_toNat_le.mp hcode.2⟩

theorem toLower_eq_self {c : Char} (h : ¬ (65 ≤ c.toNat ∧ c.toNat ≤ 90)) : c.toLower = c := by
  unfold Char.toLower
  refine dif_neg fun hupper => h ?_
  simpa [UInt32.le_iff_toNat_le] using hupper

theorem mem_of_isDigit {c : Char} (h : c.isDigit = true) :
    c ∈ ['0', '1', '2', '3', '4', '5', '6', '7', '8', '9'] := by
  obtain ⟨hlow, hhigh⟩ := isDigit_bounds h
  rw [← Char.ofNat_toNat c]
  interval_cases c.toNat <;> decide

theorem isDigit_of_mem_toDigits {n : ℕ} {c : Char} (h : c ∈ Nat.toDigits 10 n) :
    c.isDigit = true := Nat.isDigit_of_mem_toDigits (by decide) (by decide) h

theorem isDigit_of_mem_padded {w n : ℕ} {c : Char} (h : c ∈ padded w n) : c.isDigit = true := by
  simp only [padded, List.leftpad, List.mem_append, List.mem_replicate] at h
  rcases h with ⟨-, rfl⟩ | h
  · rfl
  · exact isDigit_of_mem_toDigits h

@[simp] theorem padded_ne_nil (w n : ℕ) : padded w n ≠ [] := by
  simp [padded, List.leftpad, Nat.toDigits_ne_nil]

@[simp] theorem ofDigitChars_padded (w n : ℕ) : Nat.ofDigitChars 10 (padded w n) 0 = n := by
  simp [padded, List.leftpad, Nat.ofDigitChars_append, Nat.ofDigitChars_replicate_zero]

theorem length_padded {w n : ℕ} (hw : 0 < w) (hn : n < 10 ^ w) : (padded w n).length = w := by
  have hlen := (Nat.length_toDigits_le_iff (by decide : 1 < 10) hw).mpr hn
  simp [padded, hlen]

/-- Fillings of any widths are told apart by the numbers. -/
theorem padded_value_inj {v w m n : ℕ} (h : padded v m = padded w n) : m = n := by
  simpa using congrArg (Nat.ofDigitChars 10 · 0) h

theorem ofDigitChars_lt {l : List Char} (hl : ∀ c ∈ l, c.isDigit = true) :
    Nat.ofDigitChars 10 l 0 < 10 ^ l.length := by
  induction l with
  | nil => simp
  | cons c l ih =>
    have htail := ih fun d hd => hl d (List.mem_cons_of_mem c hd)
    have hc := isDigit_bounds (hl c List.mem_cons_self)
    have hzero : '0'.toNat = 48 := rfl
    have hhead : 10 ^ l.length * (10 * 0 + (c.toNat - '0'.toNat)) ≤ 10 ^ l.length * 9 :=
      Nat.mul_le_mul_left _ (by omega)
    rw [Nat.ofDigitChars_cons, Nat.ofDigitChars_eq_ofDigitChars_zero, List.length_cons,
      Nat.pow_succ]
    omega

/-- Digits of one length are in the order of their values, whatever comes after them. -/
theorem append_lt_append_of_digits {l m s t : List Char} (hl : ∀ c ∈ l, c.isDigit = true)
    (hm : ∀ c ∈ m, c.isDigit = true) (hlen : l.length = m.length)
    (h : Nat.ofDigitChars 10 l 0 < Nat.ofDigitChars 10 m 0) : l ++ s < m ++ t := by
  induction l generalizing m with
  | nil =>
    obtain rfl : m = [] := List.length_eq_zero_iff.mp hlen.symm
    simp at h
  | cons c l ih =>
    cases m with
    | nil => cases hlen
    | cons d m =>
      have hsize : l.length = m.length := Nat.succ.inj hlen
      have hl' : ∀ c ∈ l, c.isDigit = true := fun e he => hl e (List.mem_cons_of_mem c he)
      have hm' : ∀ c ∈ m, c.isDigit = true := fun e he => hm e (List.mem_cons_of_mem d he)
      have hc := isDigit_bounds (hl c List.mem_cons_self)
      have hd := isDigit_bounds (hm d List.mem_cons_self)
      rw [Nat.ofDigitChars_cons, Nat.ofDigitChars_cons,
        Nat.ofDigitChars_eq_ofDigitChars_zero, Nat.ofDigitChars_eq_ofDigitChars_zero (l := m),
        hsize] at h
      have hbound := ofDigitChars_lt hm'
      have hzero : '0'.toNat = 48 := rfl
      rw [List.cons_append, List.cons_append, List.cons_lt_cons_iff]
      rcases Nat.lt_trichotomy c.toNat d.toNat with hlt | heq | hgt
      · exact .inl (Char.lt_def.mpr (UInt32.lt_iff_toNat_lt.mpr hlt))
      · obtain rfl : c = d := Char.toNat_inj.mp heq
        exact .inr ⟨rfl, ih hl' hm' hsize (by omega)⟩
      · -- a greater leading digit outweighs all that follow
        have hstep : 10 ^ m.length * (10 * 0 + (d.toNat - '0'.toNat) + 1) ≤
            10 ^ m.length * (10 * 0 + (c.toNat - '0'.toNat)) := Nat.mul_le_mul_left _ (by omega)
        rw [Nat.mul_succ] at hstep
        omega

/-- Fillings of one width are in the order of the numbers, whatever comes after them. -/
theorem padded_append_lt {w m n : ℕ} {s t : List Char} (hmn : m < n) (hn : n < 10 ^ w) :
    padded w m ++ s < padded w n ++ t := by
  have hw : 0 < w := Nat.pos_of_ne_zero fun h => by
    subst h
    omega
  refine append_lt_append_of_digits (fun c => isDigit_of_mem_padded)
    (fun c => isDigit_of_mem_padded) ?_ (by simpa using hmn)
  rw [length_padded hw (hmn.trans hn), length_padded hw hn]

theorem isDigit_or_minus_of_mem_paddedInt {w : ℕ} {n : ℤ} {c : Char} (h : c ∈ paddedInt w n) :
    c.isDigit = true ∨ c = '-' := by
  unfold paddedInt at h
  split at h
  · rcases List.mem_cons.mp h with rfl | h
    · exact Or.inr rfl
    · exact Or.inl (isDigit_of_mem_padded h)
  · exact Or.inl (isDigit_of_mem_padded h)

theorem paddedInt_inj {w : ℕ} {m n : ℤ} (h : paddedInt w m = paddedInt w n) : m = n := by
  have hminus (v k : ℕ) : '-' ∉ padded v k := fun hmem => by
    have := isDigit_of_mem_padded hmem
    contradiction
  unfold paddedInt at h
  split at h <;> split at h
  · have := padded_value_inj (List.cons.inj h).2
    omega
  · exact absurd (h ▸ List.mem_cons_self) (hminus _ _)
  · exact absurd (h.symm ▸ List.mem_cons_self) (hminus _ _)
  · have := padded_value_inj h
    omega

section Words
variable {blank : Char → Bool}

/-- The pieces of a text between the blanks. -/
def words (blank : Char → Bool) (s : List Char) : List (List Char) :=
  (s.splitOnP blank).filter fun w => !w.isEmpty

private theorem mem_of_mem_splitOnP {s w : List Char} (hw : w ∈ s.splitOnP blank) {c : Char}
    (hc : c ∈ w) : c ∈ s := by
  induction s generalizing w with
  | nil => simp_all
  | cons x s ih =>
    obtain ⟨h, t, hsplit⟩ := List.exists_cons_of_ne_nil (List.splitOnP_ne_nil blank s)
    rw [List.splitOnP_cons_eq_if_modifyHead, hsplit] at hw
    rw [hsplit] at ih
    split at hw
    · rcases List.mem_cons.mp hw with rfl | hw
      · simp at hc
      · exact List.mem_cons_of_mem _ (ih hw hc)
    · rcases List.mem_cons.mp hw with rfl | hw
      · rcases List.mem_cons.mp hc with rfl | hc
        · exact List.mem_cons_self
        · exact List.mem_cons_of_mem _ (ih List.mem_cons_self hc)
      · exact List.mem_cons_of_mem _ (ih (List.mem_cons_of_mem _ hw) hc)

theorem mem_of_mem_words {s w : List Char} (hw : w ∈ words blank s) {c : Char} (hc : c ∈ w) :
    c ∈ s := mem_of_mem_splitOnP (List.mem_of_mem_filter hw) hc

theorem words_append_cons {c : Char} (hc : blank c = true) (s t : List Char) :
    words blank (s ++ c :: t) = words blank s ++ words blank t := by
  simp only [words, List.splitOnP_append_cons _ _ hc, List.filter_append]

theorem words_singleton {w : List Char} (hw : ∀ c ∈ w, blank c = false) (hne : w ≠ []) :
    words blank w = [w] := by
  simp [words, List.splitOnP_eq_singleton hw, hne]

/-- Words appended to a text, each behind a blank, are its last words. -/
theorem words_append_flatMap (hblank : blank ' ' = true) {ws : List (List Char)}
    (hws : ∀ w ∈ ws, (∀ c ∈ w, blank c = false) ∧ w ≠ []) (s : List Char) :
    words blank (s ++ ws.flatMap (' ' :: ·)) = words blank s ++ ws := by
  induction ws generalizing s with
  | nil => simp
  | cons w ws ih =>
    obtain ⟨hw, hne⟩ := hws w List.mem_cons_self
    have hrest := ih (fun w hw => hws w (List.mem_cons_of_mem _ hw)) (s ++ ' ' :: w)
    rw [words_append_cons hblank, words_singleton hw hne] at hrest
    simpa using hrest

theorem intercalate_append {α : Type*} (sep : List α) {ls ms : List (List α)} (hls : ls ≠ [])
    (hms : ms ≠ []) :
    sep.intercalate (ls ++ ms) = sep.intercalate ls ++ sep ++ sep.intercalate ms := by
  induction ls with
  | nil => contradiction
  | cons l ls ih =>
    cases ls with
    | nil =>
      obtain ⟨m, ms, rfl⟩ := List.exists_cons_of_ne_nil hms
      simp
    | cons l' ls =>
      have := ih (by simp)
      simp only [List.cons_append, List.intercalate_cons_cons, List.append_assoc] at this ⊢
      rw [this]

/-- Words without blanks are told apart by their joined text. -/
theorem intercalate_inj {ws vs : List (List Char)} (hws : ∀ w ∈ ws, ' ' ∉ w)
    (hvs : ∀ v ∈ vs, ' ' ∉ v)
    (hws' : ws ≠ []) (hvs' : vs ≠ []) (h : [' '].intercalate ws = [' '].intercalate vs) :
    ws = vs := by
  rw [← List.splitOn_intercalate ' ' hws hws', h, List.splitOn_intercalate ' ' hvs hvs']

theorem blank_of_mem_splitOnP {s w : List Char} (hw : w ∈ s.splitOnP blank) :
    ∀ c ∈ w, blank c = false := by
  induction s generalizing w with
  | nil =>
    rw [List.splitOnP_nil, List.mem_singleton] at hw
    simp [hw]
  | cons x s ih =>
    obtain ⟨h, t, hsplit⟩ := List.exists_cons_of_ne_nil (List.splitOnP_ne_nil blank s)
    rw [List.splitOnP_cons_eq_if_modifyHead, hsplit] at hw
    rw [hsplit] at ih
    split at hw
    · rcases List.mem_cons.mp hw with rfl | hw
      · simp
      · exact ih hw
    · next hx =>
      rcases List.mem_cons.mp hw with rfl | hw
      · intro c hc
        rcases List.mem_cons.mp hc with rfl | hc
        · simpa using hx
        · exact ih List.mem_cons_self c hc
      · exact ih (List.mem_cons_of_mem _ hw)

/-- A part of a text between its blanks is a part of the text. -/
theorem infix_of_mem_splitOnP {s w : List Char} (hw : w ∈ s.splitOnP blank) : w <:+: s := by
  have hspec (s : List Char) : ∃ w ws tail, s.splitOnP blank = w :: ws ∧ s = w ++ tail ∧
      ∀ v ∈ ws, v <:+: s := by
    induction s with
    | nil => exact ⟨[], [], [], by simp, rfl, by simp⟩
    | cons x s ih =>
      obtain ⟨w, ws, tail, hsplit, hs, hws⟩ := ih
      rw [List.splitOnP_cons_eq_if_modifyHead, hsplit]
      split
      · refine ⟨[], w :: ws, x :: s, rfl, rfl, fun v hv => ?_⟩
        rcases List.mem_cons.mp hv with rfl | hv
        · exact ⟨[x], tail, by simp [hs]⟩
        · exact (hws v hv).trans ⟨[x], [], by simp⟩
      · refine ⟨x :: w, ws, tail, rfl, by simp [hs], fun v hv => ?_⟩
        exact (hws v hv).trans ⟨[x], [], by simp⟩
  obtain ⟨v, vs, tail, hsplit, hs, hvs⟩ := hspec s
  rw [hsplit] at hw
  rcases List.mem_cons.mp hw with rfl | hw
  · exact ⟨[], tail, by simp [hs]⟩
  · exact hvs w hw

/-- A text of words with single blanks between them. -/
def Joined (blank : Char → Bool) (s : List Char) : Prop :=
  ∃ ws, (∀ w ∈ ws, (∀ c ∈ w, blank c = false) ∧ w ≠ []) ∧ s = [' '].intercalate ws

theorem joined_words (blank : Char → Bool) (s : List Char) :
    Joined blank ([' '].intercalate (words blank s)) := by
  refine ⟨_, fun w hw => ?_, rfl⟩
  obtain ⟨hmem, hne⟩ := List.mem_filter.mp hw
  exact ⟨blank_of_mem_splitOnP hmem, by simpa using hne⟩

private theorem words_intercalate (hblank : blank ' ' = true) {ws : List (List Char)}
    (hws : ∀ w ∈ ws, (∀ c ∈ w, blank c = false) ∧ w ≠ []) :
    words blank ([' '].intercalate ws) = ws := by
  induction ws with
  | nil => rfl
  | cons w ws ih =>
    obtain ⟨hw, hne⟩ := hws w List.mem_cons_self
    have hrest := ih fun w hw => hws w (List.mem_cons_of_mem _ hw)
    cases ws with
    | nil => rw [List.intercalate_singleton, words_singleton hw hne]
    | cons w' ws =>
      rw [List.intercalate_cons_cons, List.append_assoc, List.singleton_append,
        words_append_cons hblank, words_singleton hw hne, hrest, List.singleton_append]

/-- Such a text is joined of its words. -/
theorem Joined.intercalate_words (hblank : blank ' ' = true) {s : List Char}
    (h : Joined blank s) : [' '].intercalate (words blank s) = s := by
  obtain ⟨ws, hws, rfl⟩ := h
  rw [words_intercalate hblank hws]

theorem Joined.singleton {w : List Char} (hw : ∀ c ∈ w, blank c = false) : Joined blank w := by
  by_cases hne : w = []
  · exact ⟨[], by simp, by simp [hne]⟩
  · exact ⟨[w], by simpa [hne] using hw, by simp⟩

/-- A word before such a text. -/
theorem Joined.cons_word {w s : List Char} (hw : ∀ c ∈ w, blank c = false) (hne : w ≠ [])
    (hs : Joined blank s) (hsne : s ≠ []) : Joined blank (w ++ ' ' :: s) := by
  obtain ⟨ws, hws, rfl⟩ := hs
  have hws' : ws ≠ [] := by
    rintro rfl
    exact hsne rfl
  obtain ⟨v, vs, rfl⟩ := List.exists_cons_of_ne_nil hws'
  refine ⟨w :: v :: vs, fun u hu => ?_, by simp⟩
  rcases List.mem_cons.mp hu with rfl | hu
  · exact ⟨hw, hne⟩
  · exact hws u hu

/-- A beginning that does not end with a blank. -/
theorem Joined.of_initial (hblank : blank ' ' = true) {p q : List Char}
    (h : Joined blank (p ++ q)) (hlast : ∀ c ∈ p.getLast?, blank c = false) : Joined blank p := by
  obtain ⟨ws, hws, heq⟩ := h
  induction ws generalizing p with
  | nil =>
    rw [List.intercalate_nil, List.append_eq_nil_iff] at heq
    rw [heq.1]
    exact .singleton (by simp)
  | cons w ws ih =>
    obtain ⟨hw, hne⟩ := hws w List.mem_cons_self
    cases ws with
    | nil =>
      rw [List.intercalate_singleton] at heq
      exact .singleton fun c hc => hw c (heq ▸ List.mem_append_left _ hc)
    | cons w' ws =>
      rw [List.intercalate_cons_cons, List.append_assoc, List.singleton_append] at heq
      rcases List.append_eq_append_iff.mp heq with ⟨a, ha, -⟩ | ⟨a, rfl, ha⟩
      · exact .singleton fun c hc => hw c (ha ▸ List.mem_append_left _ hc)
      · cases a with
        | nil => simpa using Joined.singleton hw
        | cons d a =>
          obtain ⟨rfl, hrest⟩ := List.cons.inj ha
          have hane : a ≠ [] := by
            rintro rfl
            have := hlast ' ' (by simp)
            rw [hblank] at this
            cases this
          have hlast' : ∀ c ∈ a.getLast?, blank c = false := fun c hc => hlast c (by
            rw [List.getLast?_append_of_ne_nil _ (by simp), List.getLast?_cons,
              Option.mem_def.mp hc]
            simp)
          exact .cons_word hw hne
            (ih hlast' (fun w hw => hws w (List.mem_cons_of_mem _ hw)) hrest.symm) hane

/-- An end that does not begin with a blank. -/
theorem Joined.of_suffix (hblank : blank ' ' = true) {p q : List Char}
    (h : Joined blank (q ++ p)) (hhead : ∀ c ∈ p.head?, blank c = false) : Joined blank p := by
  obtain ⟨ws, hws, heq⟩ := h
  induction ws generalizing q with
  | nil =>
    rw [List.intercalate_nil, List.append_eq_nil_iff] at heq
    rw [heq.2]
    exact .singleton (by simp)
  | cons w ws ih =>
    obtain ⟨hw, hne⟩ := hws w List.mem_cons_self
    have hws' : ∀ w ∈ ws, (∀ c ∈ w, blank c = false) ∧ w ≠ [] :=
      fun w hw => hws w (List.mem_cons_of_mem _ hw)
    cases ws with
    | nil =>
      rw [List.intercalate_singleton] at heq
      exact .singleton fun c hc => hw c (heq ▸ List.mem_append_right _ hc)
    | cons w' ws =>
      rw [List.intercalate_cons_cons, List.append_assoc, List.singleton_append] at heq
      have hblankHead : ∀ rest, p ≠ ' ' :: rest := by
        rintro rest rfl
        have := hhead ' ' (by simp)
        rw [hblank] at this
        cases this
      rcases List.append_eq_append_iff.mp heq with ⟨a, rfl, ha⟩ | ⟨a, rfl, ha⟩
      · cases a with
        | nil => exact absurd ha (hblankHead _)
        | cons d a =>
          rw [ha]
          refine .cons_word (fun c hc => hw c (List.mem_append_right _ hc)) (by simp)
            ⟨_, hws', rfl⟩ ?_
          obtain ⟨-, hne'⟩ := hws' w' List.mem_cons_self
          cases ws <;> simp [hne']
      · cases a with
        | nil => exact absurd ha.symm (hblankHead _)
        | cons d a => exact ih hws' (List.cons.inj ha).2.symm

/-- All its blanks are the one between words. -/
theorem Joined.eq_of_blank {s : List Char} (h : Joined blank s) {c : Char} (hc : c ∈ s)
    (hblank : blank c = true) : c = ' ' := by
  obtain ⟨ws, hws, rfl⟩ := h
  by_contra hne
  refine notMem_intercalate (by simpa using hne) (fun w hw hmem => ?_) hc
  rw [(hws w hw).1 c hmem] at hblank
  cases hblank

end Words

/-- `s.trim_matches(p)` -/
def trimMatches (p : Char → Bool) (s : List Char) : List Char := (s.dropWhile p).rdropWhile p

theorem mem_of_mem_trimMatches {p : Char → Bool} {s : List Char} {c : Char}
    (h : c ∈ trimMatches p s) : c ∈ s :=
  (List.dropWhile_suffix p).subset ((List.rdropWhile_prefix p _).subset h)

section Trim
variable {p : Char → Bool} {s : List Char} {c : Char}

theorem of_head_trimMatches (h : c ∈ (trimMatches p s).head?) : p c = false := by
  have hne : s.dropWhile p ≠ [] := by
    intro hnil
    simp [trimMatches, hnil] at h
  obtain ⟨d, rest, hd⟩ := List.exists_cons_of_ne_nil hne
  have hhead : p d = false := by
    have := List.head_dropWhile_not p hne
    simpa [hd] using this
  obtain ⟨tail, htail⟩ := List.rdropWhile_prefix p (s.dropWhile p)
  rw [trimMatches] at h
  cases htrim : (s.dropWhile p).rdropWhile p with
  | nil => simp [htrim] at h
  | cons e t =>
    rw [htrim, hd] at htail
    have he : e = d := (List.cons.inj htail).1
    have hc : e = c := by simpa [htrim] using h
    rwa [← hc, he]

theorem of_getLast_trimMatches (h : c ∈ (trimMatches p s).getLast?) : p c = false := by
  rw [trimMatches] at h
  have hne : (s.dropWhile p).rdropWhile p ≠ [] := by
    intro hnil
    simp [hnil] at h
  have hlast := List.rdropWhile_last_not p (s.dropWhile p) hne
  rw [List.getLast?_eq_some_getLast hne, Option.mem_some_iff] at h
  simpa [h] using hlast

/-- A text whose ends are kept is kept. -/
theorem trimMatches_eq_self (hhead : ∀ c ∈ s.head?, p c = false)
    (hlast : ∀ c ∈ s.getLast?, p c = false) : trimMatches p s = s := by
  have hdrop : s.dropWhile p = s := by
    cases s with
    | nil => rfl
    | cons c s => simp [hhead c (by simp)]
  rw [trimMatches, hdrop, List.rdropWhile_eq_self_iff]
  intro hne
  simp [hlast _ (List.getLast_mem_getLast? hne)]

end Trim

theorem trimMatches_of_none {p : Char → Bool} {s : List Char} (hs : ∀ c ∈ s, p c = false) :
    trimMatches p s = s := by
  have hdrop : s.dropWhile p = s := by
    rw [List.dropWhile_eq_self_iff]
    exact fun hlen => by simp [hs _ (List.getElem_mem hlen)]
  rw [trimMatches, hdrop, List.rdropWhile_eq_self_iff]
  exact fun hne => by simp [hs _ (List.getLast_mem hne)]

section Blanks
variable {p : Char → Bool} {w : List Char}

theorem trimMatches_append_left (hw : ∀ c ∈ w, p c = true) (s : List Char) :
    trimMatches p (w ++ s) = trimMatches p s := by
  rw [trimMatches, List.dropWhile_append_of_pos hw, trimMatches]

theorem rdropWhile_append_right (hw : ∀ c ∈ w, p c = true) (s : List Char) :
    (s ++ w).rdropWhile p = s.rdropWhile p := by
  rw [List.rdropWhile, List.rdropWhile, List.reverse_append,
    List.dropWhile_append_of_pos fun c hc => hw c (List.mem_reverse.mp hc)]

theorem trimMatches_append_right (hw : ∀ c ∈ w, p c = true) (s : List Char) :
    trimMatches p (s ++ w) = trimMatches p s := by
  rw [trimMatches, trimMatches, List.dropWhile_append]
  split
  · next hnil =>
    have hdrop : w.dropWhile p = [] := List.dropWhile_eq_nil_iff.mpr hw
    rw [hdrop, List.isEmpty_iff.mp hnil]
  · exact rdropWhile_append_right hw _

theorem trimMatches_of_all (hw : ∀ c ∈ w, p c = true) : trimMatches p w = [] := by
  have h := trimMatches_append_left hw []
  rwa [List.append_nil] at h

theorem trimMatches_padded {before after s : List Char} (hbefore : ∀ c ∈ before, p c = true)
    (hs : ∀ c ∈ s, p c = false) (hafter : ∀ c ∈ after, p c = true) :
    trimMatches p (before ++ s ++ after) = s := by
  rw [trimMatches_append_right hafter, trimMatches_append_left hbefore, trimMatches_of_none hs]

/-- What is trimmed are blanks on both sides. -/
theorem exists_trimMatches (p : Char → Bool) (s : List Char) :
    ∃ before after, s = before ++ trimMatches p s ++ after ∧
      (∀ c ∈ before, p c = true) ∧ ∀ c ∈ after, p c = true := by
  refine ⟨s.takeWhile p, (s.dropWhile p).rtakeWhile p, ?_, fun c hc => ?_, fun c hc => ?_⟩
  · rw [trimMatches, List.append_assoc, List.rdropWhile_append_rtakeWhile,
      List.takeWhile_append_dropWhile]
  · exact List.mem_takeWhile_imp hc
  · exact List.mem_rtakeWhile_imp hc

/-- A character that is not a blank is not trimmed. -/
theorem mem_trimMatches {c : Char} (hc : p c = false) {s : List Char} :
    c ∈ trimMatches p s ↔ c ∈ s := by
  refine ⟨mem_of_mem_trimMatches, fun h => ?_⟩
  obtain ⟨before, after, hsplit, hbefore, hafter⟩ := exists_trimMatches p s
  rw [hsplit, List.mem_append, List.mem_append] at h
  rcases h with (h | h) | h
  · exact absurd ((hbefore c h).symm.trans hc) (by decide)
  · exact h
  · exact absurd ((hafter c h).symm.trans hc) (by decide)

/-- What is dropped from the end does not reach a character that is kept. -/
theorem rdropWhile_append_cons {c : Char} (hc : p c = false) (s t : List Char) :
    (s ++ c :: t).rdropWhile p = s ++ c :: t.rdropWhile p := by
  have hrest : t = t.rdropWhile p ++ t.rtakeWhile p := List.rdropWhile_append_rtakeWhile.symm
  have hblank : ∀ d ∈ t.rtakeWhile p, p d = true := fun d hd => List.mem_rtakeWhile_imp hd
  conv_lhs => rw [hrest]
  rw [← List.cons_append, ← List.append_assoc, rdropWhile_append_right hblank,
    List.rdropWhile_eq_self_iff]
  intro hne
  rcases List.eq_nil_or_concat (t.rdropWhile p) with hnil | ⟨front, d, hd⟩
  · simp [hnil, hc]
  · have hlast := List.rdropWhile_last_not p t (by rw [hd]; simp)
    simp only [hd, List.concat_eq_append] at hlast ⊢
    simpa using hlast

/-- Around a delimiter both sides are trimmed on their own. -/
theorem trimMatches_append_cons {c : Char} (hc : p c = false) (s t : List Char) :
    trimMatches p (s ++ c :: t) = s.dropWhile p ++ c :: t.rdropWhile p := by
  have hdrop : (s ++ c :: t).dropWhile p = s.dropWhile p ++ c :: t := by
    rw [List.dropWhile_append]
    split
    · next hnil => rw [List.isEmpty_iff.mp hnil, List.dropWhile_cons_of_neg (by simp [hc])]; rfl
    · rfl
  rw [trimMatches, hdrop, rdropWhile_append_cons hc]

@[simp] theorem trimMatches_dropWhile (p : Char → Bool) (s : List Char) :
    trimMatches p (s.dropWhile p) = trimMatches p s := by
  have hblank : ∀ c ∈ s.takeWhile p, p c = true := fun c hc => List.mem_takeWhile_imp hc
  have h := trimMatches_append_left hblank (s.dropWhile p)
  rw [List.takeWhile_append_dropWhile] at h
  exact h.symm

@[simp] theorem trimMatches_rdropWhile (p : Char → Bool) (s : List Char) :
    trimMatches p (s.rdropWhile p) = trimMatches p s := by
  have hblank : ∀ c ∈ s.rtakeWhile p, p c = true := fun c hc => List.mem_rtakeWhile_imp hc
  have h := trimMatches_append_right hblank (s.rdropWhile p)
  rw [List.rdropWhile_append_rtakeWhile] at h
  exact h.symm

end Blanks

/-- Quotes are trimmed from a text that has none of its own. -/
theorem trimMatches_quoted {p : Char → Bool} {q : Char} {s : List Char} (hq : p q = true)
    (hs : ∀ c ∈ s, p c = false) : trimMatches p (q :: (s ++ [q])) = s := by
  have hdrop : (s ++ [q]).dropWhile p = if s = [] then [] else s ++ [q] := by
    cases s with
    | nil => simp [hq]
    | cons c s => simp [hs c List.mem_cons_self]
  rw [trimMatches, List.dropWhile_cons_of_pos hq, hdrop]
  split
  · next hnil => rw [hnil, List.rdropWhile_nil]
  · rw [List.rdropWhile_concat_pos _ _ _ hq, List.rdropWhile_eq_self_iff]
    exact fun hne => by simp [hs _ (List.getLast_mem hne)]

section Bytes

/-- How many bytes a text has. -/
def bytes (s : List Char) : ℕ := (s.map Char.utf8Size).sum

/-- The longest beginning of a text that fits. -/
def takeBytes : ℕ → List Char → List Char
  | _, [] => []
  | room, c :: s => if c.utf8Size ≤ room then c :: takeBytes (room - c.utf8Size) s else []

theorem bytes_takeBytes_le (room : ℕ) (s : List Char) : bytes (takeBytes room s) ≤ room := by
  induction s generalizing room with
  | nil => exact Nat.zero_le _
  | cons c s ih =>
    unfold takeBytes
    split
    · next hfits =>
      have hrest := ih (room - c.utf8Size)
      simp only [bytes, List.map_cons, List.sum_cons] at hrest ⊢
      omega
    · exact Nat.zero_le _

theorem takeBytes_initial (room : ℕ) (s : List Char) : takeBytes room s <+: s := by
  induction s generalizing room with
  | nil => exact List.prefix_rfl
  | cons c s ih =>
    unfold takeBytes
    split
    · exact List.cons_prefix_cons.mpr ⟨rfl, ih _⟩
    · exact List.nil_prefix

/-- A beginning that fits is part of the longest one. -/
theorem prefix_takeBytes {p s : List Char} {room : ℕ} (hp : p <+: s) (hfits : bytes p ≤ room) :
    p <+: takeBytes room s := by
  induction p generalizing s room with
  | nil => exact List.nil_prefix
  | cons c p ih =>
    obtain ⟨t, rfl⟩ := hp
    simp only [bytes, List.map_cons, List.sum_cons] at hfits
    rw [List.cons_append, takeBytes, if_pos (by omega)]
    exact List.cons_prefix_cons.mpr ⟨rfl, ih (List.prefix_append p t) (by unfold bytes; omega)⟩

@[simp] theorem bytes_append (s t : List Char) :
    bytes (s ++ t) = bytes s + bytes t := by simp [bytes]

/-- Nothing is taken from behind a beginning that fills the room. -/
theorem takeBytes_of_initial {p s : List Char} {room : ℕ} (hp : p <+: s) (hfull : room ≤ bytes p) :
    takeBytes room s = takeBytes room p := by
  obtain ⟨t, rfl⟩ := hp
  induction p generalizing room with
  | nil =>
    obtain rfl : room = 0 := Nat.le_zero.mp hfull
    cases t with
    | nil => rfl
    | cons c t =>
      have hc := c.utf8Size_pos
      show takeBytes 0 (c :: t) = []
      unfold takeBytes
      exact if_neg (by omega)
  | cons c p ih =>
    simp only [bytes, List.map_cons, List.sum_cons] at hfull
    have hrest : room - c.utf8Size ≤ bytes p := by
      unfold bytes
      omega
    rw [List.cons_append, takeBytes, takeBytes, ih hrest]

/-- `str::split_at`: nothing comes back inside a character. -/
def splitAtByte (n : ℕ) (s : List Char) : Option (List Char × List Char) :=
  if bytes (takeBytes n s) = n then some (takeBytes n s, s.drop (takeBytes n s).length) else none

theorem splitAtByte_eq_some {n : ℕ} {s a b : List Char} :
    splitAtByte n s = some (a, b) ↔ s = a ++ b ∧ bytes a = n := by
  unfold splitAtByte
  constructor
  · intro h
    split at h
    · next hfull =>
      cases h
      exact ⟨(List.prefix_iff_eq_append.mp (takeBytes_initial n s)).symm, hfull⟩
    · cases h
  · rintro ⟨rfl, rfl⟩
    have hself : takeBytes (bytes a) a = a :=
      List.IsPrefix.eq_of_length_le (takeBytes_initial _ _)
        (prefix_takeBytes List.prefix_rfl le_rfl).length_le
    rw [takeBytes_of_initial (List.prefix_append a b) le_rfl, hself, if_pos rfl, List.drop_left]

/-- Of a text that does not fit, what is taken ends at the first character too many. -/
theorem takeBytes_eq_iff {room : ℕ} {s front : List Char} (hover : room < bytes s) :
    takeBytes room s = front ↔
      ∃ c rest, s = front ++ c :: rest ∧ bytes front ≤ room ∧ room < bytes (front ++ [c]) := by
  induction s generalizing room front with
  | nil => simp [bytes] at hover
  | cons d s ih =>
    simp only [bytes, List.map_cons, List.sum_cons] at hover
    unfold takeBytes
    by_cases hd : d.utf8Size ≤ room
    · rw [if_pos hd]
      have hrest : room - d.utf8Size < bytes s := by unfold bytes; omega
      constructor
      · rintro rfl
        obtain ⟨c, rest, hs, hfits, hlarge⟩ := (ih hrest).mp rfl
        refine ⟨c, rest, by rw [List.cons_append, ← hs], ?_, ?_⟩
        · simp only [bytes, List.map_cons, List.sum_cons] at hfits ⊢
          omega
        · simp only [bytes, List.map_append, List.sum_append, List.map_cons, List.sum_cons,
            List.cons_append] at hlarge ⊢
          omega
      · rintro ⟨c, rest, hs, hfits, hlarge⟩
        cases front with
        | nil =>
          obtain ⟨rfl, rfl⟩ := List.cons.inj hs
          simp only [bytes, List.nil_append, List.map_cons, List.map_nil, List.sum_cons,
            List.sum_nil] at hlarge
          omega
        | cons e front =>
          obtain ⟨rfl, hs'⟩ := List.cons.inj hs
          refine congrArg (d :: ·) ((ih hrest).mpr ⟨c, rest, hs', ?_, ?_⟩)
          · simp only [bytes, List.map_cons, List.sum_cons] at hfits ⊢
            omega
          · simp only [bytes, List.map_append, List.sum_append, List.map_cons, List.sum_cons,
              List.cons_append] at hlarge ⊢
            omega
    · rw [if_neg hd]
      constructor
      · rintro rfl
        refine ⟨d, s, rfl, Nat.zero_le _, ?_⟩
        simp only [bytes, List.nil_append, List.map_cons, List.map_nil, List.sum_cons, List.sum_nil]
        omega
      · rintro ⟨c, rest, hs, hfits, -⟩
        cases front with
        | nil => rfl
        | cons e front =>
          obtain ⟨rfl, -⟩ := List.cons.inj hs
          simp only [bytes, List.map_cons, List.sum_cons] at hfits
          omega

theorem bytes_le_length (s : List Char) : bytes s ≤ 4 * s.length := by
  induction s with
  | nil => exact Nat.zero_le _
  | cons c s ih =>
    have hc := c.utf8Size_le_four
    simp only [bytes, List.map_cons, List.sum_cons, List.length_cons] at ih ⊢
    omega

theorem bytes_of_ascii {s : List Char} (hs : ∀ c ∈ s, c.toNat < 128) : bytes s = s.length := by
  induction s with
  | nil => rfl
  | cons c s ih =>
    have hc : c.utf8Size = 1 := by
      have hlow := hs c List.mem_cons_self
      simp only [Char.utf8Size]
      rw [if_pos]
      simpa [UInt32.le_iff_toNat_le] using Nat.le_of_lt_succ hlow
    have hrest := ih fun d hd => hs d (List.mem_cons_of_mem c hd)
    simp only [bytes, List.map_cons, List.sum_cons, List.length_cons] at hrest ⊢
    omega

end Bytes

end Text
