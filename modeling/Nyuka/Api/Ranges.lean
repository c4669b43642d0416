import Nyuka.Api.Files

/-! Single byte ranges: their grammar, what `parse_range` makes of a header, and a file that is
asked for piece by piece. -/
namespace Nyuka
namespace Api
open Packaging Queue

/-- What a single range asks for. -/
inductive ByteRange where
  | closed (first last : ℕ)
  | fromOn (first : ℕ)
  | suffix (length : ℕ)
deriving DecidableEq, Repr

namespace ByteRange

/-- First and last position of what a range selects of a file. A range that ends before it begins
is invalid, and one that selects nothing is not satisfiable. -/
def positions (size : ℕ) : ByteRange → Option (ℕ × ℕ)
  | closed first last =>
    if first ≤ last ∧ first < size then some (first, min last (size - 1)) else none
  | fromOn first => if first < size then some (first, size - 1) else none
  | suffix length => if 0 < length ∧ 0 < size then some (size - length, size - 1) else none

/-- The numbers of a range. -/
def numbers : ByteRange → List ℕ
  | closed first last => [first, last]
  | fromOn first => [first]
  | suffix length => [length]

theorem positions_bounds {range : ByteRange} {size first last : ℕ}
    (h : range.positions size = some (first, last)) : first ≤ last ∧ last < size := by
  cases range with
  | closed a b =>
    obtain ⟨hcond, heq⟩ := Option.ite_none_right_eq_some.mp h
    obtain ⟨rfl, rfl⟩ := Prod.mk.inj (Option.some.inj heq)
    omega
  | fromOn a =>
    obtain ⟨hcond, heq⟩ := Option.ite_none_right_eq_some.mp h
    obtain ⟨rfl, rfl⟩ := Prod.mk.inj (Option.some.inj heq)
    omega
  | suffix n =>
    obtain ⟨hcond, heq⟩ := Option.ite_none_right_eq_some.mp h
    obtain ⟨rfl, rfl⟩ := Prod.mk.inj (Option.some.inj heq)
    omega

end ByteRange

/-- How the parts of a range are written: the unit, a number, and a number that is not given. -/
structure Spelling where
  unit : List Char → Prop
  number : List Char → ℕ → Prop
  absent : List Char → Prop

/-- The texts before and after the hyphen. -/
inductive Spelling.Spans (w : Spelling) (a b : List Char) : ByteRange → Prop
  | closed {first last : ℕ} : w.number a first → w.number b last → Spans w a b (.closed first last)
  | fromOn {first : ℕ} : w.number a first → w.absent b → Spans w a b (.fromOn first)
  | suffix {length : ℕ} : w.absent a → w.number b length → Spans w a b (.suffix length)

/-- The headers of a single range. -/
def Spelling.Writes (w : Spelling) (header : List Char) (range : ByteRange) : Prop :=
  ∃ u a b, header = u ++ '=' :: (a ++ '-' :: b) ∧ w.unit u ∧ w.Spans a b range

/-- `1*DIGIT` -/
structure Digits (s : List Char) (n : ℕ) : Prop where
  nonempty : s ≠ []
  digit : ∀ c ∈ s, c.isDigit = true
  value : Nat.ofDigitChars 10 s 0 = n

/-- RFC 9110, section 14: the name of a unit is case-insensitive, and numbers have any length. -/
def rfc9110 : Spelling where
  unit u := u.map Char.toLower = "bytes".toList
  number := Digits
  absent s := s = []

/-- A number of 64 bits with blanks around it and perhaps a plus sign. -/
def Padded (s : List Char) (n : ℕ) : Prop :=
  ∃ before plus digits after, s = before ++ (plus ++ digits) ++ after ∧
    (∀ c ∈ before, isWhitespace c = true) ∧ (∀ c ∈ after, isWhitespace c = true) ∧
    (plus = [] ∨ plus = ['+']) ∧ Digits digits n ∧ n < 2 ^ 64

/-- Blanks and plus signs are let through, but the unit is in small letters. -/
def lenient : Spelling where
  unit u := u = "bytes".toList
  number := Padded
  absent s := ∀ c ∈ s, isWhitespace c = true

section Parts

theorem Digits.toDigits (n : ℕ) : Digits (Nat.toDigits 10 n) n where
  nonempty := Nat.toDigits_ne_nil
  digit _ hc := Text.isDigit_of_mem_toDigits hc
  value := Nat.ofDigitChars_ten_toDigits

theorem notBlank_of_isDigit {c : Char} (h : c.isDigit = true) : isWhitespace c = false := by
  have hbounds := Text.isDigit_bounds h
  simp only [isWhitespace, Bool.or_eq_false_iff, Bool.and_eq_false_iff, decide_eq_false_iff_not]
  omega

theorem parseU64_eq_some {s : List Char} {n : ℕ} : parseU64 s = some n ↔
    ∃ plus digits, s = plus ++ digits ∧ (plus = [] ∨ plus = ['+']) ∧ Digits digits n ∧
      n < 2 ^ 64 := by
  have hread (digits : List Char) :
      (if (digits = [] || !digits.all Char.isDigit) = true then none
        else if Nat.ofDigitChars 10 digits 0 < 2 ^ 64 then some (Nat.ofDigitChars 10 digits 0)
          else none) = some n ↔ Digits digits n ∧ n < 2 ^ 64 := by
    rw [Option.ite_none_left_eq_some, Option.ite_none_right_eq_some]
    simp only [Bool.or_eq_true, decide_eq_true_eq, Bool.not_eq_true', not_or, Bool.not_eq_false,
      List.all_eq_true, Option.some.injEq]
    constructor
    · rintro ⟨⟨hne, hdigit⟩, hlt, rfl⟩
      exact ⟨⟨hne, hdigit, rfl⟩, hlt⟩
    · rintro ⟨⟨hne, hdigit, rfl⟩, hlt⟩
      exact ⟨⟨hne, hdigit⟩, hlt, rfl⟩
  unfold parseU64
  simp only
  rw [hread]
  constructor
  · intro h
    split at h
    · next hplus =>
      obtain ⟨rest, rfl⟩ := List.head?_eq_some_iff.mp hplus
      exact ⟨['+'], rest, rfl, Or.inr rfl, h⟩
    · exact ⟨[], s, rfl, Or.inl rfl, h⟩
  · rintro ⟨plus, digits, rfl, rfl | rfl, h⟩
    · have hne : ([] ++ digits).head? ≠ some '+' := by
        intro hplus
        obtain ⟨rest, hrest⟩ := List.head?_eq_some_iff.mp hplus
        have := h.1.digit '+' (by rw [← List.nil_append digits, hrest]; exact List.mem_cons_self)
        exact absurd this (by decide)
      rw [if_neg hne]
      exact h
    · rw [if_pos (show (['+'] ++ digits).head? = some '+' from rfl)]
      exact h

theorem padded_iff {s : List Char} {n : ℕ} : Padded s n ↔ parseU64 (trim s) = some n := by
  rw [parseU64_eq_some]
  constructor
  · rintro ⟨before, plus, digits, after, rfl, hbefore, hafter, hplus, hdigits, hlt⟩
    refine ⟨plus, digits, Text.trimMatches_padded hbefore (fun c hc => ?_) hafter, hplus, hdigits,
      hlt⟩
    rcases List.mem_append.mp hc with hc | hc
    · rcases hplus with rfl | rfl
      · cases hc
      · rw [List.mem_singleton.mp hc]
        decide
    · exact notBlank_of_isDigit (hdigits.digit c hc)
  · rintro ⟨plus, digits, heq, hplus, hdigits, hlt⟩
    obtain ⟨before, after, hs, hbefore, hafter⟩ := Text.exists_trimMatches isWhitespace s
    rw [trim] at heq
    rw [heq] at hs
    exact ⟨before, plus, digits, after, hs, hbefore, hafter, hplus, hdigits, hlt⟩

theorem Padded.digits {s : List Char} {n : ℕ} (h : Padded s n)
    (hs : ∀ c ∈ s, isWhitespace c = false ∧ c ≠ '+') : Digits s n := by
  obtain ⟨before, plus, digits, after, rfl, hbefore, hafter, hplus, hdigits, -⟩ := h
  have hb : before = [] := List.eq_nil_iff_forall_not_mem.mpr fun c hc => by
    have := (hs c (by simp [hc])).1
    simp [hbefore c hc] at this
  have ha : after = [] := List.eq_nil_iff_forall_not_mem.mpr fun c hc => by
    have := (hs c (by simp [hc])).1
    simp [hafter c hc] at this
  rcases hplus with rfl | rfl
  · simpa [hb, ha] using hdigits
  · exact absurd rfl (hs '+' (by simp)).2

theorem Digits.padded {s : List Char} {n : ℕ} (h : Digits s n) (hn : n < 2 ^ 64) : Padded s n :=
  ⟨[], [], s, [], by simp, by simp, by simp, Or.inl rfl, h, hn⟩

/-- What a number may be written with. -/
theorem Padded.mem {s : List Char} {n : ℕ} (h : Padded s n) {c : Char} (hc : c ∈ s) :
    isWhitespace c = true ∨ c = '+' ∨ c.isDigit = true := by
  obtain ⟨before, plus, digits, after, rfl, hbefore, hafter, hplus, hdigits, -⟩ := h
  simp only [List.mem_append] at hc
  rcases hc with (hc | hc | hc) | hc
  · exact Or.inl (hbefore c hc)
  · rcases hplus with rfl | rfl
    · cases hc
    · exact Or.inr (Or.inl (List.mem_singleton.mp hc))
  · exact Or.inr (Or.inr (hdigits.digit c hc))
  · exact Or.inl (hafter c hc)

theorem trim_eq_nil_iff {s : List Char} : trim s = [] ↔ ∀ c ∈ s, isWhitespace c = true := by
  constructor
  · intro h
    obtain ⟨before, after, hs, hbefore, hafter⟩ := Text.exists_trimMatches isWhitespace s
    rw [trim] at h
    rw [h, List.append_nil] at hs
    intro c hc
    rw [hs] at hc
    exact (List.mem_append.mp hc).elim (hbefore c) (hafter c)
  · exact fun h => Text.trimMatches_of_all h

theorem splitOnce_eq_some {c : Char} {s a b : List Char} :
    splitOnce c s = some (a, b) ↔ s = a ++ c :: b ∧ c ∉ a := by
  unfold splitOnce
  constructor
  · intro h
    obtain ⟨hmem, heq⟩ := Option.ite_none_right_eq_some.mp h
    obtain ⟨rfl, rfl⟩ := Prod.mk.inj (Option.some.inj heq)
    have hne : s.dropWhile (· ≠ c) ≠ [] := by
      intro hnil
      have := List.dropWhile_eq_nil_iff.mp hnil c hmem
      simp at this
    have hhead := List.head_dropWhile_not (· ≠ c) hne
    obtain ⟨d, rest, hrest⟩ := List.exists_cons_of_ne_nil hne
    simp only [hrest, List.head_cons, decide_eq_false_iff_not, not_not] at hhead
    refine ⟨?_, fun hc => ?_⟩
    · conv_lhs => rw [← @List.takeWhile_append_dropWhile _ (· ≠ c) s, hrest, hhead]
      rw [hrest, List.tail_cons]
    · simpa using List.mem_takeWhile_imp hc
  · rintro ⟨rfl, hc⟩
    have hall : ∀ d ∈ a, decide (d ≠ c) = true := by
      intro d hd
      exact decide_eq_true fun heq => hc (heq ▸ hd)
    rw [if_pos (by simp), List.takeWhile_append_of_pos hall, List.dropWhile_append_of_pos hall]
    simp

end Parts

section Parsing
variable {header a b : List Char} {size : ℕ}

theorem stripPrefix_eq_some {p s rest : List Char} :
    stripPrefix p s = some rest ↔ s = p ++ rest := by
  unfold stripPrefix
  constructor
  · intro h
    obtain ⟨hp, heq⟩ := Option.ite_none_right_eq_some.mp h
    rw [← Option.some.inj heq]
    exact (List.prefix_iff_eq_append.mp (List.isPrefixOf_iff_prefix.mp hp)).symm
  · rintro rfl
    rw [if_pos (List.isPrefixOf_iff_prefix.mpr (List.prefix_append _ _)), List.drop_left]

private theorem spans_of_requestedRange (hsize : 0 < size) {start last : ℕ}
    (h : requestedRange (trim a) (trim b) size = some (start, last)) (hle : start ≤ last)
    (hlt : start < size) :
    ∃ range, lenient.Spans a b range ∧ range.positions size = some (start, last) := by
  cases ha : trim a with
  | nil =>
    rw [ha] at h
    simp only [requestedRange, Option.bind_eq_bind, Option.bind_eq_some_iff] at h
    obtain ⟨n, hn, h⟩ := h
    obtain ⟨hpos, heq⟩ := Option.ite_none_left_eq_some.mp h
    refine ⟨.suffix n, .suffix (trim_eq_nil_iff.mp ha) (padded_iff.mpr hn), ?_⟩
    rw [ByteRange.positions, if_pos ⟨Nat.pos_of_ne_zero hpos, hsize⟩]
    exact heq
  | cons c s =>
    rw [ha] at h
    cases hb : trim b with
    | nil =>
      rw [hb] at h
      simp only [requestedRange, Option.bind_eq_bind, Option.bind_eq_some_iff] at h
      obtain ⟨n, hn, heq⟩ := h
      rw [← ha] at hn
      refine ⟨.fromOn n, .fromOn (padded_iff.mpr hn) (trim_eq_nil_iff.mp hb), ?_⟩
      obtain ⟨rfl, rfl⟩ := Prod.mk.inj (Option.some.inj heq)
      rw [ByteRange.positions, if_pos hlt]
    | cons d t =>
      rw [hb] at h
      simp only [requestedRange, Option.bind_eq_bind, Option.bind_eq_some_iff] at h
      obtain ⟨m, hm, n, hn, heq⟩ := h
      rw [← ha] at hm
      rw [← hb] at hn
      refine ⟨.closed m n, .closed (padded_iff.mpr hm) (padded_iff.mpr hn), ?_⟩
      obtain ⟨rfl, rfl⟩ := Prod.mk.inj (Option.some.inj heq)
      rw [ByteRange.positions, if_pos ⟨hle.trans (min_le_left _ _), hlt⟩]

private theorem requestedRange_of_spans {range : ByteRange} {start last : ℕ}
    (hspans : lenient.Spans a b range) (hpos : range.positions size = some (start, last)) :
    requestedRange (trim a) (trim b) size = some (start, last) := by
  have hne {s : List Char} {n : ℕ} (h : Padded s n) : ∃ c t, trim s = c :: t := by
    refine List.exists_cons_of_ne_nil fun hnil => ?_
    rw [padded_iff, hnil] at h
    cases h
  cases hspans with
  | closed ha hb =>
    obtain ⟨c, s, hs⟩ := hne ha
    obtain ⟨d, t, ht⟩ := hne hb
    have hm := padded_iff.mp ha
    have hn := padded_iff.mp hb
    rw [hs] at hm
    rw [ht] at hn
    obtain ⟨-, heq⟩ := Option.ite_none_right_eq_some.mp hpos
    simp only [hs, ht, requestedRange, hm, hn, Option.bind_eq_bind, Option.bind_some]
    exact heq
  | fromOn ha hb =>
    obtain ⟨c, s, hs⟩ := hne ha
    have hm := padded_iff.mp ha
    rw [hs] at hm
    have ht := trim_eq_nil_iff.mpr hb
    obtain ⟨-, heq⟩ := Option.ite_none_right_eq_some.mp hpos
    simp only [hs, ht, requestedRange, hm, Option.bind_eq_bind, Option.bind_some]
    exact heq
  | suffix ha hb =>
    have hn := padded_iff.mp hb
    have hs := trim_eq_nil_iff.mpr ha
    obtain ⟨hcond, heq⟩ := Option.ite_none_right_eq_some.mp hpos
    simp only [hs, requestedRange, hn, Option.bind_eq_bind, Option.bind_some]
    rw [if_neg (Nat.pos_iff_ne_zero.mp hcond.1)]
    exact heq

/-- What is asked for, and not refused afterwards, is what the texts span. -/
theorem requestedRange_iff (hsize : 0 < size) {start last : ℕ} :
    (requestedRange (trim a) (trim b) size = some (start, last) ∧ start ≤ last ∧ start < size) ↔
      ∃ range, lenient.Spans a b range ∧ range.positions size = some (start, last) := by
  constructor
  · rintro ⟨h, hle, hlt⟩
    exact spans_of_requestedRange hsize h hle hlt
  · rintro ⟨range, hspans, hpos⟩
    have hbounds := ByteRange.positions_bounds hpos
    exact ⟨requestedRange_of_spans hspans hpos, hbounds.1, by omega⟩

theorem Spelling.Spans.mem {range : ByteRange} (h : lenient.Spans a b range) {c : Char}
    (hc : c ∈ a ∨ c ∈ b) : isWhitespace c = true ∨ c = '+' ∨ c.isDigit = true := by
  cases h with
  | closed ha hb => exact hc.elim (Padded.mem ha) (Padded.mem hb)
  | fromOn ha hb => exact hc.elim (Padded.mem ha) fun hc => Or.inl (hb c hc)
  | suffix ha hb => exact hc.elim (fun hc => Or.inl (ha c hc)) (Padded.mem hb)

/-- What `parse_range` accepts, and its answer. -/
theorem parseRange_eq_some {r : ℕ × ℕ} : parseRange header size = some r ↔
    ∃ range start last, lenient.Writes header range ∧
      range.positions size = some (start, last) ∧
      r = (start, min last ((start + maxRangeBytes - 1) % 2 ^ 64)) := by
  constructor
  · intro h
    unfold parseRange at h
    obtain ⟨hsize, h⟩ := Option.ite_none_left_eq_some.mp h
    simp only [Option.bind_eq_bind, Option.bind_eq_some_iff] at h
    obtain ⟨spec, hspec, h⟩ := h
    obtain ⟨hcomma, h⟩ := Option.ite_none_left_eq_some.mp h
    simp only [Option.bind_eq_some_iff] at h
    obtain ⟨⟨a', b'⟩, hsplit, ⟨start, last⟩, hrequest, h⟩ := h
    obtain ⟨hcheck, heq⟩ := Option.ite_none_left_eq_some.mp h
    simp only [Bool.or_eq_true, decide_eq_true_eq, not_or, not_lt, ge_iff_le, not_le] at hcheck
    obtain ⟨hspec', -⟩ := splitOnce_eq_some.mp hsplit
    obtain ⟨before, after, hpadded, hbefore, hafter⟩ := Text.exists_trimMatches isWhitespace spec
    have ha : trim a' = trim (before ++ a') := (Text.trimMatches_append_left hbefore a').symm
    have hb : trim b' = trim (b' ++ after) := (Text.trimMatches_append_right hafter b').symm
    rw [ha, hb] at hrequest
    obtain ⟨range, hspans, hpos⟩ :=
      (requestedRange_iff (Nat.pos_of_ne_zero hsize)).mp ⟨hrequest, hcheck⟩
    refine ⟨range, start, last, ⟨"bytes".toList, _, _, ?_, rfl, hspans⟩, hpos,
      (Option.some.inj heq).symm⟩
    rw [trim] at hspec'
    rw [stripPrefix_eq_some.mp hspec, hpadded, hspec']
    simp
  · rintro ⟨range, start, last, ⟨u, a, b, rfl, rfl, hspans⟩, hpos, rfl⟩
    have hbounds := ByteRange.positions_bounds hpos
    have hsize : 0 < size := by omega
    obtain ⟨hrequest, hle, hlt⟩ := (requestedRange_iff hsize).mpr ⟨range, hspans, hpos⟩
    have htrim : trim (a ++ '-' :: b) =
        a.dropWhile isWhitespace ++ '-' :: b.rdropWhile isWhitespace :=
      Text.trimMatches_append_cons (by decide) a b
    have hspec : stripPrefix "bytes=".toList ("bytes".toList ++ '=' :: (a ++ '-' :: b)) =
        some (a ++ '-' :: b) := stripPrefix_eq_some.mpr rfl
    have hmem {c : Char} (hc : c ∈ a.dropWhile isWhitespace ∨ c ∈ b.rdropWhile isWhitespace) :
        isWhitespace c = true ∨ c = '+' ∨ c.isDigit = true :=
      hspans.mem (hc.imp ((List.dropWhile_suffix _).subset ·)
        ((List.rdropWhile_prefix _ _).subset ·))
    have hcomma : ',' ∉ trim (a ++ '-' :: b) := by
      rw [htrim, List.mem_append, List.mem_cons]
      rintro (hc | hc | hc)
      · exact absurd (hmem (Or.inl hc)) (by decide)
      · exact absurd hc (by decide)
      · exact absurd (hmem (Or.inr hc)) (by decide)
    have hhyphen : '-' ∉ a.dropWhile isWhitespace :=
      fun hc => absurd (hmem (Or.inl hc)) (by decide)
    have hsplit := splitOnce_eq_some.mpr ⟨htrim, hhyphen⟩
    have ha : trim (a.dropWhile isWhitespace) = trim a := Text.trimMatches_dropWhile _ a
    have hb : trim (b.rdropWhile isWhitespace) = trim b := Text.trimMatches_rdropWhile _ b
    unfold parseRange
    rw [if_neg (Nat.pos_iff_ne_zero.mp hsize), hspec]
    simp only [Option.bind_eq_bind, Option.bind_some]
    rw [if_neg hcomma, hsplit]
    simp only [Option.bind_some, ha, hb, hrequest]
    rw [if_neg]
    simp only [Bool.or_eq_true, decide_eq_true_eq]
    omega

end Parsing

/-- An answer as RFC 9110 has it: none when nothing is selected, otherwise what is selected up to
the most that is sent at once. -/
def Answers (header : List Char) (size : ℕ) : Option (ℕ × ℕ) → Prop
  | none => ∀ range, rfc9110.Writes header range → range.positions size = none
  | some (start, last) => start ≤ last ∧ last < size ∧ last - start + 1 ≤ maxRangeBytes ∧
      ∃ range wanted, rfc9110.Writes header range ∧
        range.positions size = some (start, wanted) ∧ last = min wanted (start + maxRangeBytes - 1)

/-- The headers that are read as RFC 9110 has them. -/
structure Plain (header : List Char) (size : ℕ) : Prop where
  unit : ∀ range, rfc9110.Writes header range → range.positions size ≠ none →
    "bytes=".toList <+: header
  small : ∀ range, rfc9110.Writes header range → range.positions size ≠ none →
    ∀ n ∈ range.numbers, n < 2 ^ 64
  room : ∀ range start last, rfc9110.Writes header range →
    range.positions size = some (start, last) → start + maxRangeBytes ≤ 2 ^ 64
  bare : (∃ c ∈ header, isWhitespace c = true ∨ c = '+') →
    ∀ range, lenient.Writes header range → range.positions size = none

section Grammar
variable {header : List Char} {range range' : ByteRange} {size : ℕ}

private theorem toLower_of_blank {c : Char} (h : isWhitespace c = true ∨ c = '+') :
    c.toLower = c := by
  apply Text.toLower_eq_self
  rcases h with h | rfl
  · simp only [isWhitespace, Bool.or_eq_true, Bool.and_eq_true, decide_eq_true_eq] at h
    omega
  · decide

/-- The grammar has neither blanks nor plus signs. -/
theorem bare_of_writes (h : rfc9110.Writes header range) {c : Char} (hc : c ∈ header) :
    ¬ (isWhitespace c = true ∨ c = '+') := by
  obtain ⟨u, a, b, rfl, hu, hspans⟩ := h
  have hdigit {s : List Char} {n : ℕ} (hs : Digits s n) (hc : c ∈ s) :
      ¬ (isWhitespace c = true ∨ c = '+') := by
    have hd := hs.digit c hc
    rintro (hblank | rfl)
    · simp [notBlank_of_isDigit hd] at hblank
    · exact absurd hd (by decide)
  have hends : c ∈ a ∨ c ∈ b → ¬ (isWhitespace c = true ∨ c = '+') := by
    cases hspans with
    | closed ha hb => exact fun hc => hc.elim (hdigit ha) (hdigit hb)
    | fromOn ha hb =>
      obtain rfl : b = [] := hb
      exact fun hc => hc.elim (hdigit ha) fun hc => absurd hc List.not_mem_nil
    | suffix ha hb =>
      obtain rfl : a = [] := ha
      exact fun hc => hc.elim (fun hc => absurd hc List.not_mem_nil) (hdigit hb)
  simp only [List.mem_append, List.mem_cons] at hc
  rcases hc with hc | rfl | hc | rfl | hc
  · intro hblank
    have hmem : c.toLower ∈ u.map Char.toLower := List.mem_map_of_mem hc
    rw [toLower_of_blank hblank, show u.map Char.toLower = "bytes".toList from hu] at hmem
    have hletter : c.toNat < 123 ∧ 97 ≤ c.toNat := by
      have hall : ("bytes".toList.all fun d => d.toNat < 123 && 97 ≤ d.toNat) = true := by decide
      simpa using List.all_eq_true.mp hall c hmem
    rcases hblank with hblank | rfl
    · simp only [isWhitespace, Bool.or_eq_true, Bool.and_eq_true, decide_eq_true_eq] at hblank
      omega
    · exact absurd hletter (by decide)
  · decide
  · exact hends (Or.inl hc)
  · decide
  · exact hends (Or.inr hc)

theorem lenient_of_rfc9110 (h : rfc9110.Writes header range) (hunit : "bytes=".toList <+: header)
    (hsmall : ∀ n ∈ range.numbers, n < 2 ^ 64) : lenient.Writes header range := by
  obtain ⟨u, a, b, rfl, hu, hspans⟩ := h
  refine ⟨u, a, b, rfl, ?_, ?_⟩
  · have hlength : u.length = 5 := by
      have h := congrArg List.length (show u.map Char.toLower = "bytes".toList from hu)
      rwa [List.length_map] at h
    have htake : (u ++ '=' :: (a ++ '-' :: b)).take 6 = "bytes".toList ++ ['='] :=
      (List.prefix_iff_eq_take.mp hunit).symm
    have hu' : (u ++ '=' :: (a ++ '-' :: b)).take 6 = u ++ ['='] := by
      rw [List.take_append, hlength, List.take_of_length_le (by omega)]
      rfl
    exact (List.append_inj' (hu'.symm.trans htake) rfl).1
  · cases hspans with
    | closed ha hb =>
      exact .closed (Digits.padded ha (hsmall _ (by simp [ByteRange.numbers])))
        (Digits.padded hb (hsmall _ (by simp [ByteRange.numbers])))
    | fromOn ha hb =>
      obtain rfl : b = [] := hb
      exact .fromOn (Digits.padded ha (hsmall _ (by simp [ByteRange.numbers])))
        fun c hc => absurd hc List.not_mem_nil
    | suffix ha hb =>
      obtain rfl : a = [] := ha
      exact .suffix (fun c hc => absurd hc List.not_mem_nil)
        (Digits.padded hb (hsmall _ (by simp [ByteRange.numbers])))

theorem rfc9110_of_lenient (h : lenient.Writes header range)
    (hbare : ∀ c ∈ header, ¬ (isWhitespace c = true ∨ c = '+')) : rfc9110.Writes header range := by
  obtain ⟨u, a, b, rfl, rfl, hspans⟩ := h
  have hends {s : List Char} (hs : s = a ∨ s = b) :
      ∀ c ∈ s, isWhitespace c = false ∧ c ≠ '+' := by
    intro c hc
    have hmem : c ∈ "bytes".toList ++ '=' :: (a ++ '-' :: b) := by
      rcases hs with rfl | rfl <;> simp [hc]
    have hnot := hbare c hmem
    rw [not_or, Bool.not_eq_true] at hnot
    exact hnot
  have hnil {s : List Char} (hs : s = a ∨ s = b) (hblank : ∀ c ∈ s, isWhitespace c = true) :
      s = [] := by
    refine List.eq_nil_iff_forall_not_mem.mpr fun c hc => ?_
    simpa [(hends hs c hc).1] using hblank c hc
  have hu : "bytes".toList.map Char.toLower = "bytes".toList := by decide
  refine ⟨_, a, b, rfl, hu, ?_⟩
  cases hspans with
  | closed ha hb =>
    exact .closed (Padded.digits ha (hends (Or.inl rfl))) (Padded.digits hb (hends (Or.inr rfl)))
  | fromOn ha hb => exact .fromOn (Padded.digits ha (hends (Or.inl rfl))) (hnil (Or.inr rfl) hb)
  | suffix ha hb => exact .suffix (hnil (Or.inl rfl) ha) (Padded.digits hb (hends (Or.inr rfl)))

/-- A text is split at a delimiter in one way when none comes before. -/
theorem split_unique {c : Char} {s t s' t' : List Char} (hs : c ∉ s) (hs' : c ∉ s')
    (h : s ++ c :: t = s' ++ c :: t') : s = s' ∧ t = t' := by
  have heq := (splitOnce_eq_some.mpr ⟨rfl, hs⟩).symm.trans (splitOnce_eq_some.mpr ⟨h, hs'⟩)
  exact Prod.mk.inj (Option.some.inj heq)

theorem rfc9110_unique (h : rfc9110.Writes header range) (h' : rfc9110.Writes header range') :
    range = range' := by
  obtain ⟨u, a, b, rfl, hu, hspans⟩ := h
  obtain ⟨u', a', b', heq, hu', hspans'⟩ := h'
  have hunit {u : List Char} (hu : u.map Char.toLower = "bytes".toList) : '=' ∉ u := by
    intro hmem
    have h : Char.toLower '=' ∈ u.map Char.toLower := List.mem_map_of_mem hmem
    rw [hu] at h
    exact absurd h (by decide)
  have hstart {a b : List Char} {range : ByteRange} (h : rfc9110.Spans a b range) : '-' ∉ a := by
    have hnumber {n : ℕ} (ha : Digits a n) : '-' ∉ a := fun hmem =>
      absurd (ha.digit _ hmem) (by decide)
    cases h with
    | closed ha hb => exact hnumber ha
    | fromOn ha hb => exact hnumber ha
    | suffix ha hb =>
      obtain rfl : a = [] := ha
      exact List.not_mem_nil
  obtain ⟨-, hrest⟩ := split_unique (hunit hu) (hunit hu') heq
  obtain ⟨rfl, rfl⟩ := split_unique (hstart hspans) (hstart hspans') hrest
  have hvalue {s : List Char} {m n : ℕ} (hm : Digits s m) (hn : Digits s n) : m = n :=
    hm.value.symm.trans hn.value
  have hnone {s : List Char} {n : ℕ} (hn : Digits s n) (hs : s = []) : False := hn.nonempty hs
  cases hspans with
  | closed ha hb =>
    cases hspans' with
    | closed ha' hb' => rw [hvalue ha ha', hvalue hb hb']
    | fromOn ha' hb' => exact (hnone hb hb').elim
    | suffix ha' hb' => exact (hnone ha ha').elim
  | fromOn ha hb =>
    cases hspans' with
    | closed ha' hb' => exact (hnone hb' hb).elim
    | fromOn ha' hb' => rw [hvalue ha ha']
    | suffix ha' hb' => exact (hnone ha ha').elim
  | suffix ha hb =>
    cases hspans' with
    | closed ha' hb' => exact (hnone ha' ha).elim
    | fromOn ha' hb' => exact (hnone ha' ha).elim
    | suffix ha' hb' => rw [hvalue hb hb']

theorem unit_of_lenient (h : lenient.Writes header range) : "bytes=".toList <+: header := by
  obtain ⟨u, a, b, rfl, rfl, -⟩ := h
  exact ⟨a ++ '-' :: b, rfl⟩

private theorem small_of_lenient (h : lenient.Writes header range) :
    ∀ n ∈ range.numbers, n < 2 ^ 64 := by
  obtain ⟨u, a, b, -, -, hspans⟩ := h
  have hsmall {s : List Char} {n : ℕ} (h : Padded s n) : n < 2 ^ 64 := by
    obtain ⟨-, -, -, -, -, -, -, -, -, hn⟩ := h
    exact hn
  intro n hn
  cases hspans with
  | closed ha hb =>
    rcases List.mem_pair.mp hn with rfl | rfl
    · exact hsmall ha
    · exact hsmall hb
  | fromOn ha hb =>
    rw [List.mem_singleton.mp hn]
    exact hsmall ha
  | suffix ha hb =>
    rw [List.mem_singleton.mp hn]
    exact hsmall hb

/-- A header is answered as RFC 9110 has it if and only if it is one of those. -/
theorem answers_iff_plain (hsize : size < 2 ^ 64) :
    Answers header size (parseRange header size) ↔ Plain header size := by
  constructor
  · intro h
    -- A range the grammar has is also one the parser takes.
    have htaken {range : ByteRange} (hw : rfc9110.Writes header range)
        (hpos : range.positions size ≠ none) : lenient.Writes header range := by
      cases hparse : parseRange header size with
      | none =>
        rw [hparse] at h
        exact absurd (h range hw) hpos
      | some r =>
        obtain ⟨range', -, -, hw', -, -⟩ := parseRange_eq_some.mp hparse
        have hrfc := rfc9110_of_lenient hw' fun c hc => bare_of_writes hw hc
        rwa [rfc9110_unique hw hrfc]
    refine ⟨fun range hw hpos => unit_of_lenient (htaken hw hpos),
      fun range hw hpos => small_of_lenient (htaken hw hpos), fun range start last hw hpos => ?_,
      fun ⟨c, hc, hblank⟩ range hw => ?_⟩
    · by_contra hroom
      have hlenient := htaken hw (by simp [hpos])
      have hparse := parseRange_eq_some.mpr ⟨range, start, last, hlenient, hpos, rfl⟩
      rw [hparse] at h
      have hbounds := ByteRange.positions_bounds hpos
      have hle : start ≤ (start + maxRangeBytes - 1) % 2 ^ 64 := h.1.trans (min_le_right _ _)
      simp only [maxRangeBytes] at hroom hle
      omega
    · by_contra hpos
      obtain ⟨⟨start, last⟩, hpos⟩ := Option.ne_none_iff_exists'.mp hpos
      rw [parseRange_eq_some.mpr ⟨range, start, last, hw, hpos, rfl⟩] at h
      obtain ⟨-, -, -, range', -, hw', -⟩ := h
      exact bare_of_writes hw' hc hblank
  · intro h
    cases hparse : parseRange header size with
    | none =>
      intro range hw
      by_contra hpos
      have hlenient := lenient_of_rfc9110 hw (h.unit range hw hpos) (h.small range hw hpos)
      obtain ⟨⟨start, last⟩, hpos⟩ := Option.ne_none_iff_exists'.mp hpos
      rw [parseRange_eq_some.mpr ⟨range, start, last, hlenient, hpos, rfl⟩] at hparse
      cases hparse
    | some r =>
      obtain ⟨range, start, last, hw, hpos, rfl⟩ := parseRange_eq_some.mp hparse
      have hbare : ∀ c ∈ header, ¬ (isWhitespace c = true ∨ c = '+') := by
        intro c hc hblank
        rw [h.bare ⟨c, hc, hblank⟩ range hw] at hpos
        cases hpos
      have hrfc := rfc9110_of_lenient hw hbare
      have hroom := h.room range start last hrfc hpos
      have hbounds := ByteRange.positions_bounds hpos
      have hwrap : (start + maxRangeBytes - 1) % 2 ^ 64 = start + maxRangeBytes - 1 :=
        Nat.mod_eq_of_lt (by omega)
      rw [hwrap]
      refine ⟨?_, ?_, ?_, range, last, hrfc, hpos, rfl⟩ <;> simp only [maxRangeBytes] <;> omega

end Grammar

section Tiling

/-- A file as the system holds it. -/
structure StoredFile where
  bytes : Bytes
  fits : bytes.length < 2 ^ 64

/-- `bytes=p-` -/
def restFrom (p : ℕ) : List Char := "bytes=".toList ++ (Nat.toDigits 10 p ++ ['-'])

def headerValue (s : List Char) : Bytes := s.map fun c => UInt8.ofNat c.toNat

/-- Asking for the rest from a position on, again and again from behind the last answer, until it
is refused. -/
inductive Fetched (download : DownloadedChapter) (file : StoredFile) : ℕ → List Bytes → Prop
  | done {p : ℕ} :
      (respondFile download file.bytes (some (headerValue (restFrom p)))).status = 416 →
      Fetched download file p []
  | more {p start last : ℕ} {response : Response} {parts : List Bytes} :
      respondFile download file.bytes (some (headerValue (restFrom p))) = response →
      response.status = 206 →
      response.header "content-range" = some s!"bytes {start}-{last}/{file.bytes.length}" →
      Fetched download file (last + 1) parts → Fetched download file p (response.body :: parts)

/-- The file is fetched to its end, and the answers in a row are the file. -/
def Tiled (download : DownloadedChapter) (file : StoredFile) : Prop :=
  (∃ parts, Fetched download file 0 parts) ∧
    ∀ parts, Fetched download file 0 parts → parts.flatten = file.bytes

theorem headerToStr_headerValue {s : List Char} (hs : ∀ c ∈ s, 32 ≤ c.toNat ∧ c.toNat < 127) :
    headerToStr (headerValue s) = some (String.ofList s) := by
  have hbyte {c : Char} (hc : c ∈ s) : (UInt8.ofNat c.toNat).toNat = c.toNat := by
    have := hs c hc
    rw [UInt8.toNat_ofNat']
    omega
  have hall : (headerValue s).all visibleAscii = true := by
    rw [List.all_eq_true]
    intro b hb
    obtain ⟨c, hc, rfl⟩ := List.mem_map.mp hb
    have := hs c hc
    simp only [visibleAscii, Bool.or_eq_true, Bool.and_eq_true, decide_eq_true_eq]
    refine Or.inl ⟨?_, ?_⟩
    · rw [UInt8.le_iff_toNat_le, hbyte hc]
      exact this.1
    · rw [UInt8.lt_iff_toNat_lt, hbyte hc]
      exact this.2
  have hback : (headerValue s).map (fun b => Char.ofNat b.toNat) = s := by
    rw [headerValue, List.map_map]
    refine (List.map_congr_left fun c hc => ?_).trans (List.map_id s)
    rw [Function.comp_apply, hbyte hc, Char.ofNat_toNat, id]
  rw [headerToStr, if_pos hall, hback]

theorem restFrom_visible (p : ℕ) : ∀ c ∈ restFrom p, 32 ≤ c.toNat ∧ c.toNat < 127 := by
  intro c hc
  have hunit : ("bytes=".toList.all fun d => 32 ≤ d.toNat && d.toNat < 127) = true := by decide
  change c ∈ "bytes=".toList ++ (Nat.toDigits 10 p ++ ['-']) at hc
  simp only [List.mem_append, List.mem_singleton] at hc
  rcases hc with hc | hc | rfl
  · simpa using List.all_eq_true.mp hunit c hc
  · have := Text.isDigit_bounds (Text.isDigit_of_mem_toDigits hc)
    omega
  · decide

theorem restFrom_writes (p : ℕ) : rfc9110.Writes (restFrom p) (.fromOn p) := by
  have hunit : "bytes".toList.map Char.toLower = "bytes".toList := by decide
  exact ⟨"bytes".toList, Nat.toDigits 10 p, [], rfl, hunit, .fromOn (Digits.toDigits p) rfl⟩

variable {download : DownloadedChapter} {file : StoredFile} {p : ℕ}

theorem parseRange_restFrom (hp : p < file.bytes.length) :
    parseRange (restFrom p) file.bytes.length =
      some (p, min (file.bytes.length - 1) ((p + maxRangeBytes - 1) % 2 ^ 64)) := by
  have hsmall : ∀ n ∈ (ByteRange.fromOn p).numbers, n < 2 ^ 64 := by
    intro n hn
    rw [List.mem_singleton.mp hn]
    exact hp.trans file.fits
  have hlenient := lenient_of_rfc9110 (restFrom_writes p) (List.prefix_append _ _) hsmall
  refine parseRange_eq_some.mpr ⟨_, _, _, hlenient, ?_, rfl⟩
  rw [ByteRange.positions, if_pos hp]

private theorem parseRange_restFrom_end (hp : file.bytes.length ≤ p) :
    parseRange (restFrom p) file.bytes.length = none := by
  rw [Option.eq_none_iff_forall_ne_some]
  intro r hr
  obtain ⟨range, start, last, hw, hpos, -⟩ := parseRange_eq_some.mp hr
  have hrfc := rfc9110_of_lenient hw fun c hc => bare_of_writes (restFrom_writes p) hc
  obtain rfl := rfc9110_unique (restFrom_writes p) hrfc
  rw [ByteRange.positions, if_neg (by omega)] at hpos
  cases hpos

theorem respondFile_refused (hp : file.bytes.length ≤ p) :
    (respondFile download file.bytes (some (headerValue (restFrom p)))).status = 416 := by
  simp only [respondFile, headerToStr_headerValue (restFrom_visible p), Option.bind_some,
    String.toList_ofList, parseRange_restFrom_end hp]

/-- The last position of the answer. -/
def lastFrom (file : StoredFile) (p : ℕ) : ℕ :=
  min (file.bytes.length - 1) ((p + maxRangeBytes - 1) % 2 ^ 64)

theorem respondFile_rest (hp : p < file.bytes.length) :
    respondFile download file.bytes (some (headerValue (restFrom p))) =
      { status := 206
        headers := entityHeaders download ++
          [("content-range", s!"bytes {p}-{lastFrom file p}/{file.bytes.length}")]
        body := (file.bytes.drop p).take (lastFrom file p - p + 1) } := by
  simp only [respondFile, headerToStr_headerValue (restFrom_visible p), Option.bind_some,
    String.toList_ofList, parseRange_restFrom hp, lastFrom]

theorem header_contentRange (download : DownloadedChapter) (status : ℕ) (body : Bytes)
    (value : String) : Response.header
      ⟨status, entityHeaders download ++ [("content-range", value)], body⟩ "content-range" =
        some value := by
  unfold entityHeaders
  split <;> rfl

/-- The text of a range tells its last position. -/
theorem contentRange_inj {start last first other size : ℕ}
    (h : s!"bytes {start}-{last}/{size}" = s!"bytes {first}-{other}/{size}") : last = other := by
  have htext (m n : ℕ) : (s!"bytes {m}-{n}/{size}").toList =
      ("bytes ".toList ++ Nat.toDigits 10 m) ++ '-' :: (Nat.toDigits 10 n ++
        '/' :: Nat.toDigits 10 size) := by
    simp
  have hhyphen (m : ℕ) : '-' ∉ "bytes ".toList ++ Nat.toDigits 10 m := by
    intro hc
    rcases List.mem_append.mp hc with hc | hc
    · exact absurd hc (by decide)
    · exact absurd (Text.isDigit_of_mem_toDigits hc) (by decide)
  have hslash (n : ℕ) : '/' ∉ Nat.toDigits 10 n := fun hc =>
    absurd (Text.isDigit_of_mem_toDigits hc) (by decide)
  have heq := congrArg String.toList h
  rw [htext, htext] at heq
  obtain ⟨-, hrest⟩ := split_unique (hhyphen start) (hhyphen first) heq
  have hdigits := (split_unique (hslash last) (hslash other) hrest).1
  have hvalue := congrArg (fun s => Nat.ofDigitChars 10 s 0) hdigits
  simpa using hvalue

/-- The positions a client asks from: the end, or one where no sum wraps. -/
def Boundary (file : StoredFile) (p : ℕ) : Prop :=
  p = file.bytes.length ∨ (p < file.bytes.length ∧ maxRangeBytes ∣ p)

theorem lastFrom_of_boundary (h : Boundary file p) (hp : p < file.bytes.length) :
    lastFrom file p + 1 = min file.bytes.length (p + maxRangeBytes) ∧
      Boundary file (lastFrom file p + 1) := by
  obtain rfl | ⟨-, k, rfl⟩ := h
  · omega
  · have hfits := file.fits
    have hlast : lastFrom file (maxRangeBytes * k) + 1 =
        min file.bytes.length (maxRangeBytes * k + maxRangeBytes) := by
      simp only [lastFrom, maxRangeBytes] at hp ⊢
      omega
    refine ⟨hlast, ?_⟩
    rw [hlast, Boundary]
    rcases Nat.le_total file.bytes.length (maxRangeBytes * k + maxRangeBytes) with hle | hle
    · exact Or.inl (min_eq_left hle)
    · rw [min_eq_right hle]
      rcases Nat.eq_or_lt_of_le hle with heq | hlt
      · exact Or.inl heq
      · exact Or.inr ⟨hlt, k + 1, rfl⟩

theorem Boundary.flatten {parts : List Bytes} (hfetched : Fetched download file p parts)
    (h : Boundary file p) : parts.flatten = file.bytes.drop p := by
  induction hfetched with
  | @done p hstatus =>
    rcases Nat.lt_or_ge p file.bytes.length with hp | hp
    · rw [respondFile_rest hp] at hstatus
      cases hstatus
    · rw [List.drop_of_length_le hp, List.flatten_nil]
  | @more p start last response parts hresponse hstatus hrange hfetched ih =>
    rcases Nat.lt_or_ge p file.bytes.length with hp | hp
    · rw [respondFile_rest hp] at hresponse
      subst hresponse
      rw [header_contentRange] at hrange
      obtain rfl := contentRange_inj (Option.some.inj hrange)
      obtain ⟨hlast, hnext⟩ := lastFrom_of_boundary h hp
      have hlength : lastFrom file p - p + 1 + p = lastFrom file p + 1 := by
        have : 0 < maxRangeBytes := by decide
        omega
      rw [List.flatten_cons, ih hnext, ← hlength, Nat.add_comm _ p, ← List.drop_drop,
        List.take_append_drop]
    · rw [← hresponse, respondFile_refused hp] at hstatus
      cases hstatus

theorem Boundary.exists_fetched (h : Boundary file p) : ∃ parts, Fetched download file p parts := by
  -- Each answer leaves less of the file.
  induction hrest : file.bytes.length - p using Nat.strong_induction_on generalizing p with
  | _ rest ih =>
    rcases Nat.lt_or_ge p file.bytes.length with hp | hp
    · obtain ⟨hlast, hnext⟩ := lastFrom_of_boundary h hp
      have hless : file.bytes.length - (lastFrom file p + 1) < rest := by
        have : 0 < maxRangeBytes := by decide
        omega
      obtain ⟨parts, hparts⟩ := ih _ hless hnext rfl
      have hresponse := @respondFile_rest download file p hp
      exact ⟨_, @Fetched.more download file p p (lastFrom file p) _ parts hresponse rfl
        (header_contentRange _ _ _ _) hparts⟩
    · exact ⟨[], .done (respondFile_refused hp)⟩

private theorem tiled (download : DownloadedChapter) (file : StoredFile) : Tiled download file := by
  have hstart : Boundary file 0 := by
    rcases Nat.eq_zero_or_pos file.bytes.length with hempty | hpos
    · exact Or.inl hempty.symm
    · exact Or.inr ⟨hpos, dvd_zero _⟩
  refine ⟨hstart.exists_fetched, fun parts hparts => ?_⟩
  rw [hstart.flatten hparts, List.drop_zero]

/-- A header is answered as RFC 9110 has it if and only if its units, numbers and blanks are plain,
and every file can be fetched piece by piece. -/
theorem parseRange_faithful_iff (download : DownloadedChapter) (file : StoredFile)
    (header : List Char) :
    (Answers header file.bytes.length (parseRange header file.bytes.length) ↔
      Plain header file.bytes.length) ∧ Tiled download file :=
  ⟨answers_iff_plain file.fits, tiled download file⟩

/-- A suffix that 64 bits do not hold is refused, although it asks for all of the file. -/
theorem longSuffix_refused :
    ¬ ∀ (file : StoredFile) (header : List Char),
      Answers header file.bytes.length (parseRange header file.bytes.length) := by
  intro h
  have hsize : [80, 75].length < 2 ^ 64 := by decide
  have hnone : parseRange "bytes=-18446744073709551616".toList 2 = none := by decide
  have hanswer : Answers "bytes=-18446744073709551616".toList 2
      (parseRange "bytes=-18446744073709551616".toList 2) := h ⟨[80, 75], hsize⟩ _
  rw [hnone] at hanswer
  have hdigits : Digits "18446744073709551616".toList 18446744073709551616 := by
    refine ⟨by decide, ?_, by decide⟩
    exact List.all_eq_true.mp (by decide)
  have hunit : "bytes".toList.map Char.toLower = "bytes".toList := by decide
  have hpos := hanswer (.suffix 18446744073709551616)
    ⟨"bytes".toList, [], _, rfl, hunit, .suffix rfl hdigits⟩
  cases hpos

end Tiling

end Api
end Nyuka
