import Mathlib.Data.List.Nodup
import Nyuka.Foundation.Text

/-! A reader of XML 1.0 documents, of those without comments, processing instructions, CDATA
sections and document types. It accepts well-formed documents only. -/
namespace Xml

section Characters

/-- `Char`: what may stand in a document at all. -/
def isChar (c : Char) : Bool :=
  let n := c.toNat
  n = 9 || n = 10 || n = 13 || (32 ≤ n && n ≤ 0xD7FF) || (0xE000 ≤ n && n ≤ 0xFFFD) ||
    (0x10000 ≤ n && n ≤ 0x10FFFF)

/-- `S` -/
def isSpace (c : Char) : Bool := c = ' ' || c = '\t' || c = '\r' || c = '\n'

/-- `NameStartChar` -/
def isNameStart (c : Char) : Bool :=
  let n := c.toNat
  c = ':' || c = '_' || c.isAlpha || (0xC0 ≤ n && n ≤ 0xD6) || (0xD8 ≤ n && n ≤ 0xF6) ||
    (0xF8 ≤ n && n ≤ 0x2FF) || (0x370 ≤ n && n ≤ 0x37D) || (0x37F ≤ n && n ≤ 0x1FFF) ||
    (0x200C ≤ n && n ≤ 0x200D) || (0x2070 ≤ n && n ≤ 0x218F) || (0x2C00 ≤ n && n ≤ 0x2FEF) ||
    (0x3001 ≤ n && n ≤ 0xD7FF) || (0xF900 ≤ n && n ≤ 0xFDCF) || (0xFDF0 ≤ n && n ≤ 0xFFFD) ||
    (0x10000 ≤ n && n ≤ 0xEFFFF)

/-- `NameChar` -/
def isNameChar (c : Char) : Bool :=
  let n := c.toNat
  isNameStart c || c = '-' || c = '.' || c.isDigit || n = 0xB7 || (0x300 ≤ n && n ≤ 0x36F) ||
    (0x203F ≤ n && n ≤ 0x2040)

/-- `Name` -/
def isName (s : List Char) : Bool := s.head?.any isNameStart && s.all isNameChar

/-- Line ends are read as one line feed each. -/
def normalizeLines : List Char → List Char
  | [] => []
  | '\r' :: '\n' :: s => '\n' :: normalizeLines s
  | '\r' :: s => '\n' :: normalizeLines s
  | c :: s => c :: normalizeLines s

theorem normalizeLines_cons {c : Char} (hc : c ≠ '\r') (s : List Char) :
    normalizeLines (c :: s) = c :: normalizeLines s := by
  rw [normalizeLines]
  · exact fun _ h _ => hc h
  · exact hc

/-- A text without carriage returns is left as it is, whatever follows. -/
theorem normalizeLines_append {s : List Char} (hs : '\r' ∉ s) (t : List Char) :
    normalizeLines (s ++ t) = s ++ normalizeLines t := by
  induction s with
  | nil => rfl
  | cons c s ih =>
    rw [List.mem_cons, not_or] at hs
    rw [List.cons_append, normalizeLines_cons (Ne.symm hs.1), ih hs.2, List.cons_append]

/-- Only a line feed is read together with what is before it. -/
theorem normalizeLines_append_cons {c : Char} (hc : c ≠ '\n') (s t : List Char) :
    normalizeLines (s ++ c :: t) = normalizeLines s ++ normalizeLines (c :: t) := by
  fun_induction normalizeLines s with
  | case1 => rfl
  | case2 s ih => rw [List.cons_append, List.cons_append, normalizeLines, ih, List.cons_append]
  | case3 s hs ih =>
    rw [List.cons_append, normalizeLines, ih, List.cons_append]
    intro u hu
    cases s with
    | nil => exact hc (List.cons.inj hu).1
    | cons d s => exact hs s (by rw [(List.cons.inj hu).1])
  | case4 d s hd hd' ih => rw [List.cons_append, normalizeLines_cons hd', ih, List.cons_append]

theorem mem_of_mem_normalizeLines {c : Char} {s : List Char} (h : c ∈ normalizeLines s) :
    c ∈ s ∨ c = '\n' := by
  fun_induction normalizeLines s with
  | case1 => exact Or.inl h
  | case2 s ih => grind
  | case3 s hs ih => grind
  | case4 d s hd hd' ih => grind

end Characters

section References

/-- The entities every document has. -/
def entities : List (List Char × Char) :=
  [(['a', 'm', 'p'], '&'), (['l', 't'], '<'), (['g', 't'], '>'),
    (['q', 'u', 'o', 't'], Char.ofNat 34), (['a', 'p', 'o', 's'], Char.ofNat 39)]

/-- The character of a number, where it may stand in a document. -/
def charOf (n : ℕ) : Option Char :=
  if (Char.ofNat n).toNat = n && isChar (Char.ofNat n) then some (Char.ofNat n) else none

/-- What is referred to between an ampersand and a semicolon. -/
def reference : List Char → Option Char
  | '#' :: 'x' :: digits => if digits = [] then none else (Text.hexValue digits).bind charOf
  | '#' :: digits =>
    if digits ≠ [] && digits.all Char.isDigit then charOf (Nat.ofDigitChars 10 digits 0) else none
  | name => entities.lookup name

/-- The text that character data stands for; the first argument is a reference begun before. -/
def expand : Option (List Char) → List Char → Option (List Char)
  | none, [] => some []
  | some _, [] => none
  | none, c :: s => if c = '&' then expand (some []) s else (expand none s).map (c :: ·)
  | some name, c :: s =>
    if c = ';' then (reference name).bind fun d => (expand none s).map (d :: ·)
    else expand (some (name ++ [c])) s

/-- The end of a CDATA section, which must not stand in character data. -/
def hasSectionEnd : List Char → Bool
  | ']' :: ']' :: '>' :: _ => true
  | _ :: s => hasSectionEnd s
  | [] => false

theorem expand_cons {c : Char} (hc : c ≠ '&') (s : List Char) :
    expand none (c :: s) = (expand none s).map (c :: ·) := by
  rw [expand, if_neg hc]

/-- A reference is read up to its semicolon. -/
theorem expand_reference {name rest s : List Char} {d : Char} (hrest : ';' ∉ rest)
    (h : reference (name ++ rest) = some d) :
    expand (some name) (rest ++ ';' :: s) = (expand none s).map (d :: ·) := by
  induction rest generalizing name with
  | nil =>
    rw [List.append_nil] at h
    rw [List.nil_append, expand, if_pos rfl, h, Option.bind_some]
  | cons c rest ih =>
    rw [List.mem_cons, not_or] at hrest
    rw [List.cons_append, expand, if_neg (Ne.symm hrest.1)]
    apply ih hrest.2
    rw [List.append_assoc]
    exact h

theorem hasSectionEnd_of_notMem {s : List Char} (hs : '>' ∉ s) : hasSectionEnd s = false := by
  fun_induction hasSectionEnd s with
  | case1 s => simp at hs
  | case2 c s h ih => exact ih fun hmem => hs (List.mem_cons_of_mem c hmem)
  | case3 => rfl

/-- Character data that stands for a text, whatever follows it. -/
structure Spells (raw text : List Char) : Prop where
  expand_append : ∀ s, expand none (raw ++ s) = (expand none s).map (text ++ ·)
  plain : ∀ c ∈ raw, c ≠ '<' ∧ c ≠ '>'

namespace Spells

variable {raw raw' text text' : List Char}

theorem nil : Spells [] [] where
  expand_append s := by simp
  plain c hc := by simp at hc

theorem append (h : Spells raw text) (h' : Spells raw' text') :
    Spells (raw ++ raw') (text ++ text') where
  expand_append s := by
    rw [List.append_assoc, h.expand_append, h'.expand_append, Option.map_map]
    congr 1
    funext t
    exact (List.append_assoc text text' t).symm
  plain c hc := (List.mem_append.mp hc).elim (h.plain c) (h'.plain c)

theorem char {c : Char} (hamp : c ≠ '&') (hplain : c ≠ '<' ∧ c ≠ '>') : Spells [c] [c] where
  expand_append s := expand_cons hamp s
  plain d hd := by
    rw [List.mem_singleton.mp hd]
    exact hplain

theorem reference {name : List Char} {d : Char} (hname : ';' ∉ name)
    (hplain : ∀ c ∈ name, c ≠ '<' ∧ c ≠ '>') (h : reference name = some d) :
    Spells ('&' :: name ++ [';']) [d] where
  expand_append s := by
    rw [List.cons_append, List.cons_append, expand, if_pos rfl, List.append_assoc]
    exact expand_reference hname h
  plain c hc := by
    simp only [List.cons_append, List.mem_cons, List.mem_append, List.not_mem_nil, or_false] at hc
    rcases hc with rfl | hc | rfl
    · exact ⟨by decide, by decide⟩
    · exact hplain c hc
    · exact ⟨by decide, by decide⟩

theorem flatMap {f : Char → List Char} {s : List Char} (h : ∀ c ∈ s, Spells (f c) [c]) :
    Spells (s.flatMap f) s := by
  induction s with
  | nil => exact nil
  | cons c s ih =>
    rw [List.flatMap_cons]
    exact append (h c List.mem_cons_self) (ih fun d hd => h d (List.mem_cons_of_mem c hd))

theorem expand_eq (h : Spells raw text) : expand none raw = some text := by
  have happend := h.expand_append []
  rwa [List.append_nil, expand, Option.map_some, List.append_nil] at happend

theorem close_notMem (h : Spells raw text) : '>' ∉ raw := fun hmem => (h.plain _ hmem).2 rfl

end Spells

end References

section Markup

structure Attribute where
  name : List Char
  value : List Char
deriving DecidableEq

/-- What character data and tags a document consists of. -/
inductive Event where
  | text (chars : List Char)
  | start (name : List Char) (attributes : List Attribute)
  | stop (name : List Char)
deriving DecidableEq

def isQuote (c : Char) : Bool := c.toNat = 34 || c.toNat = 39

/-- Attributes, each behind a blank, up to the end of the tag. -/
def attributes {β : Type} (close : List Char → Option (β × List Char)) :
    ℕ → List Char → Option (List Attribute × β × List Char)
  | 0, _ => none
  | fuel + 1, s =>
    let t := s.dropWhile isSpace
    match close t with
    | some (b, rest) => some ([], b, rest)
    | none =>
      if t.length = s.length then none else
        let name := t.takeWhile isNameChar
        match (t.dropWhile isNameChar).dropWhile isSpace with
        | '=' :: u =>
          match u.dropWhile isSpace with
          | q :: v =>
            let raw := v.takeWhile (· ≠ q)
            match v.dropWhile (· ≠ q) with
            | _ :: rest =>
              if isName name && isQuote q && !raw.contains '<' then
                (expand none (raw.map fun c => if isSpace c then ' ' else c)).bind fun value =>
                  (attributes close fuel rest).map fun (more, b, rest) =>
                    (⟨name, value⟩ :: more, b, rest)
              else none
            | [] => none
          | [] => none
        | _ => none

/-- The end of a start tag, and whether it is the end tag too. -/
def tagEnd : List Char → Option (Bool × List Char)
  | '>' :: rest => some (false, rest)
  | '/' :: '>' :: rest => some (true, rest)
  | _ => none

def events : ℕ → List Char → Option (List Event)
  | _, [] => some []
  | 0, _ :: _ => none
  | fuel + 1, '<' :: '/' :: s =>
    match (s.dropWhile isNameChar).dropWhile isSpace with
    | '>' :: rest =>
      if isName (s.takeWhile isNameChar) then
        (events fuel rest).map (.stop (s.takeWhile isNameChar) :: ·)
      else none
    | _ => none
  | fuel + 1, '<' :: s =>
    match attributes tagEnd s.length (s.dropWhile isNameChar) with
    | none => none
    | some (attrs, empty, rest) =>
      if isName (s.takeWhile isNameChar) && decide (attrs.map Attribute.name).Nodup then
        (events fuel rest).map fun es => .start (s.takeWhile isNameChar) attrs ::
          if empty then .stop (s.takeWhile isNameChar) :: es else es
      else none
  | fuel + 1, c :: s =>
    if hasSectionEnd ((c :: s).takeWhile (· ≠ '<')) then none else
      (expand none ((c :: s).takeWhile (· ≠ '<'))).bind fun text =>
        (events fuel ((c :: s).dropWhile (· ≠ '<'))).map (.text text :: ·)

variable {name raw text : List Char}

theorem isNameChar_of_isName (h : isName name = true) {c : Char} (hc : c ∈ name) :
    isNameChar c = true := by
  simp only [isName, Bool.and_eq_true, List.all_eq_true] at h
  exact h.2 c hc

theorem takeWhile_name (h : isName name = true) {c : Char} (hc : isNameChar c = false)
    (s : List Char) : (name ++ c :: s).takeWhile isNameChar = name := by
  rw [List.takeWhile_append_of_pos fun d hd => isNameChar_of_isName h hd,
    List.takeWhile_cons_of_neg (by simp [hc]), List.append_nil]

theorem dropWhile_name (h : isName name = true) {c : Char} (hc : isNameChar c = false)
    (s : List Char) : (name ++ c :: s).dropWhile isNameChar = c :: s := by
  rw [List.dropWhile_append_of_pos fun d hd => isNameChar_of_isName h hd,
    List.dropWhile_cons_of_neg (by simp [hc])]

theorem exists_name_head (h : isName name = true) :
    ∃ c rest, name = c :: rest ∧ isNameStart c = true := by
  cases name with
  | nil => simp [isName] at h
  | cons c rest =>
    simp only [isName, List.head?_cons, Option.any_some, Bool.and_eq_true] at h
    exact ⟨c, rest, rfl, h.1⟩

theorem not_isSpace_of_isNameStart {c : Char} (h : isNameStart c = true) : isSpace c = false := by
  by_contra hspace
  simp only [Bool.not_eq_false, isSpace, Bool.or_eq_true, decide_eq_true_eq] at hspace
  rcases hspace with ((rfl | rfl) | rfl) | rfl <;> revert h <;> decide

section Attributes

variable {β : Type} {close : List Char → Option (β × List Char)} {b : β}

theorem attributes_nil {s rest : List Char} (h : close (s.dropWhile isSpace) = some (b, rest))
    (fuel : ℕ) : attributes close (fuel + 1) s = some ([], b, rest) := by
  rw [attributes, h]

/-- One attribute, behind a blank and in quotes. -/
theorem attributes_cons {q : Char} {s value rest : List Char} {more : List Attribute} {fuel : ℕ}
    (hname : isName name = true) (hq : isQuote q = true)
    (hraw : q ∉ raw ∧ '<' ∉ raw)
    (hvalue : expand none (raw.map fun c => if isSpace c then ' ' else c) = some value)
    (hclose : close (name ++ '=' :: q :: (raw ++ q :: s)) = none)
    (hmore : attributes close fuel s = some (more, b, rest)) :
    attributes close (fuel + 1) (' ' :: (name ++ '=' :: q :: (raw ++ q :: s))) =
      some (⟨name, value⟩ :: more, b, rest) := by
  obtain ⟨c, name', rfl, hc⟩ := exists_name_head hname
  have hnospace := not_isSpace_of_isNameStart hc
  have hequal : isNameChar '=' = false := by decide
  have hqspace : isSpace q = false := by
    simp only [isQuote, Bool.or_eq_true, decide_eq_true_eq] at hq
    simp only [isSpace, Bool.or_eq_false_iff, decide_eq_false_iff_not]
    refine ⟨⟨⟨?_, ?_⟩, ?_⟩, ?_⟩ <;> rintro rfl <;> revert hq <;> decide
  have htrim : (' ' :: (c :: name' ++ '=' :: q :: (raw ++ q :: s))).dropWhile isSpace =
      c :: name' ++ '=' :: q :: (raw ++ q :: s) := by
    rw [List.dropWhile_cons_of_pos (by decide), List.cons_append,
      List.dropWhile_cons_of_neg (by simp [hnospace])]
  have hquoted : ∀ d ∈ raw, (decide (d ≠ q)) = true := fun d hd => by
    simp only [decide_eq_true_eq]
    rintro rfl
    exact hraw.1 hd
  have htake : (raw ++ q :: s).takeWhile (· ≠ q) = raw := by
    rw [List.takeWhile_append_of_pos hquoted, List.takeWhile_cons_of_neg (by simp), List.append_nil]
  have hdrop : (raw ++ q :: s).dropWhile (· ≠ q) = q :: s := by
    rw [List.dropWhile_append_of_pos hquoted, List.dropWhile_cons_of_neg (by simp)]
  have heq : ('=' :: q :: (raw ++ q :: s)).dropWhile isSpace = '=' :: q :: (raw ++ q :: s) := by
    rw [List.dropWhile_cons_of_neg (by decide)]
  have hvaluestart : (q :: (raw ++ q :: s)).dropWhile isSpace = q :: (raw ++ q :: s) := by
    rw [List.dropWhile_cons_of_neg (by simp [hqspace])]
  have hcond : (isName (c :: name') && isQuote q && !raw.contains '<') = true := by
    simp [hname, hq, hraw.2]
  rw [attributes]
  simp only [htrim, hclose, takeWhile_name hname hequal, dropWhile_name hname hequal, heq,
    hvaluestart, htake, hdrop, hcond, hvalue, hmore, if_true, Option.bind_some, Option.map_some]
  rw [if_neg (by simp)]

end Attributes

section Events

/-- A text that is read as some events, whatever follows it. -/
structure Yields (s : List Char) (es : List Event) : Prop where
  length_le : es.length ≤ s.length
  events_append : ∀ fuel rest,
    events (fuel + es.length) (s ++ rest) = (events fuel rest).map (es ++ ·)

variable {s t : List Char} {es fs : List Event}

theorem Yields.nil : Yields [] [] where
  length_le := Nat.le_refl _
  events_append fuel rest := by simp

theorem Yields.append (h : Yields s es) (h' : Yields t fs) : Yields (s ++ t) (es ++ fs) where
  length_le := by
    rw [List.length_append, List.length_append]
    exact Nat.add_le_add h.length_le h'.length_le
  events_append fuel rest := by
    have hfuel : fuel + (es ++ fs).length = fuel + fs.length + es.length := by
      rw [List.length_append]
      omega
    rw [hfuel, List.append_assoc, h.events_append, h'.events_append, Option.map_map]
    congr 1
    funext more
    exact (List.append_assoc es fs more).symm

theorem Yields.flatMap {α : Type*} {f : α → List Char} {g : α → List Event} {l : List α}
    (h : ∀ a ∈ l, Yields (f a) (g a)) : Yields (l.flatMap f) (l.flatMap g) := by
  induction l with
  | nil => exact Yields.nil
  | cons a l ih =>
    rw [List.flatMap_cons, List.flatMap_cons]
    exact (h a List.mem_cons_self).append (ih fun b hb => h b (List.mem_cons_of_mem a hb))

/-- The event of character data, which there is none of where there is no character. -/
def textEvents (raw text : List Char) : List Event := if raw = [] then [] else [.text text]

/-- Character data ends where a tag begins. -/
theorem Yields.text_append (h : Spells raw text) (ht : Yields ('<' :: t) es) :
    Yields (raw ++ '<' :: t) (textEvents raw text ++ es) := by
  cases raw with
  | nil => exact ht
  | cons c raw =>
    have hc : c ≠ '<' := (h.plain c List.mem_cons_self).1
    have hkeep : ∀ d ∈ c :: raw, decide (d ≠ '<') = true := fun d hd =>
      decide_eq_true (h.plain d hd).1
    refine ⟨?_, fun fuel rest => ?_⟩
    · have hlength := ht.length_le
      simp only [textEvents, List.cons_ne_nil, if_false, List.length_append, List.length_cons,
        List.length_nil] at hlength ⊢
      omega
    · have htake : (c :: raw ++ '<' :: t ++ rest).takeWhile (· ≠ '<') = c :: raw := by
        rw [List.append_assoc, List.takeWhile_append_of_pos hkeep,
          @List.cons_append _ '<', List.takeWhile_cons_of_neg (by simp), List.append_nil]
      have hdrop : (c :: raw ++ '<' :: t ++ rest).dropWhile (· ≠ '<') = '<' :: t ++ rest := by
        rw [List.append_assoc, List.dropWhile_append_of_pos hkeep, List.cons_append,
          List.dropWhile_cons_of_neg (by simp)]
      have hfuel : fuel + (textEvents (c :: raw) text ++ es).length = fuel + es.length + 1 := by
        simp only [textEvents, List.cons_ne_nil, if_false, List.length_append, List.length_cons,
          List.length_nil]
        omega
      rw [List.cons_append, List.cons_append] at htake hdrop ⊢
      rw [hfuel, events, htake, hdrop, hasSectionEnd_of_notMem h.close_notMem, h.expand_eq,
        ht.events_append]
      · simp [textEvents, Option.map_map, Function.comp_def]
      · exact fun u hu => absurd hu hc
      · exact hc

/-- A document is read to its end, where there may be character data once more. -/
theorem Yields.events_eq (h : Yields s es) (hraw : Spells raw text) :
    events (s ++ raw).length (s ++ raw) = some (es ++ textEvents raw text) := by
  have hnil : ∀ fuel, events fuel [] = some [] := fun fuel => by cases fuel <;> rfl
  obtain ⟨room, hroom⟩ := Nat.exists_eq_add_of_le h.length_le
  have hfuel : (s ++ raw).length = room + raw.length + es.length := by
    rw [List.length_append, hroom]
    omega
  rw [hfuel, h.events_append]
  cases raw with
  | nil =>
    rw [hnil]
    rfl
  | cons c raw =>
    have hc : c ≠ '<' := (hraw.plain c List.mem_cons_self).1
    have hkeep : ∀ d ∈ c :: raw, decide (d ≠ '<') = true := fun d hd =>
      decide_eq_true (hraw.plain d hd).1
    have htake : (c :: raw).takeWhile (· ≠ '<') = c :: raw := List.takeWhile_eq_self_iff.mpr hkeep
    have hdrop : (c :: raw).dropWhile (· ≠ '<') = [] := List.dropWhile_eq_nil_iff.mpr hkeep
    rw [List.length_cons, ← Nat.add_assoc, events, htake, hdrop,
      hasSectionEnd_of_notMem hraw.close_notMem, hraw.expand_eq, hnil]
    · rfl
    · exact fun u hu => absurd hu hc
    · exact hc

private theorem not_slash_of_isNameStart {c : Char} (h : isNameStart c = true) : c ≠ '/' := by
  rintro rfl
  revert h
  decide

/-- A start tag and the attributes in it. -/
theorem Yields.start {attrs : List Attribute} {c : Char} (hname : isName name = true)
    (hc : isNameChar c = false) (hnodup : (attrs.map Attribute.name).Nodup)
    (h : ∀ fuel rest, attributes tagEnd (fuel + (c :: s).length) (c :: s ++ rest) =
      some (attrs, false, rest)) :
    Yields ('<' :: (name ++ c :: s)) [.start name attrs] where
  length_le := by simp
  events_append fuel rest := by
    obtain ⟨d, name', rfl, hd⟩ := exists_name_head hname
    have hfuel : (d :: (name' ++ c :: s ++ rest)).length =
        (name'.length + 1 + rest.length) + (c :: s).length := by
      simp only [List.length_cons, List.length_append]
      omega
    have htake := takeWhile_name hname hc (s ++ rest)
    have hdrop := dropWhile_name hname hc (s ++ rest)
    have hcond : (isName (d :: name') && decide (attrs.map Attribute.name).Nodup) = true := by
      simp [hname, hnodup]
    have htext : '<' :: (d :: name' ++ c :: s) ++ rest =
        '<' :: d :: (name' ++ c :: s ++ rest) := rfl
    have hsplit : d :: (name' ++ c :: s ++ rest) = d :: name' ++ c :: (s ++ rest) := by simp
    rw [htext, List.length_singleton, events]
    · rw [hfuel, hsplit, htake, hdrop, ← List.cons_append, h]
      exact if_pos hcond
    · exact fun u hu => absurd (List.cons.inj hu).1 (not_slash_of_isNameStart hd)

theorem Yields.stop (hname : isName name = true) :
    Yields ('<' :: '/' :: (name ++ ['>'])) [.stop name] where
  length_le := by simp
  events_append fuel rest := by
    have hclose : isNameChar '>' = false := by decide
    have htake := takeWhile_name hname hclose rest
    have hdrop := dropWhile_name hname hclose rest
    have htext : '<' :: '/' :: (name ++ ['>']) ++ rest = '<' :: '/' :: (name ++ '>' :: rest) := by
      simp
    have hspace : ('>' :: rest).dropWhile isSpace = '>' :: rest :=
      List.dropWhile_cons_of_neg (by decide)
    rw [htext, List.length_singleton, events, hdrop, hspace, htake]
    exact if_pos hname

/-- An element that holds nothing but character data: its name, the data and their text. -/
structure Leaf where
  name : List Char
  raw : List Char
  text : List Char

/-- An element in a document, behind some blanks. -/
def Leaf.written (blank : List Char) (leaf : Leaf) : List Char :=
  blank ++ '<' :: (leaf.name ++ '>' :: (leaf.raw ++ '<' :: '/' :: (leaf.name ++ ['>'])))

def Leaf.events (blank : List Char) (leaf : Leaf) : List Event :=
  textEvents blank blank ++
    .start leaf.name [] :: (textEvents leaf.raw leaf.text ++ [.stop leaf.name])

theorem Yields.leaf {blank : List Char} {leaf : Leaf} (hblank : Spells blank blank)
    (hname : isName leaf.name = true) (hleaf : Spells leaf.raw leaf.text) :
    Yields (leaf.written blank) (leaf.events blank) := by
  have hstart : Yields ('<' :: (leaf.name ++ '>' :: [])) [.start leaf.name []] := by
    refine Yields.start hname (by decide) List.nodup_nil fun fuel rest => ?_
    apply attributes_nil
    rw [List.cons_append, List.dropWhile_cons_of_neg (by decide)]
    rfl
  have hinner := hstart.append (Yields.text_append hleaf (Yields.stop hname))
  have happend := Yields.text_append hblank hinner
  unfold Leaf.written Leaf.events
  simpa using happend

end Events

end Markup

section Documents

inductive Node where
  | text (chars : List Char)
  | element (name : List Char) (attributes : List Attribute) (children : List Node)

/-- An element whose end tag is not read yet. -/
structure Frame where
  name : List Char
  attributes : List Attribute
  children : List Node

/-- Nothing but blanks. -/
def Event.isBlank : Event → Bool
  | .text s => s.all isSpace
  | _ => false

/-- Tags must be nested, and there is one element that holds all the others. -/
def build : List Frame → List Event → Option Node
  | _, [] => none
  | [], .text s :: es => if s.all isSpace then build [] es else none
  | [], .stop _ :: _ => none
  | f :: fs, .text s :: es => build ({ f with children := f.children ++ [.text s] } :: fs) es
  | fs, .start name attrs :: es => build (⟨name, attrs, []⟩ :: fs) es
  | [f], .stop name :: es =>
    if name = f.name && es.all Event.isBlank then some (.element f.name f.attributes f.children)
    else none
  | f :: g :: fs, .stop name :: es =>
    if name = f.name then
      build ({ g with
        children := g.children ++ [.element f.name f.attributes f.children] } :: fs) es
    else none

def declarationEnd : List Char → Option (Unit × List Char)
  | '?' :: '>' :: rest => some ((), rest)
  | _ => none

def version : List Char := ['v', 'e', 'r', 's', 'i', 'o', 'n']
def encoding : List Char := ['e', 'n', 'c', 'o', 'd', 'i', 'n', 'g']

/-- What is behind the declaration, in a document that is stored as UTF-8. -/
def declaration : List Char → Option (List Char)
  | '<' :: '?' :: 'x' :: 'm' :: 'l' :: s =>
    (attributes declarationEnd s.length s).bind fun (attrs, _, rest) =>
      if attrs = [⟨version, ['1', '.', '0']⟩] ||
          attrs = [⟨version, ['1', '.', '0']⟩, ⟨encoding, ['u', 't', 'f', '-', '8']⟩]
      then some rest else none
  | s => some s

/-- A declaration is read whatever follows it. -/
theorem declaration_eq {s rest : List Char} {attrs : List Attribute} {n : ℕ}
    (h : ∀ fuel, attributes declarationEnd (fuel + n) s = some (attrs, (), rest))
    (hn : n ≤ s.length)
    (hattrs : (attrs = [⟨version, ['1', '.', '0']⟩] ||
      attrs = [⟨version, ['1', '.', '0']⟩, ⟨encoding, ['u', 't', 'f', '-', '8']⟩]) = true) :
    declaration ('<' :: '?' :: 'x' :: 'm' :: 'l' :: s) = some rest := by
  obtain ⟨fuel, hfuel⟩ := Nat.exists_eq_add_of_le' hn
  rw [declaration, hfuel, h, Option.bind_some]
  exact if_pos hattrs

/-- The element a document consists of. -/
def parse (s : List Char) : Option Node :=
  if (normalizeLines s).all isChar then
    (declaration (normalizeLines s)).bind fun rest => (events rest.length rest).bind (build [])
  else none

/-- The text of an element that holds no other elements. -/
def simpleContent : List Node → Option (List Char)
  | [] => some []
  | .text s :: nodes => (simpleContent nodes).map (s ++ ·)
  | .element _ _ _ :: _ => none

/-- The elements an element holds, each with its text, where there is nothing else. -/
def fields : List Node → Option (List (List Char × List Char))
  | [] => some []
  | .text s :: nodes => if s.all isSpace then fields nodes else none
  | .element name attrs children :: nodes =>
    if attrs = [] then
      (simpleContent children).bind fun text => (fields nodes).map ((name, text) :: ·)
    else none

/-- The children character data is read as. -/
def textNodes (raw text : List Char) : List Node := if raw = [] then [] else [.text text]

def Leaf.node (leaf : Leaf) : Node := .element leaf.name [] (textNodes leaf.raw leaf.text)

/-- What an element of leaves holds, of which each is behind some blanks. -/
def leafNodes (blank : List Char) (leaves : List Leaf) : List Node :=
  leaves.flatMap fun leaf => textNodes blank blank ++ [leaf.node]

theorem build_text (f : Frame) (fs : List Frame) (raw text : List Char) (es : List Event) :
    build (f :: fs) (textEvents raw text ++ es) =
      build ({ f with children := f.children ++ textNodes raw text } :: fs) es := by
  unfold textEvents textNodes
  split
  · rw [List.append_nil, List.nil_append]
  · rw [List.singleton_append, build]

private theorem build_leaf (f : Frame) (fs : List Frame) (leaf : Leaf) (es : List Event) :
    build (f :: fs)
        (.start leaf.name [] :: (textEvents leaf.raw leaf.text ++ .stop leaf.name :: es)) =
      build ({ f with children := f.children ++ [leaf.node] } :: fs) es := by
  rw [build, build_text, build, if_pos rfl]
  rfl

theorem build_leaves (f : Frame) (fs : List Frame) (blank : List Char) (leaves : List Leaf)
    (es : List Event) :
    build (f :: fs) (leaves.flatMap (Leaf.events blank) ++ es) =
      build ({ f with children := f.children ++ leafNodes blank leaves } :: fs) es := by
  induction leaves generalizing f with
  | nil => simp [leafNodes]
  | cons leaf leaves ih =>
    rw [List.flatMap_cons, Leaf.events, List.append_assoc, List.append_assoc, build_text,
      List.cons_append, List.append_assoc, List.singleton_append, build_leaf, ih]
    simp [leafNodes]

theorem simpleContent_textNodes {raw text : List Char} (h : raw = [] → text = []) :
    simpleContent (textNodes raw text) = some text := by
  unfold textNodes
  split
  · next hraw => rw [h hraw, simpleContent]
  · rw [simpleContent, simpleContent, Option.map_some, List.append_nil]

private theorem fields_textNodes {blank : List Char} (h : blank.all isSpace = true)
    (nodes : List Node) :
    fields (textNodes blank blank ++ nodes) = fields nodes := by
  unfold textNodes
  split
  · rfl
  · rw [List.singleton_append, fields, if_pos h]

theorem fields_leafNodes {blank : List Char} (hblank : blank.all isSpace = true)
    {leaves : List Leaf} (h : ∀ leaf ∈ leaves, leaf.raw = [] → leaf.text = [])
    (nodes : List Node) : fields (leafNodes blank leaves ++ nodes) =
      (fields nodes).map (leaves.map (fun leaf => (leaf.name, leaf.text)) ++ ·) := by
  induction leaves with
  | nil => simp [leafNodes]
  | cons leaf leaves ih =>
    have hrest := ih fun l hl => h l (List.mem_cons_of_mem leaf hl)
    have hleaf := simpleContent_textNodes (h leaf List.mem_cons_self)
    have hnodes : leafNodes blank (leaf :: leaves) =
        textNodes blank blank ++ leaf.node :: leafNodes blank leaves := by simp [leafNodes]
    rw [hnodes, List.append_assoc, List.cons_append, fields_textNodes hblank, Leaf.node, fields,
      if_pos rfl, hleaf, Option.bind_some, hrest, Option.map_map]
    rfl

end Documents

end Xml
