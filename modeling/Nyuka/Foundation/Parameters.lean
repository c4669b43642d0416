import Nyuka.Foundation.Utf8

/-! Header values with parameters: tokens, quoted strings, and texts that are percent-encoded
UTF-8. -/
namespace Parameters
open Text

def doubleQuote : Char := Char.ofNat 34

def isDigitOrLetter (n : ℕ) : Bool :=
  (48 ≤ n && n ≤ 57) || (65 ≤ n && n ≤ 90) || (97 ≤ n && n ≤ 122)

/-- `attr-char`; 96 is the grave accent. -/
def isAttrChar (c : Char) : Bool :=
  isDigitOrLetter c.toNat || "!#$&+-.^_|~".toList.contains c || c.toNat = 96

/-- `tchar`: an `attr-char`, an asterisk, an apostrophe or a percent sign. -/
def isTokenChar (c : Char) : Bool := isAttrChar c || c = '*' || c.toNat = 39 || c = '%'

/-- `1*tchar` -/
structure IsToken (s : List Char) : Prop where
  nonempty : s ≠ []
  chars : ∀ c ∈ s, isTokenChar c = true

def isBlank (c : Char) : Bool := c = ' ' || c = '\t'

/-- `qdtext`: a character of a quoted string that stands for itself. -/
def isQuotedText (c : Char) : Bool :=
  isBlank c || (33 ≤ c.toNat && c.toNat ≠ 34 && c ≠ '\\' && c.toNat ≠ 127)

/-- A quoted string behind its opening quote, or behind a backslash in it, and what follows its
closing quote. -/
def quotedText (escaped : Bool) : List Char → Option (List Char × List Char)
  | [] => none
  | c :: s =>
    if escaped then (quotedText false s).map fun r => (c :: r.1, r.2)
    else if c = doubleQuote then some ([], s)
    else if c = '\\' then quotedText true s
    else if isQuotedText c then (quotedText false s).map fun r => (c :: r.1, r.2)
    else none

/-- The token a text begins with, and what follows it. -/
def token (s : List Char) : Option (List Char × List Char) :=
  if s.takeWhile isTokenChar = [] then none
  else some (s.takeWhile isTokenChar, s.dropWhile isTokenChar)

/-- `token / quoted-string` -/
def value : List Char → Option (List Char × List Char)
  | [] => none
  | c :: s => if c = doubleQuote then quotedText false s else token (c :: s)

/-- `token "=" value` -/
def parameter (s : List Char) : Option ((List Char × List Char) × List Char) := do
  let (name, rest) ← token s
  if rest.head? = some '=' then
    let (text, rest) ← value rest.tail
    some ((name, text), rest)
  else none

/-- `*( OWS ";" OWS parameter )`, of at most so many parameters. -/
def parameters : ℕ → List Char → Option (List (List Char × List Char))
  | 0, s => if s.dropWhile isBlank = [] then some [] else none
  | n + 1, s =>
    match s.dropWhile isBlank with
    | [] => some []
    | c :: s =>
      if c = ';' then do
        let (p, rest) ← parameter (s.dropWhile isBlank)
        let ps ← parameters n rest
        some (p :: ps)
      else none

/-- A value and its parameters. No header has more parameters than characters. -/
def read (s : List Char) : Option (List Char × List (List Char × List Char)) := do
  let (kind, rest) ← token s
  let ps ← parameters s.length rest
  some (kind, ps)

/-- `*( pct-encoded / attr-char )` -/
inductive Encoded : List Char → Prop
  | nil : Encoded []
  | char {c : Char} {s : List Char} : isAttrChar c = true → Encoded s → Encoded (c :: s)
  | triplet {h l : Char} {s : List Char} : (hexDigit h).isSome → (hexDigit l).isSome → Encoded s →
      Encoded ('%' :: h :: l :: s)

/-- The bytes of a percent-encoded text. -/
def percentDecode : List Char → Option (List UInt8)
  | [] => some []
  | '%' :: h :: l :: s => do
    let b ← hexValue [h, l]
    let bytes ← percentDecode s
    some (UInt8.ofNat b :: bytes)
  | c :: s =>
    if isAttrChar c then (percentDecode s).map fun bytes => UInt8.ofNat c.toNat :: bytes else none

/-- The text of percent-encoded UTF-8. -/
def decodeText (s : List Char) : Option (List Char) := do
  let bytes ← percentDecode s
  let chars ← (ByteArray.mk bytes.toArray).utf8Decode?
  some chars.toList

def apostrophe : Char := Char.ofNat 39

/-- `ext-value` in UTF-8: the language and the text. -/
def extended (s : List Char) : Option (List Char × List Char) :=
  match s.dropWhile (· ≠ apostrophe) with
  | [] => none
  | _ :: rest =>
    match rest.dropWhile (· ≠ apostrophe) with
    | [] => none
    | _ :: chars =>
      if (s.takeWhile (· ≠ apostrophe)).map Char.toLower = "utf-8".toList then
        (decodeText chars).map fun text => (rest.takeWhile (· ≠ apostrophe), text)
      else none

section Reading
variable {s rest : List Char}

/-- What is in a class up to the first character that is not. -/
theorem span_of_class {p : Char → Bool} (hs : ∀ c ∈ s, p c = true)
    (hrest : ∀ c ∈ rest.head?, p c = false) :
    (s ++ rest).takeWhile p = s ∧ (s ++ rest).dropWhile p = rest := by
  rw [List.takeWhile_append_of_pos hs, List.dropWhile_append_of_pos hs]
  cases rest with
  | nil => simp
  | cons c rest => simp [hrest c rfl]

theorem token_append (hs : IsToken s)
    (hrest : ∀ c ∈ rest.head?, isTokenChar c = false) : token (s ++ rest) = some (s, rest) := by
  obtain ⟨htake, hdrop⟩ := span_of_class hs.chars hrest
  rw [token, htake, hdrop, if_neg hs.nonempty]

private theorem quotedText_append (hs : ∀ c ∈ s, isQuotedText c = true) :
    quotedText false (s ++ doubleQuote :: rest) = some (s, rest) := by
  induction s with
  | nil => rfl
  | cons c s ih =>
    have hc := hs c List.mem_cons_self
    have hquote : c ≠ doubleQuote := by
      rintro rfl
      exact absurd hc (by decide)
    have hescape : c ≠ '\\' := by
      rintro rfl
      exact absurd hc (by decide)
    rw [List.cons_append, quotedText, if_neg Bool.false_ne_true, if_neg hquote, if_neg hescape,
      if_pos hc, ih fun d hd => hs d (List.mem_cons_of_mem c hd)]
    rfl

/-- A parameter whose value is quoted. -/
theorem parameter_quoted {name text : List Char} (hname : IsToken name)
    (htext : ∀ c ∈ text, isQuotedText c = true) :
    parameter (name ++ '=' :: doubleQuote :: (text ++ doubleQuote :: rest)) =
      some ((name, text), rest) := by
  have htoken : token (name ++ '=' :: doubleQuote :: (text ++ doubleQuote :: rest)) =
      some (name, '=' :: doubleQuote :: (text ++ doubleQuote :: rest)) := by
    refine token_append hname fun c hc => ?_
    obtain rfl := Option.some.inj hc
    decide
  rw [parameter, htoken]
  simp [value, quotedText_append htext]

/-- A parameter whose value is a token. -/
theorem parameter_token {name text : List Char} (hname : IsToken name) (htext : IsToken text)
    (hrest : ∀ c ∈ rest.head?, isTokenChar c = false) :
    parameter (name ++ '=' :: (text ++ rest)) = some ((name, text), rest) := by
  have htoken : token (name ++ '=' :: (text ++ rest)) = some (name, '=' :: (text ++ rest)) := by
    refine token_append hname fun c hc => ?_
    obtain rfl := Option.some.inj hc
    decide
  have hvalue : value (text ++ rest) = some (text, rest) := by
    obtain ⟨c, t, rfl⟩ := List.exists_cons_of_ne_nil htext.nonempty
    have hquote : c ≠ doubleQuote := by
      rintro rfl
      exact absurd (htext.chars _ List.mem_cons_self) (by decide)
    rw [List.cons_append, value, if_neg hquote]
    exact token_append htext hrest
  rw [parameter, htoken]
  simp [hvalue]

theorem parameters_cons {n : ℕ} {p : List Char × List Char} {ps : List (List Char × List Char)}
    (hp : parameter s = some (p, rest)) (hs : ∀ c ∈ s.head?, isBlank c = false)
    (hps : parameters n rest = some ps) :
    parameters (n + 1) (';' :: ' ' :: s) = some (p :: ps) := by
  have hdrop : s.dropWhile isBlank = s := by
    cases s with
    | nil => rfl
    | cons c s => simp [hs c rfl]
  have hblank : (';' :: ' ' :: s).dropWhile isBlank = ';' :: ' ' :: s := rfl
  have hnext : (' ' :: s).dropWhile isBlank = s.dropWhile isBlank := rfl
  simp only [parameters, hblank, hnext, hdrop, hp, hps, if_true, Option.bind_eq_bind,
    Option.bind_some]

@[simp] theorem parameters_nil (n : ℕ) : parameters n [] = some [] := by
  cases n with
  | zero => rfl
  | succ n => rfl

private theorem notBlank_of_tokenChar {c : Char} (h : isTokenChar c = true) :
    isBlank c = false := by
  simp only [isBlank, Bool.or_eq_false_iff, decide_eq_false_iff_not]
  constructor
  · rintro rfl
    exact absurd h (by decide)
  · rintro rfl
    exact absurd h (by decide)

/-- A value with a quoted parameter and one that is a token. -/
theorem read_append {kind name text name' text' : List Char}
    (hkind : IsToken kind) (hname : IsToken name) (htext : ∀ c ∈ text, isQuotedText c = true)
    (hname' : IsToken name') (htext' : IsToken text') :
    read (kind ++ ';' :: ' ' :: (name ++ '=' :: doubleQuote :: (text ++ doubleQuote ::
      ';' :: ' ' :: (name' ++ '=' :: text')))) = some (kind, [(name, text), (name', text')]) := by
  have hstart {name s : List Char} (h : IsToken name) :
      ∀ c ∈ (name ++ s).head?, isBlank c = false := by
    obtain ⟨d, t, rfl⟩ := List.exists_cons_of_ne_nil h.nonempty
    intro c hc
    obtain rfl := Option.some.inj hc
    exact notBlank_of_tokenChar (h.chars _ List.mem_cons_self)
  have hlast : parameter (name' ++ '=' :: text') = some ((name', text'), []) := by
    have h := @parameter_token [] name' text' hname' htext' (by simp)
    rwa [List.append_nil] at h
  have hfirst := @parameter_quoted (';' :: ' ' :: (name' ++ '=' :: text')) name text hname htext
  have hboth (n : ℕ) := parameters_cons hfirst (hstart hname)
    (parameters_cons hlast (hstart hname') (parameters_nil n))
  have htoken (s : List Char) : token (kind ++ ';' :: s) = some (kind, ';' :: s) :=
    token_append hkind fun c hc => by obtain rfl := Option.some.inj hc; decide
  have hlength (s : List Char) : (kind ++ ';' :: ' ' :: s).length =
      (kind.length + s.length) + 1 + 1 := by
    simp only [List.length_append, List.length_cons]
    omega
  rw [read, htoken, hlength]
  simp only [Option.bind_eq_bind, Option.bind_some, hboth]

theorem visible_of_tokenChar {c : Char} (h : isTokenChar c = true) :
    32 ≤ c.toNat ∧ c.toNat ≠ 127 := by
  have hmarks : ("!#$&+-.^_|~".toList.all fun d => 32 ≤ d.toNat && d.toNat ≠ 127) = true := by
    decide
  simp only [isTokenChar, isAttrChar, isDigitOrLetter, Bool.or_eq_true, Bool.and_eq_true,
    decide_eq_true_eq, List.contains_iff_mem] at h
  rcases h with ((((h | h) | h) | rfl) | h) | rfl
  · omega
  · simpa using List.all_eq_true.mp hmarks c h
  · omega
  · decide
  · omega
  · decide

end Reading

section Encoding

theorem tokenChar_of_attrChar {c : Char} (h : isAttrChar c = true) : isTokenChar c = true := by
  simp [isTokenChar, h]

private theorem tokenChar_of_hexDigit {c : Char} (h : (hexDigit c).isSome) :
    isTokenChar c = true := by
  apply tokenChar_of_attrChar
  have hrange : isDigitOrLetter c.toNat = true := by
    simp only [isDigitOrLetter, Bool.or_eq_true, Bool.and_eq_true, decide_eq_true_eq]
    unfold hexDigit at h
    split at h
    · next hc => exact Or.inl (Or.inl hc)
    · split at h
      · next hc =>
        have hf : c.toNat ≤ 'f'.toNat := hc.2
        exact Or.inr ⟨hc.1, hf.trans (by decide)⟩
      · split at h
        · next hc =>
          have hf : c.toNat ≤ 'F'.toNat := hc.2
          exact Or.inl (Or.inr ⟨hc.1, hf.trans (by decide)⟩)
        · cases h
  simp [isAttrChar, hrange]

theorem Encoded.tokenChar {s : List Char} (h : Encoded s) : ∀ c ∈ s, isTokenChar c = true := by
  induction h with
  | nil => exact fun _ hc => absurd hc List.not_mem_nil
  | char hc _ ih => exact List.forall_mem_cons.mpr ⟨tokenChar_of_attrChar hc, ih⟩
  | triplet hh hl _ ih =>
    exact List.forall_mem_cons.mpr ⟨by decide, List.forall_mem_cons.mpr
      ⟨tokenChar_of_hexDigit hh, List.forall_mem_cons.mpr ⟨tokenChar_of_hexDigit hl, ih⟩⟩⟩

theorem percentDecode_char {c : Char} (hc : isAttrChar c = true) (s : List Char) :
    percentDecode (c :: s) = (percentDecode s).map fun bytes => UInt8.ofNat c.toNat :: bytes := by
  have hpercent : c ≠ '%' := by
    rintro rfl
    exact absurd hc (by decide)
  rw [percentDecode, if_pos hc]
  exact fun _ _ _ h => absurd h hpercent

theorem percentDecode_triplet {h l : Char} {b : ℕ} (hb : hexValue [h, l] = some b)
    (s : List Char) : percentDecode ('%' :: h :: l :: s) =
      (percentDecode s).map fun bytes => UInt8.ofNat b :: bytes := by
  rw [percentDecode, hb]
  cases percentDecode s with
  | none => rfl
  | some bytes => rfl

theorem decodeText_of_utf8 {s text : List Char} (h : percentDecode s = some (utf8 text)) :
    decodeText s = some text := by
  have hencode : ByteArray.mk (utf8 text).toArray = text.utf8Encode := by
    have hbytes : text.utf8Encode.data.toList = utf8 text := by
      rw [List.utf8Encode, List.toList_data_toByteArray, utf8]
    rw [← hbytes, Array.toArray_toList]
  rw [decodeText, h, Option.bind_eq_bind, Option.bind_some, hencode, List.utf8Decode?_utf8Encode]
  rfl

/-- An extended value without a language. -/
theorem extended_utf8 {s text : List Char} (h : decodeText s = some text) :
    extended ("UTF-8".toList ++ apostrophe :: apostrophe :: s) = some ([], text) := by
  have hstart : ("UTF-8".toList ++ apostrophe :: apostrophe :: s).dropWhile (· ≠ apostrophe) =
      apostrophe :: apostrophe :: s := rfl
  have hcharset : ("UTF-8".toList ++ apostrophe :: apostrophe :: s).takeWhile (· ≠ apostrophe) =
      "UTF-8".toList := rfl
  have hrest : (apostrophe :: s).dropWhile (· ≠ apostrophe) = apostrophe :: s := rfl
  have hname : "UTF-8".toList.map Char.toLower = "utf-8".toList := by decide
  rw [extended, hstart]
  simp only [hrest, hcharset, hname, if_true, h]
  rfl

end Encoding

end Parameters
