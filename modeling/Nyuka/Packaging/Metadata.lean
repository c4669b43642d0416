import Nyuka.Foundation.Xml
import Nyuka.Packaging.Cbz

/-! What a reader finds in the metadata document: a well-formed one, whose elements are those of
the schema in its order, and in each the field it was written from. -/
namespace Nyuka
namespace Packaging
open Xml Text

/-- Whether the escaper keeps a character: it drops control characters but blanks. -/
def isKept (c : Char) : Bool := !isControl c || c = '\n' || c = '\r' || c = '\t'

def kept (text : String) : List Char := text.toList.filter isKept

/-- The elements in the order they are written in, with the text of each. -/
def ComicInfo.texts (info : ComicInfo) : List (String × String) :=
  [("Title", info.title.getD ""), ("Series", info.series),
    ("Number", (info.number.map formatNumber).getD ""),
    ("Volume", ((info.volume.filter Binary32.whole).map formatNumber).getD ""),
    ("Summary", info.summary.getD ""), ("Year", (info.year.map toString).getD ""),
    ("Month", (info.month.map toString).getD ""), ("Day", (info.day.map toString).getD ""),
    ("Writer", ", ".intercalate info.writers), ("Penciller", ", ".intercalate info.pencillers),
    ("Genre", ", ".intercalate info.genres), ("Web", info.web.getD ""),
    ("PageCount", toString info.pageCount), ("LanguageISO", info.languageIso.getD ""),
    ("Manga", mangaValue info.direction)]

def elementNames : List String :=
  ["Title", "Series", "Number", "Volume", "Summary", "Year", "Month", "Day", "Writer", "Penciller",
    "Genre", "Web", "PageCount", "LanguageISO", "Manga"]

@[simp] theorem texts_names (info : ComicInfo) : info.texts.map Prod.fst = elementNames := rfl

/-- An element is left out where its text is empty. -/
def ComicInfo.written (info : ComicInfo) : List (String × String) :=
  info.texts.filter fun field => field.2 ≠ ""

section Escaping

variable {c : Char}

private theorem escapeChar_of_not_kept (h : isKept c = false) : escapeChar c = [] := by
  simp only [isKept, Bool.or_eq_false_iff, Bool.not_eq_false', decide_eq_false_iff_not] at h
  obtain ⟨⟨⟨hcontrol, hn⟩, hr⟩, ht⟩ := h
  have hrange : c.toNat < 32 ∨ 127 ≤ c.toNat := by
    simp only [isControl, Bool.or_eq_true, Bool.and_eq_true, decide_eq_true_eq] at hcontrol
    omega
  have hne : ∀ d : Char, 32 ≤ d.toNat → d.toNat < 127 → c ≠ d := by
    rintro d hlow hhigh rfl
    omega
  have hquote : ¬ c.toNat = 34 ∧ ¬ c.toNat = 39 := by omega
  unfold escapeChar
  rw [if_neg (hne '&' (by decide) (by decide)), if_neg (hne '<' (by decide) (by decide)),
    if_neg (hne '>' (by decide) (by decide)), if_neg hquote.1, if_neg hquote.2,
    if_pos (by simp [hcontrol, hn, hr, ht])]

/-- Escaping what is kept is escaping all. -/
@[simp] theorem toList_escapeXml (text : String) :
    (escapeXml text).toList = (kept text).flatMap escapeChar := by
  unfold escapeXml kept
  rw [String.toList_ofList]
  induction text.toList with
  | nil => rfl
  | cons c s ih =>
    rw [List.flatMap_cons, ih]
    cases h : isKept c with
    | false => rw [escapeChar_of_not_kept h, List.filter_cons_of_neg (by simp [h]), List.nil_append]
    | true => rw [List.filter_cons_of_pos h, List.flatMap_cons]

/-- A character is written as a reference to it, or as itself. -/
theorem escapeChar_cases (h : isKept c = true) :
    (∃ name, escapeChar c = '&' :: name ++ [';'] ∧ reference name = some c ∧
      ∀ d ∈ name, 97 ≤ d.toNat ∧ d.toNat ≤ 122) ∨
    (escapeChar c = [c] ∧ c ≠ '&' ∧ c ≠ '<' ∧ c ≠ '>') := by
  unfold escapeChar
  split
  · next hc => exact Or.inl ⟨['a', 'm', 'p'], rfl, by rw [hc]; rfl, by simp⟩
  split
  · next hc => exact Or.inl ⟨['l', 't'], rfl, by rw [hc]; rfl, by simp⟩
  split
  · next hc => exact Or.inl ⟨['g', 't'], rfl, by rw [hc]; rfl, by simp⟩
  split
  · next hc =>
    obtain rfl : c = Char.ofNat 34 := Char.toNat_inj.mp hc
    exact Or.inl ⟨['q', 'u', 'o', 't'], rfl, rfl, by simp⟩
  split
  · next hc =>
    obtain rfl : c = Char.ofNat 39 := Char.toNat_inj.mp hc
    exact Or.inl ⟨['a', 'p', 'o', 's'], rfl, rfl, by simp⟩
  split
  · next hdrop =>
    simp only [isKept, Bool.or_eq_true, Bool.not_eq_true', decide_eq_true_eq] at h
    simp only [Bool.and_eq_true, decide_eq_true_eq] at hdrop
    obtain ⟨⟨⟨hcontrol, hn⟩, hr⟩, ht⟩ := hdrop
    rcases h with ((h | h) | h) | h
    · rw [hcontrol] at h
      contradiction
    · exact absurd h hn
    · exact absurd h hr
    · exact absurd h ht
  · next hamp hopen hclose _ _ _ => exact Or.inr ⟨rfl, hamp, hopen, hclose⟩

theorem ne_of_letter {d e : Char} (hd : 97 ≤ d.toNat ∧ d.toNat ≤ 122) (he : e.toNat < 97) :
    d ≠ e := by
  rintro rfl
  omega

theorem spells_escapeChar (h : isKept c = true) : Spells (escapeChar c) [c] := by
  rcases escapeChar_cases h with ⟨name, hescape, hreference, hletters⟩ | ⟨hescape, hamp, hplain⟩
  · rw [hescape]
    refine Spells.reference ?_ ?_ hreference
    · exact fun hmem => ne_of_letter (hletters _ hmem) (by decide) rfl
    · exact fun d hd =>
        ⟨ne_of_letter (hletters d hd) (by decide), ne_of_letter (hletters d hd) (by decide)⟩
  · rw [hescape]
    exact Spells.char hamp hplain

/-- What stands for a character begins with a line feed for a line feed only. -/
theorem exists_head_escapeChar (h : isKept c = true) (hc : c ≠ '\n') :
    ∃ d rest, escapeChar c = d :: rest ∧ d ≠ '\n' := by
  rcases escapeChar_cases h with ⟨name, hescape, -⟩ | ⟨hescape, -⟩
  · exact ⟨'&', name ++ [';'], hescape, by decide⟩
  · exact ⟨c, [], hescape, hc⟩

private theorem return_notMem_escapeChar (h : isKept c = true) (hc : c ≠ '\r') :
    '\r' ∉ escapeChar c := by
  rcases escapeChar_cases h with ⟨name, hescape, -, hletters⟩ | ⟨hescape, -⟩
  · rw [hescape]
    simp only [List.cons_append, List.mem_cons, List.mem_append, List.not_mem_nil, or_false, not_or]
    exact ⟨by decide, fun hmem => ne_of_letter (hletters _ hmem) (by decide) rfl, by decide⟩
  · rw [hescape, List.mem_singleton]
    exact Ne.symm hc

/-- Line ends are read in the escaped text as they are in the text. -/
theorem normalizeLines_flatMap {s : List Char} (hs : ∀ c ∈ s, isKept c = true) :
    normalizeLines (s.flatMap escapeChar) = (normalizeLines s).flatMap escapeChar := by
  have hreturn : escapeChar '\r' = ['\r'] := rfl
  have hfeed : escapeChar '\n' = ['\n'] := rfl
  fun_induction normalizeLines s with
  | case1 => rfl
  | case2 s ih =>
    have hrest := ih fun c hc => hs c (List.mem_cons_of_mem _ (List.mem_cons_of_mem _ hc))
    simp only [List.flatMap_cons, hreturn, hfeed, List.singleton_append]
    rw [normalizeLines, hrest]
  | case3 s hline ih =>
    have hrest := ih fun c hc => hs c (List.mem_cons_of_mem _ hc)
    simp only [List.flatMap_cons, hreturn, hfeed, List.singleton_append]
    rw [normalizeLines, hrest]
    intro u hu
    cases s with
    | nil => simp at hu
    | cons c s =>
      have hc : c ≠ '\n' := fun hc => hline s (by rw [hc])
      obtain ⟨d, rest, hescape, hd⟩ :=
        exists_head_escapeChar (hs c (List.mem_cons_of_mem _ List.mem_cons_self)) hc
      rw [List.flatMap_cons, hescape] at hu
      exact hd (List.cons.inj hu).1
  | case4 c s hline hc ih =>
    have hrest := ih fun d hd => hs d (List.mem_cons_of_mem _ hd)
    have hkept := hs c List.mem_cons_self
    rw [List.flatMap_cons, List.flatMap_cons,
      normalizeLines_append (return_notMem_escapeChar hkept hc), hrest]

/-- Of the characters that are kept, XML has but these two not. -/
theorem isChar_of_isKept (h : isKept c = true)
    (hc : c ≠ Char.ofNat 0xFFFE ∧ c ≠ Char.ofNat 0xFFFF) : isChar c = true := by
  have hne : c.toNat ≠ 0xFFFE ∧ c.toNat ≠ 0xFFFF :=
    ⟨fun heq => hc.1 (Char.toNat_inj.mp heq), fun heq => hc.2 (Char.toNat_inj.mp heq)⟩
  have hvalid := c.valid
  have hblank : 32 ≤ c.toNat ∨ c.toNat = 10 ∨ c.toNat = 13 ∨ c.toNat = 9 := by
    simp only [isKept, isControl, Bool.or_eq_true, Bool.not_eq_true', Bool.or_eq_false_iff,
      decide_eq_true_eq, decide_eq_false_iff_not] at h
    rcases h with ((h | rfl) | rfl) | rfl
    · omega
    · exact Or.inr (Or.inl rfl)
    · exact Or.inr (Or.inr (Or.inl rfl))
    · exact Or.inr (Or.inr (Or.inr rfl))
  have hrange : c.toNat < 0xD800 ∨ 0xDFFF < c.toNat ∧ c.toNat < 0x110000 := by
    rcases hvalid with hlow | hhigh
    · exact Or.inl hlow
    · exact Or.inr hhigh
  simp only [isChar, Bool.or_eq_true, Bool.and_eq_true, decide_eq_true_eq]
  omega

theorem isChar_of_mem_escapeChar (h : isKept c = true)
    (hc : c ≠ Char.ofNat 0xFFFE ∧ c ≠ Char.ofNat 0xFFFF) {d : Char} (hd : d ∈ escapeChar c) :
    isChar d = true := by
  rcases escapeChar_cases h with ⟨name, hescape, -, hletters⟩ | ⟨hescape, -⟩
  · rw [hescape] at hd
    simp only [List.cons_append, List.mem_cons, List.mem_append, List.not_mem_nil, or_false] at hd
    rcases hd with rfl | hd | rfl
    · decide
    · have hbounds := hletters d hd
      simp only [isChar, Bool.or_eq_true, Bool.and_eq_true, decide_eq_true_eq]
      omega
    · decide
  · rw [hescape, List.mem_singleton] at hd
    rw [hd]
    exact isChar_of_isKept h hc

end Escaping

section Document

/-- What is in front of each element. -/
def indent : List Char := ['\n', ' ', ' ']

/-- An element as it is written. -/
def leafOf (field : String × String) : Leaf :=
  ⟨field.1.toList, (kept field.2).flatMap escapeChar, kept field.2⟩

/-- An element with its line ends as they are read. -/
def readLeaf (field : String × String) : Leaf :=
  ⟨field.1.toList, (normalizeLines (kept field.2)).flatMap escapeChar,
    normalizeLines (kept field.2)⟩

def rootAttributes : List Attribute :=
  [⟨"xmlns:xsi".toList, "http://www.w3.org/2001/XMLSchema-instance".toList⟩,
    ⟨"xmlns:xsd".toList, "http://www.w3.org/2001/XMLSchema".toList⟩]

def xmlDeclaration : List Char := "<?xml version=\"1.0\" encoding=\"utf-8\"?>".toList

def rootTag : List Char :=
  ("<ComicInfo xmlns:xsi=\"http://www.w3.org/2001/XMLSchema-instance\" " ++
    "xmlns:xsd=\"http://www.w3.org/2001/XMLSchema\">").toList

def endTag : List Char := "</ComicInfo>".toList

theorem element_elim {α : Type} (name : String) (value : Option α) (f : α → String) :
    (value.elim "" fun a => element name (f a)) = element name ((value.map f).getD "") := by
  cases value with
  | none => rfl
  | some a => rfl

private theorem toList_append_line (front : String) {line text : String}
    (h : line.toList = text.toList ++ ['\n']) :
    (front ++ line).toList = (front ++ text).toList ++ ['\n'] := by
  rw [String.toList_append, h, String.toList_append, List.append_assoc]

theorem toXml_eq (info : ComicInfo) :
    info.toXml.toList = xmlDeclaration ++ '\n' :: (rootTag ++ '\n' ::
      ((info.texts.flatMap fun field => (element field.1 field.2).toList) ++ endTag ++
        ['\n'])) := by
  have hdeclaration : "<?xml version=\"1.0\" encoding=\"utf-8\"?>\n".toList =
      xmlDeclaration ++ ['\n'] := by decide
  have hroot : ("<ComicInfo xmlns:xsi=\"http://www.w3.org/2001/XMLSchema-instance\" " ++
      "xmlns:xsd=\"http://www.w3.org/2001/XMLSchema\">\n").toList = rootTag ++ ['\n'] := by
    have hline : "xmlns:xsd=\"http://www.w3.org/2001/XMLSchema\">\n".toList =
        "xmlns:xsd=\"http://www.w3.org/2001/XMLSchema\">".toList ++ ['\n'] := by decide
    exact toList_append_line _ hline
  have hend : "</ComicInfo>\n".toList = endTag ++ ['\n'] := by decide
  unfold ComicInfo.toXml ComicInfo.texts
  simp only [element_elim, String.append_assoc, List.flatMap_cons, List.flatMap_nil,
    List.append_nil, List.append_assoc]
  rw [String.toList_append, hdeclaration, ← String.append_assoc, String.toList_append, hroot]
  simp only [String.toList_append, hend, List.append_assoc, List.singleton_append]

private theorem toList_element {field : String × String} (h : field.2 ≠ "") :
    (element field.1 field.2).toList =
      ' ' :: ' ' :: ((leafOf field).written [] ++ ['\n']) := by
  unfold element
  rw [if_neg h]
  simp only [toString, String.toList_append, toList_escapeXml, Leaf.written, leafOf]
  simp

/-- The line ends stand before the elements as well as behind them. -/
theorem cons_flatMap_element {fields : List (String × String)}
    (h : ∀ field ∈ fields, field.2 ≠ "") :
    '\n' :: (fields.flatMap fun field => (element field.1 field.2).toList) =
      (fields.flatMap fun field => (leafOf field).written indent) ++ ['\n'] := by
  induction fields with
  | nil => rfl
  | cons field fields ih =>
    rw [List.flatMap_cons, List.flatMap_cons, List.append_assoc,
      ← ih fun f hf => h f (List.mem_cons_of_mem field hf),
      toList_element (h field List.mem_cons_self)]
    simp [Leaf.written, indent]

private theorem flatMap_element_written (info : ComicInfo) :
    (info.texts.flatMap fun field => (element field.1 field.2).toList) =
      info.written.flatMap fun field => (element field.1 field.2).toList := by
  unfold ComicInfo.written
  induction info.texts with
  | nil => rfl
  | cons field fields ih =>
    rw [List.flatMap_cons, ih]
    by_cases h : field.2 = ""
    · rw [List.filter_cons_of_neg (by simp [h]), element, if_pos h]
      rfl
    · rw [List.filter_cons_of_pos (by simp [h]), List.flatMap_cons]

/-- The document in the pieces a reader takes it in. -/
theorem toXml_toList (info : ComicInfo) :
    info.toXml.toList = xmlDeclaration ++ '\n' :: (rootTag ++
      ((info.written.flatMap fun field => (leafOf field).written indent) ++
        '\n' :: (endTag ++ ['\n']))) := by
  have hregroup := @cons_flatMap_element info.written fun field hfield => by
    simpa using (List.mem_filter.mp hfield).2
  have hrows : '\n' :: ((info.written.flatMap fun field => (element field.1 field.2).toList) ++
      (endTag ++ ['\n'])) = (info.written.flatMap fun field => (leafOf field).written indent) ++
        '\n' :: (endTag ++ ['\n']) := by
    rw [← List.cons_append, hregroup, List.append_assoc, List.singleton_append]
  rw [toXml_eq, flatMap_element_written, List.append_assoc, hrows]

theorem isKept_of_mem_kept {text : String} {c : Char} (h : c ∈ kept text) : isKept c = true :=
  (List.mem_filter.mp h).2

theorem isKept_of_mem_lines {text : String} {c : Char} (h : c ∈ normalizeLines (kept text)) :
    isKept c = true := by
  rcases mem_of_mem_normalizeLines h with hmem | rfl
  · exact isKept_of_mem_kept hmem
  · decide

theorem spells_readLeaf (field : String × String) :
    Spells (readLeaf field).raw (readLeaf field).text :=
  Spells.flatMap fun _ hc => spells_escapeChar (isKept_of_mem_lines hc)

theorem readLeaf_text_nil {field : String × String} (h : (readLeaf field).raw = []) :
    (readLeaf field).text = [] := by
  have hspells := (spells_readLeaf field).expand_eq
  rw [h] at hspells
  exact (Option.some.inj hspells).symm

/-- An element's line ends are read within its text. -/
theorem normalizeLines_leaf {field : String × String} (hname : isName field.1.toList = true)
    (rest : List Char) : normalizeLines ((leafOf field).written indent ++ rest) =
      (readLeaf field).written indent ++ normalizeLines rest := by
  have hreturn : '\r' ∉ field.1.toList := fun hmem => by
    have := isNameChar_of_isName hname hmem
    contradiction
  have hfront : '\r' ∉ indent ++ '<' :: (field.1.toList ++ ['>']) := by
    simp [indent, hreturn]
  have hback : '\r' ∉ '<' :: '/' :: (field.1.toList ++ ['>']) := by
    simp [hreturn]
  have hwritten (leaf : Leaf) (rest : List Char) : leaf.written indent ++ rest =
      (indent ++ '<' :: (leaf.name ++ ['>'])) ++
        (leaf.raw ++ ('<' :: '/' :: (leaf.name ++ ['>']) ++ rest)) := by simp [Leaf.written]
  have hlines := @normalizeLines_flatMap (kept field.2) fun c hc => isKept_of_mem_kept hc
  have htail : normalizeLines ((kept field.2).flatMap escapeChar ++
      ('<' :: '/' :: (field.1.toList ++ ['>']) ++ rest)) =
      (normalizeLines (kept field.2)).flatMap escapeChar ++
        ('<' :: '/' :: (field.1.toList ++ ['>']) ++ normalizeLines rest) := by
    rw [← normalizeLines_append hback, List.cons_append, normalizeLines_append_cons (by decide),
      hlines]
  rw [hwritten, hwritten]
  exact (normalizeLines_append hfront _).trans (congrArg _ htail)

theorem name_mem_of_mem_texts {info : ComicInfo} {field : String × String}
    (h : field ∈ info.texts) : field.1 ∈ elementNames := by
  rw [← texts_names info]
  exact List.mem_map_of_mem h

theorem isName_of_mem {name : String} (h : name ∈ elementNames) : isName name.toList = true := by
  revert h name
  decide

theorem isChar_of_mem {name : String} (h : name ∈ elementNames) :
    name.toList.all isChar = true := by
  revert h name
  decide

theorem isName_of_mem_texts {info : ComicInfo} {field : String × String}
    (h : field ∈ info.texts) : isName field.1.toList = true :=
  isName_of_mem (name_mem_of_mem_texts h)

theorem normalizeLines_leaves {fields : List (String × String)}
    (h : ∀ field ∈ fields, isName field.1.toList = true) (rest : List Char) :
    normalizeLines ((fields.flatMap fun field => (leafOf field).written indent) ++ rest) =
      ((fields.map readLeaf).flatMap (Leaf.written indent)) ++ normalizeLines rest := by
  induction fields with
  | nil => rfl
  | cons field fields ih =>
    rw [List.flatMap_cons, List.append_assoc, normalizeLines_leaf (h field List.mem_cons_self),
      ih fun f hf => h f (List.mem_cons_of_mem field hf), List.map_cons, List.flatMap_cons,
      List.append_assoc]

/-- The lines in front of the elements are plain text. -/
theorem printed_front : ∀ c ∈ xmlDeclaration ++ '\n' :: rootTag,
    c = '\n' ∨ (32 ≤ c.toNat ∧ c.toNat < 127) := by
  have hall : ((xmlDeclaration ++ '\n' :: rootTag).all fun c =>
      c = '\n' || (decide (32 ≤ c.toNat) && decide (c.toNat < 127))) = true := by
    rw [List.all_append, Bool.and_eq_true]
    exact ⟨by decide, by decide⟩
  simpa only [List.all_eq_true, Bool.or_eq_true, Bool.and_eq_true, decide_eq_true_eq] using hall

/-- The document with its line ends as they are read. -/
theorem normalizeLines_toXml (info : ComicInfo) :
    normalizeLines info.toXml.toList = xmlDeclaration ++ '\n' :: (rootTag ++
      ((info.written.map readLeaf).flatMap (Leaf.written indent) ++
        '\n' :: (endTag ++ ['\n']))) := by
  have hnames : ∀ field ∈ info.written, isName field.1.toList = true := fun field hfield =>
    isName_of_mem_texts (List.mem_filter.mp hfield).1
  have hfront : '\r' ∉ xmlDeclaration ++ '\n' :: rootTag := fun hmem =>
    absurd (printed_front '\r' hmem) (by decide)
  have hend : '\r' ∉ '\n' :: (endTag ++ ['\n']) := by decide
  have hsplit (s : List Char) : xmlDeclaration ++ '\n' :: (rootTag ++ s) =
      (xmlDeclaration ++ '\n' :: rootTag) ++ s := by simp
  have hlast : normalizeLines ('\n' :: (endTag ++ ['\n'])) = '\n' :: (endTag ++ ['\n']) := by
    have happend := normalizeLines_append hend []
    rwa [List.append_nil, normalizeLines, List.append_nil] at happend
  rw [toXml_toList, hsplit, normalizeLines_append hfront, normalizeLines_leaves hnames, hlast,
    ← hsplit]

/-- The characters of the document, where no text has one of the two that XML has not. -/
theorem isChar_toXml {info : ComicInfo}
    (h : ∀ field ∈ info.texts, Char.ofNat 0xFFFE ∉ field.2.toList ∧
      Char.ofNat 0xFFFF ∉ field.2.toList) :
    (normalizeLines info.toXml.toList).all isChar = true := by
  have hleaf {field : String × String} (hfield : field ∈ info.written) :
      ∀ c ∈ (readLeaf field).written indent, isChar c = true := by
    have htexts := (List.mem_filter.mp hfield).1
    have hraw : ∀ c ∈ (readLeaf field).raw, isChar c = true := by
      intro c hc
      obtain ⟨d, hd, hmem⟩ := List.mem_flatMap.mp hc
      apply isChar_of_mem_escapeChar (isKept_of_mem_lines hd) _ hmem
      rcases mem_of_mem_normalizeLines hd with hkept | rfl
      · have htext := List.mem_of_mem_filter hkept
        exact ⟨fun heq => (h field htexts).1 (heq ▸ htext),
          fun heq => (h field htexts).2 (heq ▸ htext)⟩
      · exact ⟨by decide, by decide⟩
    have hname : (readLeaf field).name.all isChar = true :=
      isChar_of_mem (name_mem_of_mem_texts htexts)
    have hindent : indent.all isChar = true := by decide
    have hmarks : isChar '<' = true ∧ isChar '/' = true ∧ isChar '>' = true := by decide
    rw [← List.all_eq_true] at hraw ⊢
    simp only [Leaf.written, List.all_append, List.all_cons, List.all_nil, hname, hindent, hraw,
      hmarks, Bool.and_true]
  have hfront : (xmlDeclaration ++ '\n' :: rootTag).all isChar = true := by
    rw [List.all_eq_true]
    intro c hc
    rcases printed_front c hc with rfl | ⟨hlow, hhigh⟩
    · decide
    · simp only [isChar, Bool.or_eq_true, Bool.and_eq_true, decide_eq_true_eq]
      omega
  have hend : ('\n' :: (endTag ++ ['\n'])).all isChar = true := by decide
  have hrows : ((info.written.map readLeaf).flatMap (Leaf.written indent)).all isChar = true := by
    rw [List.all_eq_true]
    intro c hc
    obtain ⟨leaf, hmem, hc⟩ := List.mem_flatMap.mp hc
    obtain ⟨field, hfield, rfl⟩ := List.mem_map.mp hmem
    exact hleaf hfield c hc
  rw [normalizeLines_toXml]
  simp only [List.all_append, List.all_cons, Bool.and_eq_true] at hfront hend ⊢
  exact ⟨hfront.1, hfront.2.1, hfront.2.2, hrows, hend⟩

def quote : Char := Char.ofNat 34

@[simp] theorem declaration_xml (rest : List Char) :
    declaration (xmlDeclaration ++ '\n' :: rest) = some ('\n' :: rest) := by
  have hsplit : xmlDeclaration ++ '\n' :: rest = '<' :: '?' :: 'x' :: 'm' :: 'l' ::
      (' ' :: (version ++ '=' :: quote :: (['1', '.', '0'] ++ quote ::
        (' ' :: (encoding ++ '=' :: quote :: (['u', 't', 'f', '-', '8'] ++ quote ::
          ('?' :: '>' :: '\n' :: rest))))))) := by
    have hliteral : xmlDeclaration = '<' :: '?' :: 'x' :: 'm' :: 'l' ::
        (' ' :: (version ++ '=' :: quote :: (['1', '.', '0'] ++ quote ::
          (' ' :: (encoding ++ '=' :: quote :: (['u', 't', 'f', '-', '8'] ++ quote ::
            ['?', '>'])))))) := by decide
    rw [hliteral]
    simp
  rw [hsplit]
  refine @declaration_eq _ _ [⟨version, ['1', '.', '0']⟩, ⟨encoding, ['u', 't', 'f', '-', '8']⟩] 3
    (fun fuel => ?_) ?_ (by decide)
  swap
  · simp only [List.length_cons, List.length_append]
    omega
  refine @attributes_cons version ['1', '.', '0'] _ _ _ quote _ ['1', '.', '0'] _ _ _
    (by decide) (by decide) (by decide) (by rfl) (by rfl) ?_
  refine @attributes_cons encoding ['u', 't', 'f', '-', '8'] _ _ _ quote _
    ['u', 't', 'f', '-', '8'] _ _ _ (by decide) (by decide) (by decide) (by rfl) (by rfl) ?_
  exact attributes_nil (by rfl) fuel

def rootName : List Char := "ComicInfo".toList

theorem rootTag_eq : rootTag = '<' :: (rootName ++ ' ' :: ("xmlns:xsi".toList ++ '=' :: quote ::
    ("http://www.w3.org/2001/XMLSchema-instance".toList ++ quote :: (' ' ::
      ("xmlns:xsd".toList ++ '=' :: quote ::
        ("http://www.w3.org/2001/XMLSchema".toList ++ quote :: ['>'])))))) := by
  decide

theorem yields_rootTag : Yields rootTag [.start rootName rootAttributes] := by
  rw [rootTag_eq]
  refine Yields.start (by decide) (by decide) (by decide) fun fuel rest => ?_
  obtain ⟨room, hroom⟩ : ∃ room, fuel + (' ' :: ("xmlns:xsi".toList ++ '=' :: quote ::
      ("http://www.w3.org/2001/XMLSchema-instance".toList ++ quote :: (' ' ::
        ("xmlns:xsd".toList ++ '=' :: quote ::
          ("http://www.w3.org/2001/XMLSchema".toList ++ quote :: ['>'])))))).length = room + 3 := by
    refine Nat.exists_eq_add_of_le' ?_
    simp only [List.length_cons, List.length_append]
    omega
  rw [hroom]
  simp only [List.cons_append, List.append_assoc, List.nil_append]
  refine attributes_cons (by decide) (by decide) (by decide) (by rfl) (by rfl) ?_
  refine attributes_cons (by decide) (by decide) (by decide) (by rfl) (by rfl) ?_
  exact attributes_nil (by rfl) room

private theorem spells_blank {blank : List Char} (h : ∀ c ∈ blank, c = '\n' ∨ c = ' ') :
    Spells blank blank := by
  have hflat := @Spells.flatMap (fun c => [c]) blank fun c hc => by
    rcases h c hc with rfl | rfl
    · exact Spells.char (by decide) (by decide)
    · exact Spells.char (by decide) (by decide)
  rwa [List.flatMap_singleton'] at hflat

/-- A reader finds the elements that are written, each with its text but for the characters the
escaper drops and with the line ends a reader has. -/
theorem parse_toXml {info : ComicInfo}
    (h : ∀ field ∈ info.texts, Char.ofNat 0xFFFE ∉ field.2.toList ∧
      Char.ofNat 0xFFFF ∉ field.2.toList) :
    ∃ children, parse info.toXml.toList = some (.element rootName rootAttributes children) ∧
      Xml.fields children =
        some (info.written.map fun field => (field.1.toList, normalizeLines (kept field.2))) := by
  have hfeed : Spells ['\n'] ['\n'] := spells_blank (by simp)
  have hindent : Spells indent indent := spells_blank (by simp [indent])
  have hroot : rootTag = '<' :: rootTag.tail := by
    rw [rootTag_eq, List.tail_cons]
  have hend : endTag = '<' :: '/' :: (rootName ++ ['>']) := by decide
  have hstart : Yields ('\n' :: rootTag) ([.text ['\n']] ++ [.start rootName rootAttributes]) := by
    rw [hroot]
    apply Yields.text_append hfeed
    rw [← hroot]
    exact yields_rootTag
  have hstop : Yields ('\n' :: endTag) ([.text ['\n']] ++ [.stop rootName]) := by
    rw [hend]
    exact Yields.text_append hfeed (Yields.stop (by decide))
  have hrows : Yields ((info.written.map readLeaf).flatMap (Leaf.written indent))
      ((info.written.map readLeaf).flatMap (Leaf.events indent)) := by
    apply Yields.flatMap
    intro leaf hleaf
    obtain ⟨field, hfield, rfl⟩ := List.mem_map.mp hleaf
    exact Yields.leaf hindent (isName_of_mem_texts (List.mem_filter.mp hfield).1)
      (spells_readLeaf field)
  have hevents := ((hstart.append hrows).append hstop).events_eq hfeed
  refine ⟨leafNodes indent (info.written.map readLeaf) ++ [.text ['\n']], ?_, ?_⟩
  · have htext : '\n' :: (rootTag ++ ((info.written.map readLeaf).flatMap (Leaf.written indent) ++
        '\n' :: (endTag ++ ['\n']))) = '\n' :: rootTag ++
          (info.written.map readLeaf).flatMap (Leaf.written indent) ++ '\n' :: endTag ++
            ['\n'] := by
      simp
    unfold parse
    rw [if_pos (isChar_toXml h), normalizeLines_toXml, declaration_xml, htext, Option.bind_some,
      hevents, Option.bind_some]
    simp only [List.append_assoc, List.cons_append, List.nil_append]
    rw [build, if_pos (by decide), build, build_leaves, build, build, if_pos (by rfl),
      List.nil_append]
  · have hread := @fields_leafNodes indent (by decide) (info.written.map readLeaf)
      (fun leaf hleaf hraw => by
        obtain ⟨field, -, rfl⟩ := List.mem_map.mp hleaf
        exact readLeaf_text_nil hraw) [.text ['\n']]
    rw [hread, Xml.fields, if_pos (by decide), Xml.fields, Option.map_some, List.append_nil,
      List.map_map]
    rfl

end Document

end Packaging
end Nyuka
