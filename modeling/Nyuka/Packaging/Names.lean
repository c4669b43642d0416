import Nyuka.Packaging.Numbers

/-! When two chapters get the same file name. The stem is the sanitized title with a marker for
the volume and one for the number, sanitized once more; as long as the name is not cut, the
second pass leaves the markers as they are, and they can be read off its end. -/
namespace Nyuka
namespace Packaging
open Text Binary32

variable {nfc : List Char → List Char}

/-- Text behind which ASCII is written normalizes as it does without it: ASCII characters are
starters that compose with nothing before them. -/
def AsciiAppends (nfc : List Char → List Char) : Prop :=
  ∀ s t, (∀ c ∈ t, c.toNat < 128) → nfc (s ++ t) = nfc s ++ t

/-- The words a chapter's name ends with. -/
def markers (volume number : Option Binary32) : List (List Char) :=
  (volume.map fun v => 'v' :: padNumber v 2).toList ++
    (number.map fun n => 'c' :: padNumber n 3).toList

/-- The characters a padded number is made of. -/
def isNumeral (c : Char) : Bool := c.isDigit || c = '-' || c = '.'

theorem isNumeral_of_mem_padNumber {x : Binary32} {width : ℕ} {c : Char}
    (h : c ∈ padNumber x width) : isNumeral c = true := by
  have hint : ∀ c ∈ paddedInt width x.toI64, isNumeral c = true := by
    intro c hc
    rcases isDigit_or_minus_of_mem_paddedInt hc with hdigit | rfl
    · simp [isNumeral, hdigit]
    · rfl
  cases hx : x.whole with
  | true =>
    rw [padNumber_of_whole hx] at h
    exact hint c h
  | false =>
    rw [padNumber_of_not_whole hx, List.mem_append, List.mem_cons] at h
    rcases h with h | rfl | h
    · exact hint c h
    · rfl
    · cases pointed_of_not_whole hx with
      | nan _ _ htext | infinite _ _ htext =>
        rw [htext, Option.getD_none, List.mem_singleton] at h
        rw [h]
        rfl
      | fraction _ _ htext =>
        rw [htext, Option.getD_some] at h
        have hdigit := isDigit_of_mem_padded h
        simp [isNumeral, hdigit]

/-- A padded number ends with a digit. -/
theorem padNumber_getLast (x : Binary32) (width : ℕ) :
    ∃ s d, padNumber x width = s ++ [d] ∧ d.isDigit = true := by
  have hpadded (w n : ℕ) : ∃ s d, padded w n = s ++ [d] ∧ d.isDigit = true :=
    ⟨_, _, (List.dropLast_append_getLast (padded_ne_nil w n)).symm,
      isDigit_of_mem_padded (List.getLast_mem _)⟩
  cases hx : x.whole with
  | true =>
    rw [padNumber_of_whole hx]
    unfold paddedInt
    split
    · obtain ⟨s, d, hsd, hd⟩ := hpadded (width - 1) x.toI64.natAbs
      exact ⟨'-' :: s, d, by rw [hsd]; rfl, hd⟩
    · exact hpadded width x.toI64.natAbs
  | false =>
    rw [padNumber_of_not_whole hx]
    have htail : ∃ s d, x.fractionText.getD ['0'] = s ++ [d] ∧ d.isDigit = true := by
      cases pointed_of_not_whole hx with
      | nan _ _ htext | infinite _ _ htext =>
        rw [htext, Option.getD_none]
        exact ⟨[], '0', rfl, rfl⟩
      | fraction _ _ htext =>
        rw [htext, Option.getD_some]
        exact hpadded _ _
    obtain ⟨s, d, hsd, hd⟩ := htail
    exact ⟨paddedInt width x.toI64 ++ '.' :: s, d, by rw [hsd]; simp, hd⟩

/-- What is known of a word the name ends with: a letter, numerals and at last a digit. -/
structure Marker (w : List Char) : Prop where
  head : ∃ l rest, w = l :: rest ∧ (l = 'v' ∨ l = 'c')
  numeral : ∀ c ∈ w.tail, isNumeral c = true
  last : ∃ s d, w = s ++ [d] ∧ d.isDigit = true

private theorem marker_cons {l : Char} (hl : l = 'v' ∨ l = 'c') (x : Binary32) (width : ℕ) :
    Marker (l :: padNumber x width) where
  head := ⟨l, _, rfl, hl⟩
  numeral c hc := isNumeral_of_mem_padNumber hc
  last := by
    obtain ⟨s, d, hsd, hd⟩ := padNumber_getLast x width
    exact ⟨l :: s, d, by rw [hsd]; rfl, hd⟩

theorem marker_of_mem {volume number : Option Binary32} {w : List Char}
    (h : w ∈ markers volume number) : Marker w := by
  simp only [markers, List.mem_append, Option.mem_toList, Option.map_eq_some_iff] at h
  rcases h with ⟨v, -, rfl⟩ | ⟨n, -, rfl⟩
  · exact marker_cons (Or.inl rfl) v 2
  · exact marker_cons (Or.inr rfl) n 3

/-- The letters and numerals of a marker are kept as they are by every pass. -/
theorem plain_of_numeral {c : Char} (h : isNumeral c = true ∨ c = 'v' ∨ c = 'c') :
    c.toNat < 128 ∧ replacement c = some c ∧ isWhitespace c = false := by
  have hall : (['0', '1', '2', '3', '4', '5', '6', '7', '8', '9'] ++ ['-', '.', 'v', 'c']).all
      (fun c => decide (c.toNat < 128 ∧ replacement c = some c ∧ isWhitespace c = false)) =
        true := by
    decide
  refine of_decide_eq_true (List.all_eq_true.mp hall c ?_)
  simp only [isNumeral, Bool.or_eq_true, decide_eq_true_eq] at h
  rcases h with ((hdigit | rfl) | rfl) | rfl | rfl
  · exact List.mem_append_left _ (mem_of_isDigit hdigit)
  all_goals decide

theorem Marker.plain {w : List Char} (hw : Marker w) {c : Char} (hc : c ∈ w) :
    c.toNat < 128 ∧ replacement c = some c ∧ isWhitespace c = false := by
  obtain ⟨l, rest, rfl, hl⟩ := hw.head
  rcases List.mem_cons.mp hc with rfl | hc
  · exact plain_of_numeral (Or.inr hl)
  · exact plain_of_numeral (Or.inl (hw.numeral c hc))

theorem Marker.ne_nil {w : List Char} (hw : Marker w) : w ≠ [] := by
  obtain ⟨l, rest, rfl, -⟩ := hw.head
  simp

theorem Marker.blank_notMem {w : List Char} (hw : Marker w) : ' ' ∉ w := fun h => by
  have hblank := (hw.plain h).2.2
  contradiction

/-- The marker text: each word behind a blank. -/
def markerText (volume number : Option Binary32) : List Char :=
  (markers volume number).flatMap (' ' :: ·)

theorem chapterStem_eq (title : List Char) (volume number : Option Binary32) :
    chapterStem nfc title volume number =
      match sanitizeComponent nfc title with
      | .error e => .error e
      | .ok dir => sanitizeComponent nfc (dir ++ markerText volume number) := by
  unfold chapterStem
  cases sanitizeComponent nfc title with
  | error e => rfl
  | ok dir => cases volume <;> cases number <;> simp [markerText, markers]

theorem plain_of_mem_markerText {volume number : Option Binary32} {c : Char}
    (h : c ∈ markerText volume number) : c.toNat < 128 ∧ replacement c = some c := by
  simp only [markerText, List.mem_flatMap, List.mem_cons] at h
  obtain ⟨w, hw, rfl | hc⟩ := h
  · decide
  · have hplain := (marker_of_mem hw).plain hc
    exact ⟨hplain.1, hplain.2.1⟩

@[simp] private theorem cleaned_markerText (volume number : Option Binary32) :
    cleaned (markerText volume number) = markerText volume number := by
  have hkept : (markerText volume number).filterMap replacement =
      (markerText volume number).filterMap some :=
    List.filterMap_congr fun c hc => (plain_of_mem_markerText hc).2
  rw [cleaned, hkept, List.filterMap_some]

/-- The words of the title are kept before the markers. -/
theorem words_cleaned (hnfc : AsciiAppends nfc) (dir : List Char)
    (volume number : Option Binary32) :
    words isWhitespace (cleaned (nfc (dir ++ markerText volume number))) =
      words isWhitespace (cleaned (nfc dir)) ++ markers volume number := by
  have hsplit : cleaned (nfc (dir ++ markerText volume number)) =
      cleaned (nfc dir) ++ markerText volume number := by
    rw [hnfc _ _ fun c hc => (plain_of_mem_markerText hc).1, cleaned, List.filterMap_append]
    exact congrArg (cleaned (nfc dir) ++ ·) (cleaned_markerText volume number)
  rw [hsplit]
  exact words_append_flatMap (by decide) (fun w hw =>
    ⟨fun c hc => ((marker_of_mem hw).plain hc).2.2, (marker_of_mem hw).ne_nil⟩) _

/-- The title as the second pass has it in front of the markers. -/
def lead (nfc : List Char → List Char) (dir : List Char) : List Char :=
  (collapsed (cleaned (nfc dir))).dropWhile isEdge

/-- What stands before the first marker. -/
def opening (nfc : List Char → List Char) (dir : List Char) : List Char :=
  if lead nfc dir = [] then [] else lead nfc dir ++ [' ']

theorem isEdge_of_digit {d : Char} (hd : d.isDigit = true) : isEdge d = false := by
  have hall : ['0', '1', '2', '3', '4', '5', '6', '7', '8', '9'].all
      (fun d => !isEdge d) = true := by
    decide
  simpa using List.all_eq_true.mp hall d (mem_of_isDigit hd)

/-- Joined markers begin with a letter and end with a digit. -/
theorem ends_of_joined {ws : List (List Char)} (hws : ∀ w ∈ ws, Marker w) (hne : ws ≠ []) :
    (∃ l rest, [' '].intercalate ws = l :: rest ∧ (l = 'v' ∨ l = 'c')) ∧
      ∃ s d, [' '].intercalate ws = s ++ [d] ∧ d.isDigit = true := by
  induction ws with
  | nil => contradiction
  | cons w ws ih =>
    have hw := hws w List.mem_cons_self
    cases ws with
    | nil =>
      rw [List.intercalate_singleton]
      exact ⟨hw.head, hw.last⟩
    | cons w' ws =>
      obtain ⟨l, rest, rfl, hl⟩ := hw.head
      obtain ⟨-, s, d, hsd, hd⟩ := ih (fun w hw => hws w (List.mem_cons_of_mem _ hw)) (by simp)
      rw [List.intercalate_cons_cons, hsd]
      exact ⟨⟨l, rest ++ [' '] ++ (s ++ [d]), by simp, hl⟩,
        ⟨l :: rest ++ [' '] ++ s, d, by simp, hd⟩⟩

theorem isEdge_of_letter {l : Char} (hl : l = 'v' ∨ l = 'c') : isEdge l = false := by
  rcases hl with rfl | rfl <;> decide

/-- The name with markers, its length aside: the markers follow the opening unchanged. -/
theorem spelled_markerText (hnfc : AsciiAppends nfc) (dir : List Char)
    {volume number : Option Binary32} (hne : markers volume number ≠ []) :
    spelled nfc (dir ++ markerText volume number) =
      opening nfc dir ++ [' '].intercalate (markers volume number) := by
  obtain ⟨⟨l, rest, hhead, hl⟩, s, d, hlast, hd⟩ :=
    ends_of_joined (fun w hw => marker_of_mem hw) hne
  have hdrop : ([' '].intercalate (markers volume number)).dropWhile isEdge =
      [' '].intercalate (markers volume number) := by
    rw [hhead, List.dropWhile_cons_of_neg (by simp [isEdge_of_letter hl])]
  have hfront : (collapsed (cleaned (nfc (dir ++ markerText volume number)))).dropWhile isEdge =
      opening nfc dir ++ [' '].intercalate (markers volume number) := by
    rw [collapsed, words_cleaned hnfc, opening, lead, collapsed]
    by_cases hwords : words isWhitespace (cleaned (nfc dir)) = []
    · simp [hwords, hdrop]
    · rw [intercalate_append _ hwords hne, List.append_assoc, List.dropWhile_append]
      by_cases hlead : ([' '].intercalate (words isWhitespace (cleaned (nfc dir)))).dropWhile
          isEdge = []
      · have hblank : isEdge ' ' = true := by decide
        simp [hlead, hblank, hdrop]
      · simp [hlead]
  rw [spelled, trimMatches, hfront, hlast, ← List.append_assoc,
    List.rdropWhile_concat_neg _ _ _ (by simp [isEdge_of_digit hd])]

/-- Whether the two chapters carry the same number, as far as the name shows. -/
def SameNumber : Option Binary32 → Option Binary32 → Prop
  | none, none => True
  | some x, some y => Alike x y
  | _, _ => False

instance (x y : Option Binary32) : Decidable (SameNumber x y) := by
  cases x <;> cases y <;> unfold SameNumber <;> infer_instance

/-- One marker, or none, tells its letter apart and the number as far as a text does. -/
theorem marker_eq_iff (l : Char) (width : ℕ) {x y : Option Binary32} :
    x.map (fun n => l :: padNumber n width) = y.map (fun n => l :: padNumber n width) ↔
      SameNumber x y := by
  cases x <;> cases y <;> simp [SameNumber, padNumber_eq_iff]

theorem markers_eq_iff {v n v' n' : Option Binary32} :
    markers v n = markers v' n' ↔ SameNumber v v' ∧ SameNumber n n' := by
  rw [← marker_eq_iff 'v' 2, ← marker_eq_iff 'c' 3, markers,
    markers]
  cases v <;> cases v' <;> cases n <;> cases n' <;> simp

theorem none_of_markers {v n : Option Binary32} (h : markers v n = []) : v = none ∧ n = none := by
  cases v <;> cases n <;> simp [markers] at h ⊢

theorem joined_inj {v n v' n' : Option Binary32} (hne : markers v n ≠ [])
    (hne' : markers v' n' ≠ [])
    (h : [' '].intercalate (markers v n) = [' '].intercalate (markers v' n')) :
    markers v n = markers v' n' :=
  intercalate_inj (fun _ hw => (marker_of_mem hw).blank_notMem)
    (fun _ hw => (marker_of_mem hw).blank_notMem) hne hne' h

section Reserved

theorem blank_notMem_of_isReserved {s : List Char} (h : isReserved s = true) : ' ' ∉ s := by
  intro hmem
  have hall : ∀ r ∈ reserved, ' ' ∉ r.map Char.toLower := by decide
  simp only [isReserved, List.any_eq_true, decide_eq_true_eq] at h
  obtain ⟨r, hr, heq⟩ := h
  refine hall r hr ?_
  rw [heq]
  exact List.mem_map.mpr ⟨' ', hmem, rfl⟩

/-- The second character of a reserved name is a letter. -/
theorem second_of_isReserved {s : List Char} (h : isReserved s = true) :
    ∃ c, s[1]? = some c ∧ isNumeral c = false := by
  have hall : reserved.all
      (fun r => (r.map Char.toLower)[1]?.any fun d => !isNumeral d) = true := by
    decide
  simp only [isReserved, List.any_eq_true, decide_eq_true_eq] at h
  obtain ⟨r, hr, heq⟩ := h
  obtain ⟨d, hd, hletter⟩ := (Option.any_eq_true _ _).mp (List.all_eq_true.mp hall r hr)
  rw [heq, List.getElem?_map, Option.map_eq_some_iff] at hd
  obtain ⟨c, hc, rfl⟩ := hd
  refine ⟨c, hc, Bool.eq_false_iff.mpr fun hnum => ?_⟩
  have hsame : (['0', '1', '2', '3', '4', '5', '6', '7', '8', '9'] ++ ['-', '.']).all
      (fun c => isNumeral c.toLower) = true := by decide
  have hmem : c ∈ ['0', '1', '2', '3', '4', '5', '6', '7', '8', '9'] ++ ['-', '.'] := by
    simp only [isNumeral, Bool.or_eq_true, decide_eq_true_eq] at hnum
    rcases hnum with (hdigit | rfl) | rfl
    · exact List.mem_append_left _ (mem_of_isDigit hdigit)
    all_goals decide
  rw [List.all_eq_true.mp hsame c hmem] at hletter
  contradiction

theorem second_of_joined {ws : List (List Char)} (hws : ∀ w ∈ ws, Marker w) (hne : ws ≠ []) :
    ∃ l c rest, [' '].intercalate ws = l :: c :: rest ∧ isNumeral c = true := by
  obtain ⟨w, ws, rfl⟩ := List.exists_cons_of_ne_nil hne
  have hw := hws w List.mem_cons_self
  obtain ⟨l, rest, rfl, hl⟩ := hw.head
  cases rest with
  | nil =>
    obtain ⟨s, d, hsd, hd⟩ := hw.last
    have hlast := congrArg List.getLast? hsd
    simp only [List.getLast?_singleton, List.getLast?_append_of_ne_nil _ (by simp : [d] ≠ []),
      Option.some.injEq] at hlast
    subst hlast
    rcases hl with rfl | rfl <;> contradiction
  | cons c rest =>
    have hnum := hw.numeral c (by simp)
    cases ws with
    | nil => exact ⟨l, c, rest, by simp, hnum⟩
    | cons w' ws => exact ⟨l, c, _, by rw [List.intercalate_cons_cons]; rfl, hnum⟩

/-- The underscore a reserved title is written with. -/
def underscore (nfc : List Char → List Char) (dir : List Char) : List Char :=
  if '.' ∈ lead nfc dir ∧ isReserved ((lead nfc dir).takeWhile (· ≠ '.')) = true then ['_'] else []

/-- Markers make no name reserved and no name free: only a title with a dot in it decides. -/
theorem escaped_opening (dir : List Char) {ws : List (List Char)} (hws : ∀ w ∈ ws, Marker w)
    (hne : ws ≠ []) :
    escaped (opening nfc dir ++ [' '].intercalate ws) =
      underscore nfc dir ++ (opening nfc dir ++ [' '].intercalate ws) := by
  by_cases hdot : '.' ∈ lead nfc dir
  · have hlead : lead nfc dir ≠ [] := List.ne_nil_of_mem hdot
    have htake : (opening nfc dir ++ [' '].intercalate ws).takeWhile (· ≠ '.') =
        (lead nfc dir).takeWhile (· ≠ '.') := by
      rw [opening, if_neg hlead, List.append_assoc, List.takeWhile_append, if_neg]
      intro hlength
      have hall := List.takeWhile_eq_self_iff.mp
        (List.IsPrefix.eq_of_length (List.takeWhile_prefix _) hlength)
      simpa using hall '.' hdot
    rw [escaped, underscore, htake]
    simp only [hdot, true_and]
    split <;> rfl
  · have hfree : isReserved ((opening nfc dir ++ [' '].intercalate ws).takeWhile (· ≠ '.')) =
        false := by
      refine Bool.eq_false_iff.mpr fun hreserved => ?_
      by_cases hlead : lead nfc dir = []
      · obtain ⟨l, c, rest, hjoined, hnum⟩ := second_of_joined hws hne
        obtain ⟨d, hd, hletter⟩ := second_of_isReserved hreserved
        rw [opening, if_pos hlead, List.nil_append, hjoined] at hd
        have hsecond : c = d := by
          rw [List.takeWhile_cons, List.takeWhile_cons] at hd
          split at hd
          · split at hd
            · simpa using hd
            · simp at hd
          · simp at hd
        rw [← hsecond, hnum] at hletter
        contradiction
      · refine blank_notMem_of_isReserved hreserved ?_
        rw [opening, if_neg hlead, List.append_assoc, List.takeWhile_append_of_pos]
        · simp
        · intro c hc
          simpa using fun heq : c = '.' => hdot (heq ▸ hc)
    rw [escaped, underscore, hfree]
    simp [hdot]

end Reserved

/-- The name before it is cut to a length the filesystem takes. -/
def fullName (nfc : List Char → List Char) (dir : List Char) (volume number : Option Binary32) :
    List Char :=
  escaped (spelled nfc (dir ++ markerText volume number))

theorem fullName_of_markers (hnfc : AsciiAppends nfc) (dir : List Char)
    {volume number : Option Binary32} (hne : markers volume number ≠ []) :
    fullName nfc dir volume number = underscore nfc dir ++ (opening nfc dir ++
      [' '].intercalate (markers volume number)) := by
  rw [fullName, spelled_markerText hnfc dir hne]
  exact escaped_opening dir (fun w hw => marker_of_mem hw) hne

theorem length_escaped_le (s : List Char) : (escaped s).length ≤ s.length + 1 := by
  unfold escaped
  split <;> simp

/-- A name with a marker is longer than the same name without one. -/
theorem fullName_bare_lt (hnfc : AsciiAppends nfc) (dir : List Char)
    {volume number : Option Binary32} (hne : markers volume number ≠ []) :
    (fullName nfc dir none none).length < (fullName nfc dir volume number).length := by
  have hbare : (fullName nfc dir none none).length ≤ (lead nfc dir).length + 1 := by
    have hspelled : spelled nfc (dir ++ markerText none none) =
        (lead nfc dir).rdropWhile isEdge := by
      simp [spelled, trimMatches, markerText, markers, lead]
    rw [fullName, hspelled]
    have htrim := (List.rdropWhile_prefix isEdge (lead nfc dir)).length_le
    have hescaped := length_escaped_le ((lead nfc dir).rdropWhile isEdge)
    omega
  have hmarked : (lead nfc dir).length + 2 ≤ (fullName nfc dir volume number).length := by
    obtain ⟨l, c, rest, hjoined, -⟩ := second_of_joined (fun w hw => marker_of_mem hw) hne
    rw [fullName_of_markers hnfc dir hne, hjoined, opening]
    split
    · next hlead =>
      simp [hlead]
      omega
    · simp only [List.length_append, List.length_cons]
      omega
  omega

/-- As long as nothing is cut off, the name tells the title and the numbers as far as their
texts do. -/
theorem fullName_eq_iff (hnfc : AsciiAppends nfc) (dir : List Char) {v n v' n' : Option Binary32} :
    fullName nfc dir v n = fullName nfc dir v' n' ↔ SameNumber v v' ∧ SameNumber n n' := by
  rw [← markers_eq_iff]
  constructor
  · intro h
    by_cases hne : markers v n = []
    · by_cases hne' : markers v' n' = []
      · rw [hne, hne']
      · obtain ⟨rfl, rfl⟩ := none_of_markers hne
        have hlt := fullName_bare_lt hnfc dir hne'
        rw [h] at hlt
        omega
    · by_cases hne' : markers v' n' = []
      · obtain ⟨rfl, rfl⟩ := none_of_markers hne'
        have hlt := fullName_bare_lt hnfc dir hne
        rw [h] at hlt
        omega
      · rw [fullName_of_markers hnfc dir hne, fullName_of_markers hnfc dir hne'] at h
        exact joined_inj hne hne' (List.append_cancel_left (List.append_cancel_left h))
  · intro h
    rw [fullName, fullName, markerText, markerText, h]

/-- What a successful sanitizing returns. -/
theorem eq_cut_of_sanitize {input r : List Char} (h : sanitizeComponent nfc input = .ok r) :
    r = cut (escaped (spelled nfc input)) := by
  unfold sanitizeComponent at h
  grind

theorem eq_cut_of_chapterStem {title stem : List Char} {volume number : Option Binary32}
    (h : chapterStem nfc title volume number = .ok stem) :
    ∃ dir, sanitizeComponent nfc title = .ok dir ∧ stem = cut (fullName nfc dir volume number) := by
  rw [chapterStem_eq] at h
  cases hdir : sanitizeComponent nfc title with
  | error e => simp [hdir] at h
  | ok dir =>
    rw [hdir] at h
    exact ⟨dir, rfl, eq_cut_of_sanitize h⟩

/-- The name is too long for the filesystem, so its end is cut off. -/
def TooLong (nfc : List Char → List Char) (dir : List Char) (volume number : Option Binary32) :
    Prop :=
  maxComponentBytes < bytes (fullName nfc dir volume number)

instance (dir : List Char) (volume number : Option Binary32) :
    Decidable (TooLong nfc dir volume number) := by unfold TooLong; infer_instance

theorem cut_of_fits {s : List Char} (h : ¬ maxComponentBytes < bytes s) : cut s = s := by
  rw [cut, if_neg h]

/-- Two names of one series are the same file name when they carry the same numbers, or when
one of them is cut and nothing of the difference is left. -/
theorem cut_eq_iff (hnfc : AsciiAppends nfc) (dir : List Char) {v n v' n' : Option Binary32} :
    cut (fullName nfc dir v n) = cut (fullName nfc dir v' n') ↔
      (SameNumber v v' ∧ SameNumber n n') ∨ ((TooLong nfc dir v n ∨ TooLong nfc dir v' n') ∧
        cut (fullName nfc dir v n) = cut (fullName nfc dir v' n')) := by
  rw [← fullName_eq_iff hnfc dir]
  constructor
  · intro h
    by_cases hlong : TooLong nfc dir v n ∨ TooLong nfc dir v' n'
    · exact Or.inr ⟨hlong, h⟩
    · rw [not_or] at hlong
      rw [cut_of_fits hlong.1, cut_of_fits hlong.2] at h
      exact Or.inl h
  · rintro (h | ⟨-, h⟩)
    · rw [h]
    · exact h

/-- The path separator occurs in no sanitized name. -/
theorem slash_notMem_sanitized {input r : List Char} (h : sanitizeComponent nfc input = .ok r) :
    '/' ∉ r := by
  have hreplacement : ∀ c d, replacement c = some d → d ≠ '/' := by
    intro c d hcd
    unfold replacement at hcd
    grind
  have hcleaned : '/' ∉ cleaned (nfc input) := fun hmem => by
    obtain ⟨c, -, hc⟩ := List.mem_filterMap.mp hmem
    exact hreplacement c '/' hc rfl
  have hcollapsed : '/' ∉ collapsed (cleaned (nfc input)) :=
    notMem_intercalate (by decide) fun w hw hmem => hcleaned (mem_of_mem_words hw hmem)
  have hspelled : '/' ∉ spelled nfc input := fun hmem => hcollapsed (mem_of_mem_trimMatches hmem)
  have hescaped : '/' ∉ escaped (spelled nfc input) := by
    unfold escaped
    split
    · simpa using hspelled
    · exact hspelled
  rw [eq_cut_of_sanitize h, cut]
  split
  · exact fun hmem => hescaped ((takeBytes_initial _ _).subset (mem_of_mem_trimMatches hmem))
  · exact hescaped

end Packaging
end Nyuka
