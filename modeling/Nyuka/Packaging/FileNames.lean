import Nyuka.Packaging.Components
import Nyuka.Packaging.Store

/-! The file names of the chapters of one series. A name is cut to the bytes the file system
takes before the extension is added, and what is cut off are the markers that tell the chapters
apart. -/
namespace Nyuka
namespace Packaging
open Text Binary32

section Limit
variable {s front : List Char}

/-- `format!("{stem}.cbz")` -/
def fileName (stem : List Char) : List Char := stem ++ ['.', 'c', 'b', 'z']

/-- With the extension the name still fits: it is short, or it is cut in a run of dots and
blanks that begins early enough. -/
def Lasting (s : List Char) : Prop :=
  bytes s ≤ 251 ∨ ∃ front, CutAfter s front ∧ bytes front ≤ 251

@[simp] theorem bytes_fileName (stem : List Char) : bytes (fileName stem) = bytes stem + 4 :=
  bytes_append stem _

private theorem cut_initial_of_cutAfter (hhead : ∀ c ∈ s.head?, isEdge c = false)
    (h : CutAfter s front) :
    cut s <+: front := by
  rw [cut_of_cutAfter hhead h]
  exact List.rdropWhile_prefix _ _

/-- Which names fit with the extension behind them. -/
theorem fileName_fits_iff (hhead : ∀ c ∈ s.head?, isEdge c = false) :
    bytes (fileName (cut s)) ≤ 255 ↔ Lasting s := by
  rw [bytes_fileName]
  constructor
  · intro hfits
    by_cases hlong : maxComponentBytes < bytes s
    · exact Or.inr ⟨cut s, (cut_of_long hhead hlong).2.2, by omega⟩
    · rw [cut_of_fits hlong] at hfits
      exact Or.inl (by omega)
  · rintro (hshort | ⟨front, hcut, hfront⟩)
    · have hfree : ¬ maxComponentBytes < bytes s := by
        unfold maxComponentBytes
        omega
      rw [cut_of_fits hfree]
      omega
    · obtain ⟨t, ht⟩ := cut_initial_of_cutAfter hhead hcut
      rw [← ht, bytes_append] at hfront
      omega

/-- Two long names that agree as far as they are kept are cut to one. -/
theorem cut_eq_of_takeBytes {t : List Char} (hs : maxComponentBytes < bytes s)
    (ht : maxComponentBytes < bytes t)
    (h : takeBytes maxComponentBytes s = takeBytes maxComponentBytes t) : cut s = cut t := by
  rw [cut, cut, if_pos hs, if_pos ht, h]

end Limit

section Markers

theorem not_tail_of_digit {c : Char} (h : c.isDigit = true) : isTail c = false :=
  isTail_of_edge (isEdge_of_digit h)

@[simp] theorem countP_paddedInt (width : ℕ) (n : ℤ) : (paddedInt width n).countP isTail = 0 := by
  rw [List.countP_eq_zero]
  intro c hc
  rcases isDigit_or_minus_of_mem_paddedInt hc with hdigit | rfl
  · simp [not_tail_of_digit hdigit]
  · have hminus : isTail '-' = false := by decide
    simp [hminus]

private theorem countP_of_digits {l : List Char} (hl : ∀ c ∈ l, c.isDigit = true) :
    l.countP isTail = 0 := by
  rw [List.countP_eq_zero]
  intro c hc
  simp [not_tail_of_digit (hl c hc)]

/-- A padded number has one point at most. -/
theorem countP_padNumber (x : Binary32) (width : ℕ) : (padNumber x width).countP isTail ≤ 1 := by
  cases hx : x.whole with
  | true =>
    rw [padNumber_of_whole hx, countP_paddedInt]
    exact Nat.zero_le 1
  | false =>
    have htext : (x.fractionText.getD ['0']).countP isTail = 0 := by
      cases pointed_of_not_whole hx with
      | nan _ _ htext | infinite _ _ htext =>
        rw [htext, Option.getD_none]
        exact countP_of_digits (by simp)
      | fraction _ _ htext =>
        rw [htext, Option.getD_some]
        exact countP_of_digits fun c => isDigit_of_mem_padded
    rw [padNumber_of_not_whole hx, List.countP_append, countP_paddedInt, List.countP_cons, htext]
    split <;> omega

theorem countP_markers (volume number : Option Binary32) :
    ([' '].intercalate (markers volume number)).countP isTail ≤ 3 := by
  have hword (l : Char) (hl : l = 'v' ∨ l = 'c') (x : Binary32) (width : ℕ) :
      (l :: padNumber x width).countP isTail ≤ 1 := by
    rw [List.countP_cons_of_neg (by simp [isTail_of_edge (isEdge_of_letter hl)])]
    exact countP_padNumber x width
  cases volume with
  | none =>
    cases number with
    | none => exact Nat.zero_le 3
    | some n =>
      have hn := hword 'c' (Or.inr rfl) n 3
      simp only [markers, Option.map_none, Option.toList_none, Option.map_some, Option.toList_some,
        List.nil_append, List.intercalate_singleton]
      omega
  | some v =>
    have hv := hword 'v' (Or.inl rfl) v 2
    cases number with
    | none =>
      simp only [markers, Option.map_none, Option.toList_none, Option.map_some, Option.toList_some,
        List.append_nil, List.intercalate_singleton]
      omega
    | some n =>
      have hn := hword 'c' (Or.inr rfl) n 3
      have hblank : [' '].countP isTail = 1 := by decide
      have hwords : markers (some v) (some n) = ['v' :: padNumber v 2, 'c' :: padNumber n 3] := rfl
      rw [hwords, List.intercalate_cons_cons, List.intercalate_singleton, List.countP_append,
        List.countP_append, hblank]
      omega

theorem ascii_of_mem_joined {volume number : Option Binary32} {c : Char}
    (h : c ∈ [' '].intercalate (markers volume number)) : c.toNat < 128 := by
  by_contra hlarge
  have hblank : c ∉ [' '] := by
    intro hmem
    obtain rfl := List.mem_singleton.mp hmem
    contradiction
  exact notMem_intercalate hblank (fun w hw hmem => hlarge ((marker_of_mem hw).plain hmem).1) h

end Markers

section Names
variable {nfc : List Char → List Char} {dir : List Char} {v n v' n' : Option Binary32}

theorem head_fullName : ∀ c ∈ (fullName nfc dir v n).head?, isEdge c = false :=
  head_escaped head_spelled

theorem last_fullName : ∀ c ∈ (fullName nfc dir v n).getLast?, isTail c = false :=
  fun c hc => isTail_of_edge (last_escaped last_spelled c hc)

/-- A name whose markers are cut still fills the room up to the few characters that are
trimmed: the markers hold three dots and blanks at most. -/
theorem large_of_cut_markers (hnfc : AsciiAppends nfc) (hne : markers v n ≠ [])
    (hroom : bytes (underscore nfc dir ++ opening nfc dir) < maxComponentBytes)
    (hlong : TooLong nfc dir v n) : 251 < bytes (cut (fullName nfc dir v n)) := by
  obtain ⟨l, m, hjoined, hl⟩ := (ends_of_joined (fun w hw => marker_of_mem hw) hne).1
  have hfull := fullName_of_markers hnfc dir hne
  rw [← List.append_assoc] at hfull
  have hcut := (cut_of_long head_fullName hlong).1
  have hkept : underscore nfc dir ++ opening nfc dir <+:
      takeBytes maxComponentBytes (fullName nfc dir v n) :=
    prefix_takeBytes (hfull ▸ List.prefix_append _ _) (Nat.le_of_lt hroom)
  obtain ⟨c, rest, hs, hfits, hlarge⟩ := (takeBytes_eq_iff hlong).mp rfl
  generalize takeBytes maxComponentBytes (fullName nfc dir v n) = t at *
  generalize underscore nfc dir ++ opening nfc dir = front at *
  obtain ⟨kept, hkept⟩ := hkept
  have hmarkers : [' '].intercalate (markers v n) = kept ++ c :: rest := by
    rw [hfull, ← hkept, List.append_assoc] at hs
    exact List.append_cancel_left hs
  have hascii (d : Char) (hd : d ∈ kept ++ c :: rest) : d.toNat < 128 := by
    rw [← hmarkers] at hd
    exact ascii_of_mem_joined hd
  have hfilled : bytes t = maxComponentBytes := by
    have hc : bytes [c] = 1 := bytes_of_ascii (by simpa using hascii c (by simp))
    rw [bytes_append] at hlarge
    omega
  have hletter : l ∈ kept := by
    cases kept with
    | nil =>
      rw [List.append_nil] at hkept
      rw [hkept] at hroom
      omega
    | cons d kept =>
      rw [hmarkers, List.cons_append] at hjoined
      obtain rfl := (List.cons.inj hjoined).1
      exact List.mem_cons_self
  have htail (d : Char) (hd : d ∈ t.rtakeWhile isTail) : isTail d = true :=
    List.mem_rtakeWhile_imp hd
  -- the letter is not trimmed, so all that is trimmed are markers
  have hgap : t.rtakeWhile isTail <:+ kept := by
    rcases List.suffix_or_suffix_of_suffix (List.rtakeWhile_suffix isTail t)
      (hkept ▸ List.suffix_append front kept) with h | h
    · exact h
    · have hlt := htail l (h.subset hletter)
      rw [isTail_of_edge (isEdge_of_letter hl)] at hlt
      cases hlt
  have hcount : (t.rtakeWhile isTail).length ≤ 3 := by
    rw [← List.countP_eq_length.mpr htail]
    calc (t.rtakeWhile isTail).countP isTail
        ≤ kept.countP isTail := hgap.sublist.countP_le
      _ ≤ (kept ++ c :: rest).countP isTail := (List.sublist_append_left _ _).countP_le
      _ ≤ 3 := hmarkers ▸ countP_markers v n
  have hgapBytes : bytes (t.rtakeWhile isTail) = (t.rtakeWhile isTail).length :=
    bytes_of_ascii fun d hd => hascii d (List.mem_append_left _ (hgap.subset hd))
  have hsplit := congrArg bytes (List.rdropWhile_append_rtakeWhile (p := isTail) (l := t))
  rw [bytes_append, hfilled] at hsplit
  rw [hcut]
  unfold maxComponentBytes at hsplit
  omega

theorem length_le_of_isReserved {s : List Char} (h : isReserved s = true) : s.length ≤ 4 := by
  have hall : reserved.all (fun r => decide (r.length ≤ 4)) = true := by decide
  simp only [isReserved, List.any_eq_true, decide_eq_true_eq] at h
  obtain ⟨r, hr, heq⟩ := h
  have hlength := congrArg List.length heq
  rw [List.length_map, List.length_map] at hlength
  rw [← hlength]
  exact of_decide_eq_true (List.all_eq_true.mp hall r hr)

theorem fullName_bare : fullName nfc dir none none =
    escaped ((lead nfc dir).rdropWhile isEdge) := by
  simp [fullName, spelled, trimMatches, markerText, markers, lead]

/-- A long title is escaped alike with markers and without. -/
theorem escaped_bare {t : List Char} (ht : t <+: lead nfc dir) (hlength : 4 < t.length) :
    escaped t = underscore nfc dir ++ t := by
  by_cases hdot : '.' ∈ t
  · have hlead := ht.subset hdot
    rw [underscore, ← stem_of_initial ht hdot, escaped]
    simp only [hlead, true_and]
    split <;> rfl
  · have hall : ∀ c ∈ t, decide (c ≠ '.') = true := by
      intro c hc
      rw [decide_eq_true_eq]
      rintro rfl
      exact hdot hc
    have hplain : underscore nfc dir = [] := by
      apply if_neg
      rintro ⟨-, hreserved⟩
      have hshort := length_le_of_isReserved hreserved
      obtain ⟨u, hu⟩ := ht
      rw [← hu, List.takeWhile_append_of_pos hall, List.length_append] at hshort
      omega
    have hfree : ¬ isReserved (t.takeWhile (· ≠ '.')) = true := by
      intro hreserved
      rw [List.takeWhile_eq_self_iff.mpr hall] at hreserved
      have hshort := length_le_of_isReserved hreserved
      omega
    rw [hplain, List.nil_append, escaped, if_neg hfree]

/-- The long name without markers is what the names with markers begin with. -/
theorem bare_initial (hnfc : AsciiAppends nfc) (hlong : TooLong nfc dir none none)
    (hne : markers v n ≠ []) : fullName nfc dir none none <+: fullName nfc dir v n := by
  have htrim := List.rdropWhile_prefix isEdge (lead nfc dir)
  unfold TooLong at hlong
  rw [fullName_bare] at hlong ⊢
  generalize (lead nfc dir).rdropWhile isEdge = t at *
  have hlength : 4 < t.length := by
    have hescaped := length_escaped_le t
    have hbytes := bytes_le_length (escaped t)
    unfold maxComponentBytes at hlong
    omega
  have hlead : lead nfc dir ≠ [] := by
    intro hnil
    rw [hnil, List.prefix_nil] at htrim
    rw [htrim] at hlength
    contradiction
  rw [escaped_bare htrim hlength, fullName_of_markers hnfc dir hne, opening, if_neg hlead]
  rw [List.prefix_append_right_inj, List.append_assoc]
  exact htrim.trans (List.prefix_append _ _)

/-- Whether the two are equal numbers, the zeros whatever their signs. -/
def EqualNumber : Option Binary32 → Option Binary32 → Prop
  | none, none => True
  | some x, some y => x = y ∨ (x.magnitude = 0 ∧ y.magnitude = 0)
  | _, _ => False

/-- The two chapters are not written alike, one of the names at least is not cut, and neither is
what is left of the other. -/
structure ToldApart (nfc : List Char → List Char) (dir : List Char)
    (v n v' n' : Option Binary32) : Prop where
  unlike : ¬ (SameNumber v v' ∧ SameNumber n n')
  uncut : ¬ (TooLong nfc dir v n ∧ TooLong nfc dir v' n')
  left : ¬ CutAfter (fullName nfc dir v n) (fullName nfc dir v' n')
  right : ¬ CutAfter (fullName nfc dir v' n') (fullName nfc dir v n)

/-- Of one series all the names that are too long and still fit are the same: they are cut
within the title. -/
theorem cut_eq_of_tooLong (hnfc : AsciiAppends nfc) (hlong : TooLong nfc dir v n)
    (hlong' : TooLong nfc dir v' n') (hlasting : Lasting (fullName nfc dir v n)) :
    cut (fullName nfc dir v n) = cut (fullName nfc dir v' n') := by
  apply cut_eq_of_takeBytes hlong hlong'
  by_cases hne : markers v n = []
  · obtain ⟨rfl, rfl⟩ := none_of_markers hne
    by_cases hne' : markers v' n' = []
    · obtain ⟨rfl, rfl⟩ := none_of_markers hne'
      rfl
    · exact (takeBytes_of_initial (bare_initial hnfc hlong hne') (Nat.le_of_lt hlong)).symm
  · by_cases hne' : markers v' n' = []
    · obtain ⟨rfl, rfl⟩ := none_of_markers hne'
      exact takeBytes_of_initial (bare_initial hnfc hlong' hne) (Nat.le_of_lt hlong')
    · have hfits := (fileName_fits_iff head_fullName).mpr hlasting
      rw [bytes_fileName] at hfits
      have hfilled : maxComponentBytes ≤ bytes (underscore nfc dir ++ opening nfc dir) := by
        by_contra hroom
        have hlarge := large_of_cut_markers hnfc hne (not_le.mp hroom) hlong
        omega
      rw [fullName_of_markers hnfc dir hne, fullName_of_markers hnfc dir hne',
        ← List.append_assoc, ← List.append_assoc,
        takeBytes_of_initial (List.prefix_append _ _) hfilled,
        takeBytes_of_initial (List.prefix_append _ _) hfilled]

private theorem cut_eq_of_cutAfter_fullName
    (h : CutAfter (fullName nfc dir v n) (fullName nfc dir v' n')) :
    cut (fullName nfc dir v n) = fullName nfc dir v' n' :=
  cut_eq_of_cutAfter head_fullName h last_fullName

/-- Names that fit with their extension are different when the chapters are told apart. -/
theorem cut_ne_iff (hnfc : AsciiAppends nfc) (hlasting : Lasting (fullName nfc dir v n)) :
    cut (fullName nfc dir v n) ≠ cut (fullName nfc dir v' n') ↔ ToldApart nfc dir v n v' n' := by
  constructor
  · intro hdiffer
    have hlong : ¬ (TooLong nfc dir v n ∧ TooLong nfc dir v' n') := fun h =>
      hdiffer (cut_eq_of_tooLong hnfc h.1 h.2 hlasting)
    refine ⟨fun hsame => hdiffer ?_, hlong, fun hcut => hdiffer ?_, fun hcut => hdiffer ?_⟩
    · rw [(fullName_eq_iff hnfc dir).mpr hsame]
    · rw [cut_eq_of_cutAfter_fullName hcut,
        cut_of_fits fun h => hlong ⟨long_of_cutAfter hcut, h⟩]
    · rw [cut_eq_of_cutAfter_fullName hcut,
        cut_of_fits fun h => hlong ⟨h, long_of_cutAfter hcut⟩]
  · intro hapart heq
    by_cases hlong : TooLong nfc dir v n
    · have hfits : ¬ TooLong nfc dir v' n' := fun h => hapart.uncut ⟨hlong, h⟩
      rw [cut_of_fits hfits] at heq
      exact hapart.left (heq ▸ (cut_of_long head_fullName hlong).2.2)
    · rw [cut_of_fits hlong] at heq
      by_cases hlong' : TooLong nfc dir v' n'
      · exact hapart.right (heq ▸ (cut_of_long head_fullName hlong').2.2)
      · rw [cut_of_fits hlong'] at heq
        exact hapart.unlike ((fullName_eq_iff hnfc dir).mp heq)

end Names

section Chapters
variable {nfc : List Char → List Char} {title dir stem stem' : List Char}
  {v n v' n' : Option Binary32}

theorem fileName_inj (h : fileName stem = fileName stem') : stem = stem' :=
  List.append_cancel_right h

/-- The file a chapter is placed in carries the name in the directory of its series. -/
theorem placed_fileName {crates : Crates} {files files' : Files} {spec : ChapterSpec}
    {pages : List PageImage} {answers : WriteAnswers} {placed : Placed}
    (h : writeChapter crates files spec pages answers = (files', .ok placed)) :
    ∃ dir stem,
      seriesDir crates.nfc spec.seriesTitle.toList (spec.disambiguator.map String.toList) =
        .ok dir ∧
      chapterStem crates.nfc spec.seriesTitle.toList spec.volume spec.number = .ok stem ∧
      placed.relativePath = String.ofList (dir ++ '/' :: fileName stem) := by
  have hpath := (writeChapter_ok h).1
  simp only [relativePath, Results.bind_eq_ok, Results.pure_eq_ok] at hpath
  obtain ⟨dir, hdir, stem, hstem, hjoin⟩ := hpath
  exact ⟨dir, stem, hdir, hstem, hjoin.symm⟩

/-- Two chapters of a series get names that fit, and different ones for different numbers,
exactly when each name is short enough for its extension and the two are told apart. -/
theorem fileNames_identify_iff (hnfc : AsciiAppends nfc)
    (hdir : sanitizeComponent nfc title = .ok dir)
    (hstem : chapterStem nfc title v n = .ok stem)
    (hstem' : chapterStem nfc title v' n' = .ok stem') :
    (bytes (fileName stem) ≤ 255 ∧ bytes (fileName stem') ≤ 255 ∧
      (¬ (EqualNumber v v' ∧ EqualNumber n n') → fileName stem ≠ fileName stem')) ↔
    Lasting (fullName nfc dir v n) ∧ Lasting (fullName nfc dir v' n') ∧
      (¬ (EqualNumber v v' ∧ EqualNumber n n') → ToldApart nfc dir v n v' n') := by
  obtain ⟨d, hd, rfl⟩ := eq_cut_of_chapterStem hstem
  obtain ⟨d', hd', rfl⟩ := eq_cut_of_chapterStem hstem'
  obtain rfl : dir = d := Except.ok.inj (hdir.symm.trans hd)
  obtain rfl : dir = d' := Except.ok.inj (hdir.symm.trans hd')
  rw [fileName_fits_iff head_fullName, fileName_fits_iff head_fullName]
  refine and_congr_right fun hlasting => and_congr_right fun _ => ?_
  apply imp_congr_right
  intro _
  rw [← cut_ne_iff hnfc hlasting]
  exact not_congr ⟨fileName_inj, congrArg fileName⟩

theorem asciiAppends_id : AsciiAppends id := fun _ _ _ => rfl

theorem series_identify_iff :
    (bytes (fileName "Series c001".toList) ≤ 255 ∧ bytes (fileName "Series c002".toList) ≤ 255 ∧
      (¬ (EqualNumber none none ∧ EqualNumber (some 0x3F800000) (some 0x40000000)) →
        fileName "Series c001".toList ≠ fileName "Series c002".toList)) ↔
    Lasting (fullName id "Series".toList none (some 0x3F800000)) ∧
      Lasting (fullName id "Series".toList none (some 0x40000000)) ∧
      (¬ (EqualNumber none none ∧ EqualNumber (some 0x3F800000) (some 0x40000000)) →
        ToldApart id "Series".toList none (some 0x3F800000) none (some 0x40000000)) :=
  @fileNames_identify_iff id "Series".toList _ _ _ _ _ _ _ asciiAppends_id (by decide)
    (by decide) (by decide)

/-- A title that fills the room leaves none for the extension. -/
theorem long_title_overflows : ¬ ∀ nfc, AsciiAppends nfc → ∀ title v n v' n' stem stem',
    chapterStem nfc title v n = .ok stem → chapterStem nfc title v' n' = .ok stem' →
      bytes (fileName stem) ≤ 255 ∧ bytes (fileName stem') ≤ 255 ∧
        (¬ (EqualNumber v v' ∧ EqualNumber n n') → fileName stem ≠ fileName stem') := by
  intro h
  have hfirst : chapterStem id (List.replicate 260 'a') none (some 0x3F800000) =
      .ok (List.replicate 255 'a') := by decide +kernel
  have hsecond : chapterStem id (List.replicate 260 'a') none (some 0x40000000) =
      .ok (List.replicate 255 'a') := by decide +kernel
  have hfits := (h id asciiAppends_id _ _ _ _ _ _ _ hfirst hsecond).1
  revert hfits
  decide +kernel

end Chapters

end Packaging
end Nyuka
