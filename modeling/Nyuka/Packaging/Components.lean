import Nyuka.Packaging.Names

/-! What a sanitized name is: one path component that every filesystem takes, and a name that
sanitizing leaves alone. Both fail where a name that is too long is cut: what is trimmed there are
dots and blanks only, and a reserved name is not looked for again. -/
namespace Nyuka
namespace Packaging
open Text

section Contract

/-- Separators, reserved characters, controls and bidirectional overrides. -/
def isForbidden (c : Char) : Bool :=
  c = '/' || c = '\\' || c.toNat = 34 || c ∈ [':', '*', '?', '<', '>', '|'] ||
    isControl c || isBidi c

/-- A part of a path. -/
inductive PathPart where
  | rootDir | curDir | parentDir
  | normal (name : List Char)
deriving DecidableEq, Repr

/-- `Path::components`: empty parts and inner dots count for nothing. -/
def pathComponents (path : List Char) : List PathPart :=
  let parts := path.splitOn '/'
  let first : List PathPart :=
    if path.head? = some '/' then [.rootDir] else if parts.head? = some ['.'] then [.curDir] else []
  first ++ (parts.filter fun part => part ≠ [] && part ≠ ['.']).map fun part =>
    if part = ['.', '.'] then .parentDir else .normal part

/-- A name that is safe to use as one component of a path. -/
structure SafeComponent (r : List Char) : Prop where
  nonempty : r ≠ []
  fits : bytes r ≤ maxComponentBytes
  chars : ∀ c ∈ r, isForbidden c = false
  head : ∀ c ∈ r.head?, isEdge c = false
  last : ∀ c ∈ r.getLast?, isEdge c = false
  unreserved : isReserved (r.takeWhile (· ≠ '.')) = false
  single : pathComponents r = [.normal r]

/-- Cutting the name to the bytes a filesystem takes leaves `front` and, behind it, nothing but
dots and blanks. -/
def CutAfter (s front : List Char) : Prop :=
  ∃ gap c rest, s = front ++ gap ++ c :: rest ∧ (∀ d ∈ gap, isTail d = true) ∧
    bytes (front ++ gap) ≤ maxComponentBytes ∧ maxComponentBytes < bytes (front ++ gap ++ [c])

/-- The cut leaves neither a dash at the end nor a reserved name. -/
structure CutsWell (s : List Char) : Prop where
  dash : ∀ front, ¬ CutAfter s (front ++ ['-'])
  reserved : ∀ front, isReserved front = true → ¬ CutAfter s front

end Contract

section Spelled
variable {nfc : List Char → List Char} {input s front : List Char}

theorem isEdge_of_isTail {c : Char} (h : isTail c = true) : isEdge c = true := by
  simp only [isTail, isEdge, Bool.or_eq_true, decide_eq_true_eq] at h ⊢
  exact h.elim (fun hc => .inl (.inl hc)) .inr

private theorem not_forbidden_of_replacement {c d : Char} (h : replacement c = some d) :
    isForbidden d = false := by
  unfold replacement at h
  split at h
  · obtain rfl := Option.some.inj h
    decide
  · split at h
    · obtain rfl := Option.some.inj h
      decide
    · split at h
      · cases h
      · split at h
        · cases h
        · obtain rfl := Option.some.inj h
          simp_all [isForbidden]

theorem not_forbidden_of_mem_spelled {c : Char} (h : c ∈ spelled nfc input) :
    isForbidden c = false := by
  have hcollapsed : c ∈ collapsed (cleaned (nfc input)) := mem_of_mem_trimMatches h
  by_contra hforbidden
  refine notMem_intercalate ?_ (fun w hw hmem => ?_) hcollapsed
  · rintro hblank
    obtain rfl := List.mem_singleton.mp hblank
    exact hforbidden (by decide)
  · obtain ⟨d, -, hd⟩ := List.mem_filterMap.mp (mem_of_mem_words hw hmem)
    exact hforbidden (not_forbidden_of_replacement hd)

theorem head_spelled : ∀ c ∈ (spelled nfc input).head?, isEdge c = false :=
  fun _ => of_head_trimMatches

theorem last_spelled : ∀ c ∈ (spelled nfc input).getLast?, isEdge c = false :=
  fun _ => of_getLast_trimMatches

theorem head_escaped (h : ∀ c ∈ s.head?, isEdge c = false) :
    ∀ c ∈ (escaped s).head?, isEdge c = false := by
  unfold escaped
  split
  · simp only [List.head?_cons, Option.mem_some_iff, forall_eq']
    decide
  · exact h

theorem last_escaped (h : ∀ c ∈ s.getLast?, isEdge c = false) :
    ∀ c ∈ (escaped s).getLast?, isEdge c = false := by
  unfold escaped
  split
  · intro c hc
    cases s with
    | nil =>
      obtain rfl : '_' = c := by simpa using hc
      decide
    | cons d s =>
      rw [List.getLast?_cons_cons] at hc
      exact h c hc
  · exact h

theorem ne_nil_of_isReserved (h : isReserved s = true) : s ≠ [] := by
  rintro rfl
  contradiction

theorem escaped_ne_nil (h : s ≠ []) : escaped s ≠ [] := by
  unfold escaped
  split
  · simp
  · exact h

/-- A reserved stem is not reserved behind an underscore. -/
@[simp] theorem unreserved_escaped (s : List Char) :
    isReserved ((escaped s).takeWhile (· ≠ '.')) = false := by
  unfold escaped
  split
  · have hhead : ∀ r ∈ reserved, (r.map Char.toLower).head? ≠ some '_' := by decide
    rw [List.takeWhile_cons_of_pos (by decide), isReserved, List.any_eq_false]
    intro r hr
    simp only [decide_eq_true_eq]
    intro heq
    exact hhead r hr (by rw [heq]; rfl)
  · next hfree => simpa using hfree

theorem not_forbidden_of_mem_escaped {c : Char} (h : c ∈ escaped (spelled nfc input)) :
    isForbidden c = false := by
  unfold escaped at h
  split at h
  · rcases List.mem_cons.mp h with rfl | h
    · decide
    · exact not_forbidden_of_mem_spelled h
  · exact not_forbidden_of_mem_spelled h

theorem isTail_of_edge {c : Char} (h : isEdge c = false) : isTail c = false := by
  cases htail : isTail c with
  | false => rfl
  | true => rw [isEdge_of_isTail htail] at h; cases h

/-- A name that begins well is never cut to nothing. -/
theorem exists_cons_takeBytes {c : Char} :
    ∃ rest', takeBytes maxComponentBytes (c :: s) = c :: rest' := by
  unfold takeBytes
  have hsize : c.utf8Size ≤ 4 := Char.utf8Size_le_four c
  rw [if_pos (hsize.trans (by decide))]
  exact ⟨_, rfl⟩

/-- What the cut of a name that is too long leaves. -/
theorem cut_of_long (hhead : ∀ c ∈ s.head?, isEdge c = false)
    (hlong : maxComponentBytes < bytes s) :
    cut s = (takeBytes maxComponentBytes s).rdropWhile isTail ∧ cut s ≠ [] ∧
      CutAfter s (cut s) := by
  have hne : s ≠ [] := by
    rintro rfl
    exact absurd hlong (Nat.not_lt_zero _)
  obtain ⟨d, rest, rfl⟩ := List.exists_cons_of_ne_nil hne
  obtain ⟨rest', htake⟩ := @exists_cons_takeBytes rest d
  have hd : isTail d = false := isTail_of_edge (hhead d (by simp))
  have hcut : cut (d :: rest) = (takeBytes maxComponentBytes (d :: rest)).rdropWhile isTail := by
    rw [cut, if_pos hlong, trimMatches, htake, List.dropWhile_cons_of_neg (by simp [hd])]
  have hcutne : cut (d :: rest) ≠ [] := by
    rw [hcut, htake]
    intro hnil
    have hall := List.rdropWhile_eq_nil_iff.mp hnil d List.mem_cons_self
    rw [hd] at hall
    cases hall
  refine ⟨hcut, hcutne, ?_⟩
  obtain ⟨c, rest'', hs, hfits, hlarge⟩ := (takeBytes_eq_iff hlong).mp rfl
  set t := takeBytes maxComponentBytes (d :: rest)
  have hsplit : cut (d :: rest) ++ t.rtakeWhile isTail = t := by
    rw [hcut]
    exact List.rdropWhile_append_rtakeWhile
  refine ⟨t.rtakeWhile isTail, c, rest'', ?_, fun d hd => ?_, ?_, ?_⟩
  · rw [hsplit]
    exact hs
  · exact List.mem_rtakeWhile_imp hd
  · rw [hsplit]
    exact hfits
  · rw [hsplit]
    exact hlarge

/-- A name that is cut does not end with a dot or a blank. -/
theorem last_cut (hhead : ∀ c ∈ s.head?, isEdge c = false) (hlong : maxComponentBytes < bytes s) :
    ∀ c ∈ (cut s).getLast?, isTail c = false := by
  intro c hc
  obtain ⟨hcut, hne, -⟩ := cut_of_long hhead hlong
  rw [List.getLast?_eq_some_getLast hne, Option.mem_some_iff] at hc
  have hdrop : (takeBytes maxComponentBytes s).rdropWhile isTail ≠ [] := hcut ▸ hne
  have htail := List.rdropWhile_last_not isTail _ hdrop
  simpa only [← hcut, hc, Bool.not_eq_true] using htail

theorem long_of_cutAfter (h : CutAfter s front) : maxComponentBytes < bytes s := by
  obtain ⟨gap, c, rest, rfl, -, -, hlarge⟩ := h
  have hc : bytes [c] ≤ bytes (c :: rest) := by simp [bytes]
  rw [bytes_append] at hlarge ⊢
  omega

/-- The cut leaves `front` and no other text, but for what ends it. -/
theorem cut_of_cutAfter (hhead : ∀ c ∈ s.head?, isEdge c = false) (h : CutAfter s front) :
    cut s = front.rdropWhile isTail := by
  have hlong := long_of_cutAfter h
  obtain ⟨gap, c, rest, hs, hgap, hfits, hlarge⟩ := h
  have htake : takeBytes maxComponentBytes s = front ++ gap :=
    (takeBytes_eq_iff hlong).mpr ⟨c, rest, hs, hfits, hlarge⟩
  rw [(cut_of_long hhead hlong).1, htake, List.rdropWhile, List.reverse_append,
    List.dropWhile_append_of_pos fun d hd => hgap d (List.mem_reverse.mp hd)]
  rfl

theorem cut_eq_of_cutAfter (hhead : ∀ c ∈ s.head?, isEdge c = false) (h : CutAfter s front)
    (hlast : ∀ c ∈ front.getLast?, isTail c = false) : cut s = front := by
  rw [cut_of_cutAfter hhead h]
  refine List.rdropWhile_eq_self_iff.mpr fun hfront => ?_
  simp [hlast _ (List.getLast_mem_getLast? hfront)]

private theorem toLower_of_edge {c : Char} (h : isEdge c = true) : c.toLower = c := by
  refine toLower_eq_self fun ⟨hlow, hhigh⟩ => ?_
  simp only [isEdge, isWhitespace, Bool.or_eq_true, Bool.and_eq_true, decide_eq_true_eq] at h
  rcases h with (rfl | rfl) | h
  · contradiction
  · contradiction
  · omega

/-- Dots, dashes and blanks occur in no reserved name. -/
theorem not_edge_of_isReserved (h : isReserved s = true) : ∀ c ∈ s, isEdge c = false := by
  have hcheck : (reserved.all fun r => r.all fun c => !isEdge c.toLower) = true := by decide
  have hall : ∀ r ∈ reserved, ∀ c ∈ r.map Char.toLower, isEdge c = false := by
    simpa [List.all_eq_true] using hcheck
  intro c hc
  simp only [isReserved, List.any_eq_true, decide_eq_true_eq] at h
  obtain ⟨r, hr, heq⟩ := h
  have hlower : isEdge c.toLower = false := by
    refine hall r hr _ ?_
    rw [heq]
    exact List.mem_map.mpr ⟨c, hc, rfl⟩
  cases hedge : isEdge c with
  | false => rfl
  | true =>
    rw [toLower_of_edge hedge, hedge] at hlower
    cases hlower

theorem stem_of_isReserved (h : isReserved s = true) : s.takeWhile (· ≠ '.') = s := by
  rw [List.takeWhile_eq_self_iff]
  intro c hc
  have hedge := not_edge_of_isReserved h c hc
  simp only [ne_eq, decide_eq_true_eq]
  rintro rfl
  contradiction

/-- What is returned is the name as spelled, escaped and cut. -/
theorem sanitizeComponent_eq : sanitizeComponent nfc input =
    if spelled nfc input = [] then .error .empty
    else .ok (cut (escaped (spelled nfc input))) := by
  have hdot : ∀ rest, spelled nfc input ≠ '.' :: rest := by
    intro rest h
    have := @head_spelled nfc input '.' (by simp [h])
    contradiction
  unfold sanitizeComponent
  by_cases hnil : spelled nfc input = []
  · simp [hnil]
  · have hcut : maxComponentBytes < bytes (escaped (spelled nfc input)) →
        (cut (escaped (spelled nfc input))).isEmpty = false := by
      intro hlong
      have := (cut_of_long (head_escaped head_spelled) hlong).2.1
      simpa using this
    simp only [hnil, hdot, decide_false, Bool.or_self, Bool.false_eq_true, if_false]
    by_cases hlong : maxComponentBytes < bytes (escaped (spelled nfc input))
    · simp [hlong, hcut hlong]
    · simp [hlong]

theorem pathComponents_eq_normal (hslash : '/' ∉ s) (hne : s ≠ [])
    (hhead : ∀ c ∈ s.head?, isEdge c = false) : pathComponents s = [.normal s] := by
  obtain ⟨c, rest, rfl⟩ := List.exists_cons_of_ne_nil hne
  have hc : c ≠ '.' := by
    rintro rfl
    have := hhead '.' (by simp)
    contradiction
  have hcslash : c ≠ '/' := fun heq => hslash (heq ▸ List.mem_cons_self)
  simp [pathComponents, List.splitOn_eq_singleton hslash, hc, hcslash]

theorem safe_of_initial {r : List Char} (hstart : r <+: s) (hne : r ≠ [])
    (hhead : ∀ c ∈ s.head?, isEdge c = false) (hchars : ∀ c ∈ s, isForbidden c = false) :
    (∀ c ∈ r, isForbidden c = false) ∧ (∀ c ∈ r.head?, isEdge c = false) := by
  refine ⟨fun c hc => hchars c (hstart.subset hc), fun c hc => hhead c ?_⟩
  obtain ⟨t, rfl⟩ := hstart
  rwa [List.head?_append_of_ne_nil _ hne]

/-- A beginning with a dot in it has the stem of the whole. -/
theorem stem_of_initial {r : List Char} (hstart : r <+: s) (hdot : '.' ∈ r) :
    r.takeWhile (· ≠ '.') = s.takeWhile (· ≠ '.') := by
  obtain ⟨t, rfl⟩ := hstart
  rw [List.takeWhile_append, if_neg]
  intro hlength
  have hall := List.takeWhile_eq_self_iff.mp
    ((List.takeWhile_prefix _).eq_of_length hlength)
  simpa using hall '.' hdot

theorem slash_notMem (h : ∀ c ∈ s, isForbidden c = false) : '/' ∉ s := fun hmem => by
  have := h '/' hmem
  contradiction

end Spelled

section Safe
variable {nfc : List Char → List Char} {input s : List Char}

/-- A name that fits is safe as it is spelled. -/
theorem safe_of_fits (hhead : ∀ c ∈ s.head?, isEdge c = false)
    (hlast : ∀ c ∈ s.getLast?, isEdge c = false) (hchars : ∀ c ∈ s, isForbidden c = false)
    (hne : s ≠ []) (hstem : isReserved (s.takeWhile (· ≠ '.')) = false)
    (hfits : bytes s ≤ maxComponentBytes) : SafeComponent s where
  nonempty := hne
  fits := hfits
  chars := hchars
  head := hhead
  last := hlast
  unreserved := hstem
  single := pathComponents_eq_normal (slash_notMem hchars) hne hhead

/-- A name that is cut well is safe. -/
theorem safe_of_cut (hhead : ∀ c ∈ s.head?, isEdge c = false)
    (hchars : ∀ c ∈ s, isForbidden c = false)
    (hstem : isReserved (s.takeWhile (· ≠ '.')) = false) (hlong : maxComponentBytes < bytes s)
    (hcuts : CutsWell s) : SafeComponent (cut s) := by
  obtain ⟨hcut, hne, hafter⟩ := cut_of_long hhead hlong
  have htake : cut s <+: takeBytes maxComponentBytes s := hcut ▸ List.rdropWhile_prefix _ _
  have hstart := htake.trans (takeBytes_initial _ _)
  obtain ⟨hchars', hhead'⟩ := safe_of_initial hstart hne hhead hchars
  refine ⟨hne, ?_, hchars', hhead', ?_, ?_,
    pathComponents_eq_normal (slash_notMem hchars') hne hhead'⟩
  · obtain ⟨t, ht⟩ := htake
    have hfits := bytes_takeBytes_le maxComponentBytes s
    rw [← ht, bytes_append] at hfits
    omega
  · intro c hc
    cases hedge : isEdge c with
    | false => rfl
    | true =>
      have htail := last_cut hhead hlong c hc
      have hdash : c = '-' := by
        simp only [isEdge, isTail, Bool.or_eq_true, Bool.or_eq_false_iff, decide_eq_true_eq,
          decide_eq_false_iff_not] at hedge htail
        grind
      refine absurd hafter ?_
      rw [← List.dropLast_append_getLast? c hc, hdash]
      exact hcuts.dash _
  · by_cases hdot : '.' ∈ cut s
    · rw [stem_of_initial hstart hdot]
      exact hstem
    · have hself : (cut s).takeWhile (· ≠ '.') = cut s := by
        rw [List.takeWhile_eq_self_iff]
        intro c hc
        simp only [ne_eq, decide_eq_true_eq]
        rintro rfl
        exact hdot hc
      rw [hself]
      cases hreserved : isReserved (cut s) with
      | false => rfl
      | true => exact absurd hafter (hcuts.reserved _ hreserved)

theorem safe_of_cutsWell {r : List Char} (hcuts : CutsWell (escaped (spelled nfc input)))
    (h : sanitizeComponent nfc input = .ok r) : SafeComponent r := by
  have hhead := head_escaped (@head_spelled nfc input)
  have hchars : ∀ c ∈ escaped (spelled nfc input), isForbidden c = false :=
    fun c => not_forbidden_of_mem_escaped
  have hstem := unreserved_escaped (spelled nfc input)
  rw [sanitizeComponent_eq] at h
  split at h
  · cases h
  · next hnil =>
    obtain rfl := Except.ok.inj h
    by_cases hlong : maxComponentBytes < bytes (escaped (spelled nfc input))
    · exact safe_of_cut hhead hchars hstem hlong hcuts
    · rw [cut_of_fits hlong]
      exact safe_of_fits hhead (last_escaped last_spelled) hchars (escaped_ne_nil hnil) hstem
        (not_lt.mp hlong)

/-- Sanitizing returns a safe component exactly of the names that are cut well. -/
theorem sanitizeComponent_safe_iff (nfc : List Char → List Char) (input : List Char) :
    (∀ r, sanitizeComponent nfc input = .ok r → SafeComponent r) ↔
      CutsWell (escaped (spelled nfc input)) := by
  constructor
  · intro h
    have hhead := head_escaped (@head_spelled nfc input)
    have hok {front : List Char} (hfront : CutAfter (escaped (spelled nfc input)) front) :
        sanitizeComponent nfc input = .ok (cut (escaped (spelled nfc input))) := by
      rw [sanitizeComponent_eq, if_neg]
      intro hnil
      obtain ⟨gap, c, rest, heq, -⟩ := hfront
      have hempty : escaped [] = [] := by decide
      rw [hnil, hempty] at heq
      simp at heq
    constructor
    · intro front hfront
      have hcut := cut_eq_of_cutAfter hhead hfront (by simp; decide)
      have hdash := (h _ (hok hfront)).last '-' (by rw [hcut]; simp)
      contradiction
    · intro front hreserved hfront
      have hedge := not_edge_of_isReserved hreserved
      have hcut := cut_eq_of_cutAfter hhead hfront fun c hc =>
        isTail_of_edge (hedge c (List.mem_of_getLast? hc))
      have hfree := (h _ (hok hfront)).unreserved
      rw [hcut, stem_of_isReserved hreserved, hreserved] at hfree
      cases hfree
  · exact fun hcuts r => safe_of_cutsWell hcuts

/-- A dash in front of the cut stays. -/
theorem dash_survives_cut : ¬ ∀ nfc input r, sanitizeComponent nfc input = .ok r →
    SafeComponent r := by
  intro h
  have hsafe := h id (List.replicate 254 'a' ++ ['-', 'b']) (List.replicate 254 'a' ++ ['-'])
    (by decide +kernel)
  have hdash := hsafe.last '-' (by decide)
  contradiction

end Safe

section Again
variable {nfc : List Char → List Char} {input r s : List Char}

/-- What normalization form C is known for: a normalized text and any part of one stay as they
are, a blank and an underscore keep what is around them apart, plain ASCII is appended to a text
without changing it, and no character that a name must not have appears where there was none. -/
structure Normalizes (nfc : List Char → List Char) : Prop where
  again : ∀ s, nfc (nfc s) = nfc s
  part : ∀ s t, nfc s = s → t <:+: s → nfc t = t
  apart : ∀ c ∈ [' ', '_'], ∀ s t, nfc (s ++ c :: t) = nfc s ++ c :: nfc t
  ascii : AsciiAppends nfc
  safe : ∀ s, (∀ c ∈ s, isForbidden c = false) → ∀ c ∈ nfc s, isForbidden c = false

theorem cleaned_eq_self (h : ∀ c ∈ s, isForbidden c = false) : cleaned s = s := by
  have hkept : s.filterMap replacement = s.filterMap some :=
    List.filterMap_congr fun c hc => by
      have := h c hc
      simp only [isForbidden, Bool.or_eq_false_iff, decide_eq_false_iff_not] at this
      obtain ⟨⟨⟨⟨⟨hslash, hback⟩, hquote⟩, hreserved⟩, hcontrol⟩, hbidi⟩ := this
      simp [replacement, hslash, hback, hquote, hreserved, hcontrol, hbidi]
  rw [cleaned, hkept, List.filterMap_some]

private theorem blank_of_isWhitespace {c : Char} (h : isEdge c = false) :
    isWhitespace c = false := by
  simp only [isEdge, Bool.or_eq_false_iff] at h
  exact h.2

/-- A spelled name has single blanks between its words. -/
theorem joined_spelled : Joined isWhitespace (spelled nfc input) := by
  have hjoined := joined_words isWhitespace (cleaned (nfc input))
  set t := [' '].intercalate (words isWhitespace (cleaned (nfc input)))
  have hdrop : Joined isWhitespace (t.dropWhile isEdge) := by
    refine Joined.of_suffix (q := t.takeWhile isEdge) (by decide) ?_ fun c hc => ?_
    · rw [List.takeWhile_append_dropWhile]
      exact hjoined
    · have hhead := List.head?_dropWhile_not isEdge t
      rw [Option.mem_def.mp hc] at hhead
      exact blank_of_isWhitespace hhead
  have hstart : spelled nfc input ++ (t.dropWhile isEdge).rtakeWhile isEdge =
      t.dropWhile isEdge := List.rdropWhile_append_rtakeWhile
  rw [← hstart] at hdrop
  exact hdrop.of_initial (by decide) fun c hc => blank_of_isWhitespace (last_spelled c hc)

theorem joined_escaped (hs : Joined isWhitespace s) : Joined isWhitespace (escaped s) := by
  unfold escaped
  split
  · next hreserved =>
    obtain ⟨ws, hws, rfl⟩ := hs
    cases ws with
    | nil => exact .singleton (by simp; decide)
    | cons w ws =>
      refine ⟨('_' :: w) :: ws, fun v hv => ?_, by cases ws <;> simp⟩
      rcases List.mem_cons.mp hv with rfl | hv
      · refine ⟨fun c hc => ?_, by simp⟩
        rcases List.mem_cons.mp hc with rfl | hc
        · decide
        · exact (hws w List.mem_cons_self).1 c hc
      · exact hws v (List.mem_cons_of_mem _ hv)
  · exact hs

/-- What is left after the cut begins the name and does not end with a blank. -/
theorem cut_initial (hhead : ∀ c ∈ s.head?, isEdge c = false)
    (hlast : ∀ c ∈ s.getLast?, isEdge c = false) :
    cut s <+: s ∧ ∀ c ∈ (cut s).getLast?, isTail c = false := by
  by_cases hlong : maxComponentBytes < bytes s
  · refine ⟨?_, last_cut hhead hlong⟩
    rw [(cut_of_long hhead hlong).1]
    exact (List.rdropWhile_prefix _ _).trans (takeBytes_initial _ _)
  · rw [cut_of_fits hlong]
    exact ⟨List.prefix_rfl, fun c hc => isTail_of_edge (hlast c hc)⟩

theorem joined_cut (hhead : ∀ c ∈ s.head?, isEdge c = false)
    (hlast : ∀ c ∈ s.getLast?, isEdge c = false) (hs : Joined isWhitespace s) :
    Joined isWhitespace (cut s) := by
  obtain ⟨⟨t, ht⟩, htail⟩ := cut_initial hhead hlast
  rw [← ht] at hs
  refine hs.of_initial (by decide) fun c hc => ?_
  have := htail c hc
  simp only [isTail, Bool.or_eq_false_iff] at this
  exact this.2

/-- A normalized name without forbidden characters and with single blanks is only trimmed. -/
theorem spelled_of_normal (hnormal : nfc r = r) (hchars : ∀ c ∈ r, isForbidden c = false)
    (hjoined : Joined isWhitespace r) : spelled nfc r = trimMatches isEdge r := by
  rw [spelled, hnormal, cleaned_eq_self hchars, collapsed, hjoined.intercalate_words (by decide)]

theorem joined_of_sanitize (h : sanitizeComponent nfc input = .ok r) : Joined isWhitespace r := by
  rw [eq_cut_of_sanitize h]
  exact joined_cut (head_escaped head_spelled) (last_escaped last_spelled)
    (joined_escaped joined_spelled)

/-- A safe name in normal form is sanitized to itself. -/
theorem sanitize_of_safe (hsafe : SafeComponent r) (hjoined : Joined isWhitespace r)
    (hnormal : nfc r = r) : sanitizeComponent nfc r = .ok r := by
  have hspelled : spelled nfc r = r := by
    rw [spelled_of_normal hnormal hsafe.chars hjoined, trimMatches_eq_self hsafe.head hsafe.last]
  have hescaped : escaped r = r := by
    unfold escaped
    rw [hsafe.unreserved]
    rfl
  rw [sanitizeComponent_eq, hspelled, if_neg hsafe.nonempty, hescaped,
    cut_of_fits (not_lt.mpr hsafe.fits)]

namespace Normalizes
variable (hnfc : Normalizes nfc)
include hnfc

theorem nil : nfc [] = [] := hnfc.part _ _ (hnfc.again []) List.nil_infix

theorem intercalate {ws : List (List Char)} (hws : ∀ w ∈ ws, nfc w = w) :
    nfc ([' '].intercalate ws) = [' '].intercalate ws := by
  induction ws with
  | nil => exact hnfc.nil
  | cons w ws ih =>
    have hw := hws w List.mem_cons_self
    have hrest := ih fun w hw => hws w (List.mem_cons_of_mem _ hw)
    cases ws with
    | nil => rw [List.intercalate_singleton, hw]
    | cons w' ws =>
      rw [List.intercalate_cons_cons, List.append_assoc, List.singleton_append,
        hnfc.apart ' ' (by simp), hw, hrest]

theorem escaped {s : List Char} (hs : nfc s = s) : nfc (escaped s) = escaped s := by
  unfold Packaging.escaped
  split
  · have := hnfc.apart '_' (by simp) [] s
    rwa [List.nil_append, hnfc.nil, hs] at this
  · exact hs

/-- What a name without forbidden characters is sanitized to is in normal form. -/
theorem sanitize (hchars : ∀ c ∈ s, isForbidden c = false)
    (h : sanitizeComponent nfc s = .ok r) : nfc r = r := by
  have hcleaned : cleaned (nfc s) = nfc s := cleaned_eq_self (hnfc.safe s hchars)
  have hcollapsed : nfc (collapsed (cleaned (nfc s))) = collapsed (cleaned (nfc s)) := by
    rw [hcleaned]
    exact hnfc.intercalate fun w hw => hnfc.part _ _ (hnfc.again s)
      (infix_of_mem_splitOnP (List.mem_of_mem_filter hw))
  have hspelled : nfc (spelled nfc s) = spelled nfc s :=
    hnfc.part _ _ hcollapsed ((List.rdropWhile_prefix _ _).isInfix.trans
      (List.dropWhile_suffix _).isInfix)
  rw [eq_cut_of_sanitize h]
  exact hnfc.part _ _ (hnfc.escaped hspelled)
    (cut_initial (head_escaped head_spelled) (last_escaped last_spelled)).1.isInfix

end Normalizes

/-- Every beginning of the name that fits is in normal form. -/
def NormalStart (nfc : List Char → List Char) (s : List Char) : Prop :=
  ∀ front, front <+: s → bytes front ≤ maxComponentBytes → nfc front = front

private theorem ascii_of_tail {c : Char} (hs : Joined isWhitespace s) (hc : c ∈ s)
    (h : isTail c = true) :
    c.toNat < 128 := by
  simp only [isTail, Bool.or_eq_true, decide_eq_true_eq] at h
  rcases h with rfl | hblank
  · decide
  · obtain rfl := hs.eq_of_blank hc hblank
    decide

/-- If what is left of the name is in normal form, every beginning of it that fits is. -/
theorem normalStart_of_cut (hnfc : Normalizes nfc) (hhead : ∀ c ∈ s.head?, isEdge c = false)
    (hs : Joined isWhitespace s) (hcut : nfc (cut s) = cut s) : NormalStart nfc s := by
  intro front hfront hfits
  by_cases hlong : maxComponentBytes < bytes s
  · have htake : nfc (takeBytes maxComponentBytes s) = takeBytes maxComponentBytes s := by
      have hsplit : cut s ++ (takeBytes maxComponentBytes s).rtakeWhile isTail =
          takeBytes maxComponentBytes s := by
        rw [(cut_of_long hhead hlong).1]
        exact List.rdropWhile_append_rtakeWhile
      have happend := hnfc.ascii (cut s) ((takeBytes maxComponentBytes s).rtakeWhile isTail)
        fun c hc => ascii_of_tail hs
          ((takeBytes_initial _ _).subset ((List.rtakeWhile_suffix _ _).subset hc))
          (List.mem_rtakeWhile_imp hc)
      rwa [hsplit, hcut, hsplit] at happend
    exact hnfc.part _ _ htake (prefix_takeBytes hfront hfits).isInfix
  · rw [cut_of_fits hlong] at hcut
    exact hnfc.part _ _ hcut hfront.isInfix

/-- The dash at the end of a name is trimmed by the next pass. -/
theorem sanitize_dash_ne {front : List Char} (hnormal : nfc (front ++ ['-']) = front ++ ['-'])
    (hchars : ∀ c ∈ front ++ ['-'], isForbidden c = false)
    (hjoined : Joined isWhitespace (front ++ ['-']))
    (hfits : bytes (front ++ ['-']) ≤ maxComponentBytes) :
    sanitizeComponent nfc (front ++ ['-']) ≠ .ok (front ++ ['-']) := by
  intro h
  have hspelled := spelled_of_normal hnormal hchars hjoined
  have hsmall : bytes (trimMatches isEdge (front ++ ['-'])) ≤ bytes front := by
    have htrim : trimMatches isEdge (front ++ ['-']) <:+: front := by
      rw [trimMatches, List.dropWhile_append]
      split
      · have hdash : ['-'].dropWhile isEdge = [] := by decide
        rw [hdash]
        exact List.nil_infix
      · rw [List.rdropWhile_concat_pos _ _ _ (by decide)]
        exact (List.rdropWhile_prefix _ _).isInfix.trans (List.dropWhile_suffix _).isInfix
    obtain ⟨a, b, hab⟩ := htrim
    have hbytes := congrArg bytes hab
    rw [bytes_append, bytes_append] at hbytes
    omega
  have hescaped : bytes (escaped (spelled nfc (front ++ ['-']))) ≤ maxComponentBytes := by
    have hone : bytes ['-'] = 1 := by decide
    have hline : bytes ['_'] = 1 := by decide
    rw [bytes_append, hone] at hfits
    rw [hspelled]
    unfold escaped
    split
    · have := bytes_append ['_'] (trimMatches isEdge (front ++ ['-']))
      rw [List.singleton_append, hline] at this
      omega
    · omega
  have heq := eq_cut_of_sanitize h
  rw [cut_of_fits (not_lt.mpr hescaped)] at heq
  have hlast := last_escaped (@last_spelled nfc (front ++ ['-'])) '-' (by rw [← heq]; simp)
  contradiction

/-- A reserved name gets an underscore by the next pass. -/
theorem sanitize_reserved_ne (hreserved : isReserved r = true) (hnormal : nfc r = r)
    (hchars : ∀ c ∈ r, isForbidden c = false) (hjoined : Joined isWhitespace r) :
    sanitizeComponent nfc r ≠ .ok r := by
  intro h
  have hedge := not_edge_of_isReserved hreserved
  have hspelled : spelled nfc r = r := by
    rw [spelled_of_normal hnormal hchars hjoined]
    exact trimMatches_of_none hedge
  have hescaped : escaped r = '_' :: r := by
    unfold escaped
    rw [stem_of_isReserved hreserved, if_pos hreserved]
  have heq := eq_cut_of_sanitize h
  rw [hspelled, hescaped] at heq
  have hhead : ∀ c ∈ ('_' :: r).head?, isEdge c = false := by simp; decide
  have hlast : ∀ c ∈ ('_' :: r).getLast?, isEdge c = false := by
    rw [← hescaped]
    exact last_escaped fun c hc => hedge c (List.mem_of_getLast? hc)
  obtain ⟨t, ht⟩ := (cut_initial hhead hlast).1
  rw [← heq] at ht
  have hunder : '_' ∈ r.head? := by
    have := congrArg List.head? ht
    rw [List.head?_append_of_ne_nil _ (ne_nil_of_isReserved hreserved)] at this
    exact this
  have hnone : ∀ r ∈ reserved, (r.map Char.toLower).head? ≠ some '_' := by decide
  simp only [isReserved, List.any_eq_true, decide_eq_true_eq] at hreserved
  obtain ⟨q, hq, hlower⟩ := hreserved
  refine hnone q hq ?_
  rw [hlower, List.head?_map, Option.mem_def.mp hunder]
  rfl

/-- Sanitizing again changes nothing exactly where the name is cut well and removing characters
has left it in normal form. -/
theorem sanitize_idempotent_iff (nfc : List Char → List Char) (hnfc : Normalizes nfc)
    (input : List Char) :
    (∀ r, sanitizeComponent nfc input = .ok r → sanitizeComponent nfc r = .ok r) ↔
      CutsWell (escaped (spelled nfc input)) ∧
        NormalStart nfc (escaped (spelled nfc input)) := by
  set s := escaped (spelled nfc input) with hs
  have hhead : ∀ c ∈ s.head?, isEdge c = false := head_escaped head_spelled
  have hlast : ∀ c ∈ s.getLast?, isEdge c = false := last_escaped last_spelled
  have hjoined : Joined isWhitespace s := joined_escaped joined_spelled
  constructor
  · intro h
    by_cases hnil : spelled nfc input = []
    · have hempty : s = [] := by
        rw [hs, hnil]
        decide
      rw [hempty]
      have hshort : ∀ front, ¬ CutAfter [] front := by
        rintro front ⟨gap, c, rest, heq, -⟩
        simp at heq
      refine ⟨⟨fun _ => hshort _, fun _ _ => hshort _⟩, fun front hfront _ => ?_⟩
      rw [List.prefix_nil.mp hfront, hnfc.nil]
    have hok : sanitizeComponent nfc input = .ok (cut s) := by
      rw [sanitizeComponent_eq, if_neg hnil]
    have hchars : ∀ c ∈ cut s, isForbidden c = false := fun c hc =>
      not_forbidden_of_mem_escaped ((cut_initial hhead hlast).1.subset hc)
    have hagain := h _ hok
    have hnormal := hnfc.sanitize hchars hagain
    have hblanks := joined_cut hhead hlast hjoined
    refine ⟨⟨fun front hfront => ?_, fun front hreserved hfront => ?_⟩,
      normalStart_of_cut hnfc hhead hjoined hnormal⟩
    · have hcut := cut_eq_of_cutAfter hhead hfront (by simp; decide)
      obtain ⟨gap, c, rest, -, -, hfits, -⟩ := hfront
      rw [bytes_append] at hfits
      rw [hcut] at hagain hnormal hchars hblanks
      exact sanitize_dash_ne hnormal hchars hblanks (by omega) hagain
    · have hedge := not_edge_of_isReserved hreserved
      have hcut := cut_eq_of_cutAfter hhead hfront fun c hc =>
        isTail_of_edge (hedge c (List.mem_of_getLast? hc))
      rw [hcut] at hagain hnormal hchars hblanks
      exact sanitize_reserved_ne hreserved hnormal hchars hblanks hagain
  · rintro ⟨hcuts, hstart⟩ r hr
    have hsafe := safe_of_cutsWell hcuts hr
    refine sanitize_of_safe hsafe (joined_of_sanitize hr) (hstart r ?_ hsafe.fits)
    rw [eq_cut_of_sanitize hr]
    exact (cut_initial hhead hlast).1

theorem id_normalizes : Normalizes id where
  again _ := rfl
  part _ _ _ _ := rfl
  apart _ _ _ _ := rfl
  ascii _ _ _ := rfl
  safe _ h := h

/-- A name that is cut behind a dash. -/
def dashed : List Char := List.replicate 254 'a' ++ ['-', 'b']

/-- The dash that stays at the end is gone after the next pass. -/
theorem dashed_changes :
    ¬ ∀ r, sanitizeComponent id dashed = .ok r → sanitizeComponent id r = .ok r := by
  intro h
  have hagain := h (List.replicate 254 'a' ++ ['-']) (by decide +kernel)
  revert hagain
  decide +kernel

/-- A short name is cut well, and the one with the dash is not. -/
theorem dashed_cut_badly :
    (CutsWell (escaped (spelled id "A: B?".toList)) ∧
      NormalStart id (escaped (spelled id "A: B?".toList))) ∧
    ¬ (CutsWell (escaped (spelled id dashed)) ∧ NormalStart id (escaped (spelled id dashed))) := by
  refine ⟨(sanitize_idempotent_iff id id_normalizes _).mp fun r hr => ?_,
    fun hcut => dashed_changes ((sanitize_idempotent_iff id id_normalizes _).mpr hcut)⟩
  have hname : sanitizeComponent id "A: B?".toList = .ok "A- B".toList := by decide
  obtain rfl := Except.ok.inj (hname.symm.trans hr)
  decide

theorem not_idempotent : ¬ ∀ nfc, Normalizes nfc → ∀ input r,
    sanitizeComponent nfc input = .ok r → sanitizeComponent nfc r = .ok r := fun h =>
  dashed_changes (h id id_normalizes dashed)

end Again

end Packaging
end Nyuka
