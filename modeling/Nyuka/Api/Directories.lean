import Nyuka.Api.Config
import Nyuka.Foundation.FileTree

/-! The library and the server's own directory, which must not lie in one another. The check
compares how the two paths are spelled, and the paths lead where their dots lead. -/
namespace Nyuka
namespace Configuration
open Api (trim)
open FileTree (Segment)

section Components

def segmentOf (part : List Char) : Segment (List Char) :=
  if part = [] ∨ part = ['.'] then .here
  else if part = ['.', '.'] then .up
  else .name part

/-- One component further, the links of the volume left aside. -/
def advance (dir : List (List Char)) : Segment (List Char) → List (List Char)
  | .here => dir
  | .up => dir.dropLast
  | .name n => dir ++ [n]

def isAbsolute (path : List Char) : Bool := path.head? = some '/'

/-- The components from the top down, once a path's dots are resolved in a working directory. -/
def resolved (cwd : List (List Char)) (path : List Char) : List (List Char) :=
  ((path.splitOn '/').map segmentOf).foldl advance (if isAbsolute path then [] else cwd)

/-- One directory is the other, or one of them contains the other. -/
def Nested (a b : List (List Char)) : Prop := a <+: b ∨ b <+: a

/-- The text of a path as the check compares it, without a separator at its end. -/
def stem (path : List Char) : List Char := (trim path).rdropWhile (· = '/')

/-- The components of a path as they are spelled, dots and empty ones among them. -/
def written (path : List Char) : List (List Char) := (stem path).splitOn '/'

/-- A path without blanks around it is spelled plainly if its components are names. -/
structure Plain (path : List Char) : Prop where
  trimmed : trim path = path
  names : ∀ part ∈ if isAbsolute path then (written path).tail else written path,
    segmentOf part = .name part

end Components

section Spelling

theorem intercalate_append {α : Type*} {sep : List α} {xs ys : List (List α)} (hxs : xs ≠ [])
    (hys : ys ≠ []) :
    sep.intercalate (xs ++ ys) = sep.intercalate xs ++ (sep ++ sep.intercalate ys) := by
  induction xs with
  | nil => exact absurd rfl hxs
  | cons x xs ih =>
    rcases xs with _ | ⟨x', xs⟩
    · rw [List.singleton_append, List.intercalate_cons_of_ne_nil hys, List.intercalate_singleton,
        List.append_assoc]
    · rw [List.cons_append, List.cons_append, List.intercalate_cons_cons, ← List.cons_append,
        ih (List.cons_ne_nil _ _), List.intercalate_cons_cons, List.append_assoc, List.append_assoc,
        List.append_assoc]

/-- Texts are nested with a separator behind each of them if their components are. -/
theorem prefix_sep_iff {c : Char} {s t : List Char} :
    s ++ [c] <+: t ++ [c] ↔ s.splitOn c <+: t.splitOn c := by
  constructor
  · rintro ⟨u, hu⟩
    rcases List.eq_nil_or_concat' u with rfl | ⟨u, d, rfl⟩
    · rw [List.append_nil, List.append_cancel_right_eq] at hu
      rw [hu]
    · have htext : t = s ++ c :: u := by
        rw [← List.append_assoc, List.append_assoc s] at hu
        exact (List.append_inj' hu rfl).1.symm
      rw [htext, List.splitOn_append_cons_self]
      exact List.prefix_append _ _
  · rintro ⟨rest, hrest⟩
    have htext : t = [c].intercalate (s.splitOn c ++ rest) := by
      rw [hrest, List.intercalate_splitOn]
    rcases eq_or_ne rest [] with rfl | hne
    · rw [htext, List.append_nil, List.intercalate_splitOn]
    · rw [htext, intercalate_append (List.splitOn_ne_nil c s) hne, List.intercalate_splitOn,
        List.append_assoc, List.append_assoc]
      exact (List.prefix_append_right_inj s).mpr ⟨_, rfl⟩

theorem pathsOverlap_iff (a b : String) :
    pathsOverlap a b = true ↔ Nested (written a.toList) (written b.toList) := by
  simp only [pathsOverlap, normaliseDir, Bool.or_eq_true, beq_iff_eq, List.isPrefixOf_iff_prefix,
    Nested, written, ← prefix_sep_iff, stem]
  constructor
  · rintro ((h | h) | h)
    · rw [h]
      exact .inl (List.prefix_refl _)
    · exact .inr h
    · exact .inl h
  · rintro (h | h)
    · exact .inr h
    · exact .inl (.inr h)

end Spelling

section Resolution
variable {cwd a b : List (List Char)} {path : List Char}

theorem foldl_advance_names {parts : List (List Char)}
    (h : ∀ part ∈ parts, segmentOf part = .name part) (dir : List (List Char)) :
    (parts.map segmentOf).foldl advance dir = dir ++ parts := by
  induction parts generalizing dir with
  | nil => rw [List.map_nil, List.foldl_nil, List.append_nil]
  | cons part parts ih =>
    rw [List.map_cons, List.foldl_cons, h part List.mem_cons_self, advance,
      ih fun part hpart => h part (List.mem_cons_of_mem _ hpart), List.append_assoc,
      List.singleton_append]

/-- A separator at the end leads nowhere else. -/
theorem foldl_advance_rdropWhile (dir : List (List Char)) :
    ((path.splitOn '/').map segmentOf).foldl advance dir =
      (((path.rdropWhile (· = '/')).splitOn '/').map segmentOf).foldl advance dir := by
  induction path using List.reverseRecOn with
  | nil => rfl
  | append_singleton path c ih =>
    rw [List.rdropWhile_concat]
    split
    · next hc =>
      obtain rfl : c = '/' := of_decide_eq_true hc
      rw [← ih, List.splitOn_append_cons_self, List.map_append, List.foldl_append]
      rfl
    · rfl

theorem resolved_eq_written (htrim : trim path = path) : resolved cwd path =
    ((written path).map segmentOf).foldl advance (if isAbsolute path then [] else cwd) := by
  rw [resolved, foldl_advance_rdropWhile, written, stem, htrim]

/-- An absolute path is spelled with nothing in front of its first separator. -/
theorem written_of_absolute (htrim : trim path = path) (habs : isAbsolute path = true) :
    written path = [] :: (written path).tail := by
  have hprefix : stem path <+: path := by
    rw [stem, htrim]
    exact List.rdropWhile_prefix _ path
  rw [isAbsolute, decide_eq_true_eq] at habs
  rw [written]
  cases hstem : stem path with
  | nil => rfl
  | cons c rest =>
    obtain ⟨text, rfl⟩ := hstem ▸ hprefix
    obtain rfl : c = '/' := Option.some.inj habs
    rw [← List.nil_append ('/' :: rest), List.splitOn_append_cons_self]
    rfl

/-- A plain path leads to what it spells. -/
theorem resolved_of_plain (h : Plain path) : resolved cwd path =
    if isAbsolute path then (written path).tail else cwd ++ written path := by
  have hnames := h.names
  rw [resolved_eq_written h.trimmed]
  cases habs : isAbsolute path with
  | true =>
    rw [habs] at hnames
    rw [written_of_absolute h.trimmed habs, List.map_cons, List.foldl_cons]
    exact foldl_advance_names hnames []
  | false =>
    rw [habs] at hnames
    exact foldl_advance_names hnames cwd

/-- Plain paths of one kind are spelled nested just where they lead to nested directories. -/
theorem nested_of_plain {a b : List Char} (ha : Plain a) (hb : Plain b)
    (hkind : isAbsolute a = isAbsolute b) :
    Nested (written a) (written b) ↔ Nested (resolved cwd a) (resolved cwd b) := by
  rw [resolved_of_plain ha, resolved_of_plain hb, ← hkind]
  cases habs : isAbsolute a with
  | true =>
    have hwritten := written_of_absolute ha.trimmed habs
    have hwritten' := written_of_absolute hb.trimmed (hkind ▸ habs)
    rw [hwritten, hwritten']
    simp only [Nested, List.prefix_cons_inj, List.tail_cons, ↓reduceIte]
  | false =>
    simp only [Nested, List.prefix_append_right_inj, Bool.false_eq_true, ↓reduceIte]

end Resolution

section Verdict
variable {library data : String}

/-- What is accepted is spelled apart. -/
theorem spelled_apart {env : Surroundings} {raw : RawConfig} {config : Config}
    (h : validate env raw = some (.ok config)) :
    (config.libraryRoot = raw.libraryRoot ∧ config.dataDir = raw.dataDir) ∧
      blank raw.libraryRoot = false ∧ blank raw.dataDir = false ∧
      ¬ Nested (written raw.libraryRoot.toList) (written raw.dataDir.toList) := by
  obtain ⟨retention, bindAddr, -, hnone, rfl⟩ := of_validate_ok h
  have hdirectories : directoryProblems raw = [] := by
    simp only [problems, List.append_eq_nil_iff] at hnone
    exact hnone.1.1.1.1.1.2
  simp only [directoryProblems, List.append_eq_nil_iff, complain_eq_nil] at hdirectories
  obtain ⟨⟨hlibrary, hdata⟩, hoverlap⟩ := hdirectories
  rw [hlibrary, hdata] at hoverlap
  refine ⟨⟨rfl, rfl⟩, hlibrary, hdata, fun hnested => ?_⟩
  rw [(pathsOverlap_iff _ _).mpr hnested] at hoverlap
  cases hoverlap

/-- Any two paths that are spelled apart are accepted, if nothing else is wrong. -/
theorem accepted_of_spelled_apart (hlibrary : blank library = false) (hdata : blank data = false)
    (hapart : ¬ Nested (written library.toList) (written data.toList)) :
    ∃ config, validate outside { barebones with libraryRoot := library, dataDir := data } =
      some (.ok config) := by
  have hrest : problems outside barebones (30 * 86400 * Periods.nanosPerSec) = [] := by
    decide
  have hdirectories :
      directoryProblems { barebones with libraryRoot := library, dataDir := data } = [] := by
    rw [← pathsOverlap_iff, Bool.not_eq_true] at hapart
    simp only [directoryProblems, List.append_eq_nil_iff, complain_eq_nil, hlibrary, hdata, hapart,
      Bool.and_false, and_self]
  have hnone : problems outside { barebones with libraryRoot := library, dataDir := data }
      (30 * 86400 * Periods.nanosPerSec) = [] := by
    simp only [problems, List.append_eq_nil_iff] at hrest ⊢
    obtain ⟨⟨⟨⟨⟨⟨⟨hdatabase, hbind⟩, -⟩, hmode⟩, hauth⟩, hnumbers⟩, hretention⟩, hproxies⟩ := hrest
    exact ⟨⟨⟨⟨⟨⟨⟨hdatabase, hbind⟩, hdirectories⟩, hmode⟩, hauth⟩, hnumbers⟩, hretention⟩, hproxies⟩
  have hdays : chronoDays (max barebones.jobRetentionDays.toInt 0) =
      some (30 * 86400 * Periods.nanosPerSec) := by decide
  obtain ⟨bindAddr, haccepted⟩ := @validate_of_no_problems outside
    { barebones with libraryRoot := library, dataDir := data } _ hdays hnone
  exact ⟨_, haccepted⟩

/-- The accepted directories are kept apart where the paths are spelled nested if they lead to
nested directories. Of plain paths the check is the test for nested directories. -/
theorem directories_apart_iff (cwd : List (List Char)) (library data : String) :
    ((∀ env raw config, raw.libraryRoot = library → raw.dataDir = data →
        validate env raw = some (.ok config) →
        ¬ Nested (resolved cwd config.libraryRoot.toList) (resolved cwd config.dataDir.toList)) ↔
      (blank library = false → blank data = false →
        Nested (resolved cwd library.toList) (resolved cwd data.toList) →
        Nested (written library.toList) (written data.toList))) ∧
    (Plain library.toList → Plain data.toList →
      isAbsolute library.toList = isAbsolute data.toList →
      (pathsOverlap library data = true ↔
        Nested (resolved cwd library.toList) (resolved cwd data.toList))) := by
  refine ⟨⟨fun h hlibrary hdata hnested => ?_, fun h env raw config => ?_⟩, fun ha hb hkind => ?_⟩
  · by_contra hapart
    obtain ⟨config, haccepted⟩ := accepted_of_spelled_apart hlibrary hdata hapart
    obtain ⟨⟨hlibraryRoot, hdataDir⟩, -⟩ := spelled_apart haccepted
    have hresolved := h _ _ _ rfl rfl haccepted
    rw [hlibraryRoot, hdataDir] at hresolved
    exact hresolved hnested
  · rintro rfl rfl haccepted hnested
    obtain ⟨⟨hlibraryRoot, hdataDir⟩, hlibrary, hdata, hapart⟩ := spelled_apart haccepted
    rw [hlibraryRoot, hdataDir] at hnested
    exact hapart (h hlibrary hdata hnested)
  · rw [pathsOverlap_iff, nested_of_plain ha hb hkind]

/-- Plain paths side by side are told from plain paths in one another. -/
theorem side_by_side : pathsOverlap "/srv/library" "/srv/lib/" = false := by
  rw [Bool.eq_false_iff, ne_eq,
    (directories_apart_iff [] _ _).2 ⟨by decide, by decide⟩
      ⟨by decide, by decide⟩ (by decide)]
  unfold Nested
  decide

/-- A dot in its path hides that the server's directory is in the library. -/
theorem dot_hides : ¬ ∀ cwd env raw config, validate env raw = some (.ok config) →
    ¬ Nested (resolved cwd config.libraryRoot.toList) (resolved cwd config.dataDir.toList) := by
  intro h
  obtain ⟨config, haccepted⟩ := @accepted_of_spelled_apart "/srv/library" "/srv/./library/state"
    (by decide) (by decide) (by unfold Nested; decide)
  have hpaths := (spelled_apart haccepted).1
  refine h [] _ _ _ haccepted ?_
  rw [hpaths.1, hpaths.2]
  unfold Nested
  decide

end Verdict

end Configuration
end Nyuka
