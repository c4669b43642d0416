import Nyuka.Foundation.FileTree
import Nyuka.Packaging.Paths

/-! Resolving a path against the library root, on a volume that holds symbolic links. The check
looks at where the deepest ancestor there is leads to. A path can still leave the root in two
ways: it ends in a link to something that is not there yet, or it leaves the root through one
link and comes back through another, at its end. -/
namespace Nyuka
namespace Packaging
open FileTree

/-- A path as the system takes it. -/
abbrev Parts := List (Segment String)

/-- How many links the system follows in one path. -/
def maxLinks : ℕ := 40

/-- Where a path leads with all its links followed, from the top of the tree. -/
def followed (t : Volume String) (path : Parts) : Outcome String := resolve t true maxLinks [] path

/-- Where a path leads when the link it may end in is left as it is. -/
def unfollowed (t : Volume String) (path : Parts) : Outcome String :=
  resolve t false maxLinks [] path

def canonicalize (t : Volume String) (path : Parts) : Option (List String) :=
  match followed t path with
  | .found loc => some loc
  | _ => none

/-- A path without the dots and slashes at its end. -/
def trimmed (path : Parts) : Parts := path.rdropWhile fun part => decide (part = .here)

/-- `Path::parent` -/
def parentPath (path : Parts) : Option Parts :=
  if trimmed path = [] then none else some (trimmed (trimmed path).dropLast)

/-- The real location of the deepest ancestor of a path that exists. -/
def existing (t : Volume String) : ℕ → Parts → Option (List String)
  | 0, _ => none
  | fuel + 1, probe =>
    match canonicalize t probe with
    | some resolved => some resolved
    | none => (parentPath probe).bind (existing t fuel)

/-- `Path::join`, which leaves a slash at the end when there is nothing to add. -/
def join (root : List String) (relative : Parts) : Parts :=
  root.map .name ++ if relative = [] then [.here] else relative

/-- Whether a relative path goes down only. -/
def plain (relative : FileTree.Path String) : Bool :=
  !relative.absolute && relative.parts.all fun part => decide (part ≠ .up)

/-- Resolves a path against the library root and verifies it stays inside. -/
def resolveWithin (t : Volume String) (root : Parts) (relative : FileTree.Path String)
    (detail : String) : Except PathError Parts :=
  if !plain relative then .error .escapes else
    match canonicalize t root with
    | none => .error (.unresolvable detail)
    | some root =>
      let joined := join root relative.parts
      match existing t (joined.length + 1) joined with
      | none => .error .escapes
      | some resolved => if root.isPrefixOf resolved then .ok joined else .error .escapes

/-- What is done with a path that was resolved. -/
inductive Access where
  | opened | created | renamed | deleted
deriving DecidableEq, Repr

/-- Whether a path ends with a name: only then can there be renamed onto it or deleted. -/
def endsInName (path : Parts) : Bool := path.getLast?.any fun part =>
  decide (part ≠ .here) && decide (part ≠ .up)

/-- The real location of what an access to a path touches, if it touches anything. -/
def touched (t : Volume String) : Access → Parts → Option (List String)
  | .opened, path => canonicalize t path
  | .created, path => (followed t path).location
  | .renamed, path => if endsInName path then (unfollowed t path).location else none
  | .deleted, path =>
    match unfollowed t path with
    | .found loc => if endsInName path then some loc else none
    | _ => none

/-- No access to a path the check lets pass touches anything outside the root. -/
def Contained (t : Volume String) (root : Parts) (relative : FileTree.Path String) : Prop :=
  ∀ detail path, resolveWithin t root relative detail = .ok path →
    ∀ real, canonicalize t root = some real →
      ∀ access loc, touched t access path = some loc → real <+: loc

/-- A path leaves the root and comes back at its end: the entry it names is outside and what
that leads to is inside. -/
def Returns (t : Volume String) (real : List String) (path : Parts) : Prop :=
  ∃ target loc, canonicalize t path = some target ∧ real <+: target ∧ endsInName path = true ∧
    unfollowed t path = .found loc ∧ ¬ real <+: loc

/-- A path ends in a link inside the root, to something that is not there and would be outside. -/
def Dangles (t : Volume String) (real : List String) (path : Parts) : Prop :=
  ∃ loc dir name, unfollowed t path = .found loc ∧ real <+: loc ∧
    followed t path = .missing dir name ∧ ¬ real <+: dir ++ [name]

section Lemmas

variable {t : Volume String} {path : Parts} {real loc : List String}

theorem canonicalize_eq_some : canonicalize t path = some loc ↔ followed t path = .found loc := by
  unfold canonicalize
  cases followed t path <;> simp

theorem endsInName_iff : endsInName path = true ↔ ∃ parts name, path = parts ++ [.name name] := by
  rcases List.eq_nil_or_concat' path with rfl | ⟨parts, part, rfl⟩
  · simp [endsInName]
  · cases part <;> simp [endsInName]

/-- What ends in a name is in the directory the rest leads to. -/
theorem unfollowed_concat {parts : Parts} {name : String}
    (h : unfollowed t (parts ++ [.name name]) ≠ .failed) :
    ∃ dir, followed t parts = .found dir ∧
      (unfollowed t (parts ++ [.name name])).location = some (dir ++ [name]) := by
  obtain ⟨dir, left, hfound, -, heq⟩ := resolve_append t.top (List.cons_ne_nil _ _) h
  refine ⟨dir, hfound, ?_⟩
  show (resolve t false maxLinks [] (parts ++ [.name name])).location = _
  rw [heq, resolve_entry]

theorem followed_trimmed (h : followed t path = .found loc) :
    followed t (trimmed path) = .found loc := by
  induction path using List.reverseRecOn with
  | nil => exact h
  | append_singleton parts part ih =>
    by_cases hpart : part = .here
    · rw [hpart] at h ⊢
      rw [trimmed, List.rdropWhile_concat_pos _ _ _ (by simp)]
      exact ih (resolve_of_here t.top h)
    · rw [trimmed, List.rdropWhile_concat_neg _ _ _ (by simp [hpart])]
      exact h

@[simp] theorem parentPath_concat (parts : Parts) (name : String) :
    parentPath (parts ++ [.name name]) = some (trimmed parts) := by
  have htrimmed : trimmed (parts ++ [.name name]) = parts ++ [.name name] :=
    List.rdropWhile_concat_neg _ _ _ (by simp)
  rw [parentPath, htrimmed, if_neg (by simp), List.dropLast_concat]

/-- Of a path that exists its own location is checked. -/
theorem existing_of_found {fuel : ℕ} (h : canonicalize t path = some loc) :
    existing t (fuel + 1) path = some loc := by
  rw [existing, h]

/-- Of one that does not, its directory's. -/
theorem existing_of_parent {fuel : ℕ} {parts : Parts} {name : String}
    (h : canonicalize t (parts ++ [.name name]) = none) (hparent : followed t parts = .found loc) :
    existing t (fuel + 2) (parts ++ [.name name]) = some loc := by
  have hprobe := canonicalize_eq_some.mpr (followed_trimmed hparent)
  rw [existing, h, parentPath_concat, Option.bind_some, existing_of_found hprobe]

/-- A path that leads to a missing name ends in a name. -/
theorem endsInName_of_missing {dir : List String} {name : String}
    (h : followed t path = .missing dir name) : endsInName path = true := by
  rcases List.eq_nil_or_concat' path with rfl | ⟨parts, part, rfl⟩
  · have hnil : followed t [] = .found [] := resolve_done rfl _
    rw [hnil] at h
    cases h
  · have hlast (found : List String → List String)
        (hpart : ∀ left e, resolve t true left e [part] = .found (found e)) :
        endsInName (parts ++ [part]) = true := by
      have hne : followed t (parts ++ [part]) ≠ .failed := by
        rw [h]
        exact fun hfailed => by cases hfailed
      obtain ⟨e, left, -, -, heq⟩ := resolve_append t.top (List.cons_ne_nil part []) hne
      rw [hpart] at heq
      cases h.symm.trans heq
    cases part with
    | name n => exact endsInName_iff.mpr ⟨parts, n, rfl⟩
    | here => exact hlast id fun left e => resolve_done rfl left
    | up => exact hlast List.dropLast fun left e => resolve_done rfl left

/-- Links followed, a path leads to no link, so what has a link in it is not the link. -/
theorem prefix_of_link {dir : List String} {name : String} {left : ℕ}
    (hreal : followed t path = .found real)
    (hlink : ∀ loc, resolve t true left dir [.name name] ≠ .found loc)
    (h : real <+: dir ++ [name]) : real <+: dir := by
  rcases List.prefix_concat_iff.mp h with heq | hdir
  · rw [heq] at hreal
    rcases resolve_found_entry t.top hreal with hentry | hentry
    · exact absurd (resolve_done (by rw [walk, hentry]; rfl) left) (hlink (dir ++ [name]))
    · exact absurd (resolve_done (by rw [walk, hentry]; rfl) left) (hlink (dir ++ [name]))
  · exact hdir

theorem resolveWithin_eq_ok {root : Parts} {relative : FileTree.Path String} {detail : String}
    (hroot : canonicalize t root = some real) :
    resolveWithin t root relative detail = .ok path ↔
      plain relative = true ∧ path = join real relative.parts ∧
        ∃ resolved, existing t (path.length + 1) path = some resolved ∧ real <+: resolved := by
  unfold resolveWithin
  rw [hroot]
  cases plain relative with
  | false => simp
  | true =>
    simp only [Bool.not_true, Bool.false_eq_true, if_false, true_and]
    constructor
    · intro h
      split at h
      · cases h
      · next resolved hexisting =>
        split at h
        · next hinside =>
          cases h
          exact ⟨rfl, resolved, hexisting, List.isPrefixOf_iff_prefix.mp hinside⟩
        · cases h
    · rintro ⟨rfl, resolved, hexisting, hinside⟩
      rw [hexisting]
      exact if_pos (List.isPrefixOf_iff_prefix.mpr hinside)

section Checked

variable {parts : Parts} {name : String} {dir resolved : List String}

/-- Where nothing is found, the directory is what is checked. -/
theorem checked_dir (hnone : canonicalize t (parts ++ [.name name]) = none)
    (hdir : followed t parts = .found dir)
    (hexisting : existing t (parts.length + 2) (parts ++ [.name name]) =
      some resolved) : resolved = dir := by
  rw [existing_of_parent hnone hdir] at hexisting
  exact (Option.some.inj hexisting).symm

/-- A name that a directory has not is not found with links followed either. -/
theorem canonicalize_of_unfollowed_missing {n : String}
    (h : unfollowed t (parts ++ [.name name]) = .missing dir n) :
    canonicalize t (parts ++ [.name name]) = none := by
  have hne : resolve t false maxLinks [] (parts ++ [.name name]) ≠ .failed := fun hfailed => by
    cases h.symm.trans hfailed
  obtain ⟨e, left, hfound, he, heq⟩ := resolve_append t.top (List.cons_ne_nil _ _) hne
  have hentry : t.entry (e ++ [name]) = none := by
    have hend : resolve t false left e [.name name] = .missing dir n := heq.symm.trans h
    cases hkind : t.entry (e ++ [name]) with
    | none => rfl
    | some kind =>
      have hwalk : walk t false e [.name name] = .done (.found (e ++ [name])) := by
        rw [walk, hkind]
        cases kind <;> rfl
      rw [resolve_done hwalk] at hend
      cases hend
  obtain ⟨left', heq'⟩ : ∃ left', resolve t true maxLinks [] (parts ++ [.name name]) =
      resolve t true left' e [.name name] :=
    resolve_append_of_found t.top (List.cons_ne_nil _ _) hfound he
  have hmissing : walk t true e [.name name] = .done (.missing e name) := by
    rw [walk, hentry]
    rfl
  rw [resolve_done hmissing] at heq'
  unfold canonicalize followed
  rw [heq']

/-- Links followed, a name that is missing is that of the path or of one outside. -/
theorem inside_of_followed_missing {n : String}
    (h : followed t (parts ++ [.name name]) = .missing dir n)
    (hexisting : existing t (parts.length + 2) (parts ++ [.name name]) =
      some resolved) (hinside : real <+: resolved)
    (hdangles : ¬ Dangles t real (parts ++ [.name name])) : real <+: dir ++ [n] := by
  have hnone : canonicalize t (parts ++ [.name name]) = none := by
    unfold canonicalize
    rw [h]
  have hne : resolve t true maxLinks [] (parts ++ [.name name]) ≠ .failed := fun hfailed => by
    cases h.symm.trans hfailed
  obtain ⟨e, left, hfound, he, heq⟩ := resolve_append t.top (List.cons_ne_nil _ _) hne
  have hreal : real <+: e ++ [name] := by
    rw [checked_dir hnone hfound hexisting] at hinside
    exact hinside.trans (List.prefix_append e [name])
  have hend : resolve t true left e [.name name] = .missing dir n := heq.symm.trans h
  cases hkind : t.entry (e ++ [name]) with
  | none =>
    have hwalk : walk t true e [.name name] = .done (.missing e name) := by
      rw [walk, hkind]
      rfl
    rw [resolve_done hwalk] at hend
    cases hend
    exact hreal
  | some kind =>
    by_contra houtside
    obtain ⟨left', heq'⟩ : ∃ left', resolve t false maxLinks [] (parts ++ [.name name]) =
        resolve t false left' e [.name name] :=
      resolve_append_of_found t.top (List.cons_ne_nil _ _) hfound he
    have hwalk : walk t false e [.name name] = .done (.found (e ++ [name])) := by
      rw [walk, hkind]
      cases kind <;> rfl
    rw [resolve_done hwalk] at heq'
    exact hdangles ⟨e ++ [name], dir, n, heq', hreal, h, houtside⟩

/-- What is named is inside, unless the path returns. -/
theorem inside_of_unfollowed {loc : List String}
    (h : (unfollowed t (parts ++ [.name name])).location = some loc)
    (hexisting : existing t (parts.length + 2) (parts ++ [.name name]) =
      some resolved) (hinside : real <+: resolved)
    (hreturns : ¬ Returns t real (parts ++ [.name name])) : real <+: loc := by
  have hne : unfollowed t (parts ++ [.name name]) ≠ .failed := fun hfailed => by
    rw [hfailed] at h
    cases h
  cases hcanonical : canonicalize t (parts ++ [.name name]) with
  | none =>
    obtain ⟨e, hfound, hlocation⟩ := unfollowed_concat hne
    rw [checked_dir hcanonical hfound hexisting] at hinside
    rw [hlocation] at h
    rw [← Option.some.inj h]
    exact hinside.trans (List.prefix_append e [name])
  | some target =>
    rw [existing_of_found hcanonical] at hexisting
    obtain rfl := Option.some.inj hexisting
    cases hunfollowed : unfollowed t (parts ++ [.name name]) with
    | failed => exact absurd hunfollowed hne
    | missing e n =>
      rw [canonicalize_of_unfollowed_missing hunfollowed] at hcanonical
      cases hcanonical
    | found e =>
      rw [hunfollowed] at h
      obtain rfl : e = loc := Option.some.inj h
      by_contra houtside
      exact hreturns ⟨target, e, hcanonical, hinside, endsInName_iff.mpr ⟨parts, name, rfl⟩,
        hunfollowed, houtside⟩

end Checked

/-- Whatever an access to a path that passes the check touches is inside, unless the path returns
or dangles. -/
theorem touched_inside {resolved : List String} {access : Access}
    (hexisting : existing t (path.length + 1) path = some resolved) (hinside : real <+: resolved)
    (hreturns : ¬ Returns t real path) (hdangles : ¬ Dangles t real path)
    (htouched : touched t access path = some loc) : real <+: loc := by
  have hfound (h : canonicalize t path = some loc) : real <+: loc := by
    rw [existing_of_found h] at hexisting
    rwa [Option.some.inj hexisting]
  have hnamed (hname : endsInName path = true) (h : (unfollowed t path).location = some loc) :
      real <+: loc := by
    obtain ⟨parts, name, rfl⟩ := endsInName_iff.mp hname
    rw [List.length_append] at hexisting
    exact inside_of_unfollowed h hexisting hinside hreturns
  cases access with
  | opened => exact hfound htouched
  | created =>
    change (followed t path).location = some loc at htouched
    cases hfollowed : followed t path with
    | failed =>
      rw [hfollowed] at htouched
      cases htouched
    | found e =>
      rw [hfollowed] at htouched
      obtain rfl : e = loc := Option.some.inj htouched
      exact hfound (canonicalize_eq_some.mpr hfollowed)
    | missing dir n =>
      rw [hfollowed] at htouched
      obtain rfl : dir ++ [n] = loc := Option.some.inj htouched
      obtain ⟨parts, name, rfl⟩ := endsInName_iff.mp (endsInName_of_missing hfollowed)
      rw [List.length_append] at hexisting
      exact inside_of_followed_missing hfollowed hexisting hinside hdangles
  | renamed =>
    change (if endsInName path then (unfollowed t path).location else none) = some loc at htouched
    split at htouched
    · next hname => exact hnamed hname htouched
    · cases htouched
  | deleted =>
    cases hunfollowed : unfollowed t path with
    | failed => simp [touched, hunfollowed] at htouched
    | missing dir n => simp [touched, hunfollowed] at htouched
    | found e =>
      simp only [touched, hunfollowed] at htouched
      split at htouched
      · next hname =>
        obtain rfl : e = loc := Option.some.inj htouched
        exact hnamed hname (by rw [hunfollowed]; rfl)
      · cases htouched

/-- A path that returns passes the check, and what is deleted then is outside. -/
theorem not_contained_of_returns {root : Parts} {relative : FileTree.Path String}
    (hroot : canonicalize t root = some real) (hplain : plain relative = true)
    (h : Returns t real (join real relative.parts)) : ¬ Contained t root relative := by
  obtain ⟨target, loc, hcanonical, hinside, hname, hunfollowed, houtside⟩ := h
  intro hcontained
  have hok := (@resolveWithin_eq_ok t _ real root relative "" hroot).mpr
    ⟨hplain, rfl, target, existing_of_found hcanonical, hinside⟩
  have htouched : touched t .deleted (join real relative.parts) = some loc := by
    simp only [touched, hunfollowed, hname, if_true]
  exact houtside (hcontained "" _ hok real hroot .deleted loc htouched)

/-- A path that dangles passes the check, and what is created then is outside. -/
theorem not_contained_of_dangles {root : Parts} {relative : FileTree.Path String}
    (hroot : canonicalize t root = some real) (hplain : plain relative = true)
    (h : Dangles t real (join real relative.parts)) : ¬ Contained t root relative := by
  obtain ⟨loc, dir, n, hunfollowed, hreal, hfollowed, houtside⟩ := h
  intro hcontained
  obtain ⟨parts, name, hpath⟩ := endsInName_iff.mp (endsInName_of_missing hfollowed)
  rw [hpath] at hunfollowed hfollowed
  have hnone : canonicalize t (parts ++ [.name name]) = none := by
    unfold canonicalize
    rw [hfollowed]
  have hne : resolve t true maxLinks [] (parts ++ [.name name]) ≠ .failed := fun hfailed => by
    cases hfollowed.symm.trans hfailed
  obtain ⟨e, left, hparent, he, heq⟩ := resolve_append t.top (List.cons_ne_nil _ _) hne
  obtain ⟨left', heq'⟩ : ∃ left', resolve t false maxLinks [] (parts ++ [.name name]) =
      resolve t false left' e [.name name] :=
    resolve_append_of_found t.top (List.cons_ne_nil _ _) hparent he
  have hlocation := @resolve_entry _ t left' e name
  rw [← heq'] at hlocation
  change (unfollowed t (parts ++ [.name name])).location = some (e ++ [name]) at hlocation
  rw [hunfollowed] at hlocation
  obtain rfl : loc = e ++ [name] := Option.some.inj hlocation
  have hinside : real <+: e := by
    refine @prefix_of_link t root real e name left (canonicalize_eq_some.mp hroot) ?_ hreal
    intro found hfound
    cases (hfollowed.symm.trans heq).trans hfound
  have hexisting : existing t ((join real relative.parts).length + 1) (join real relative.parts) =
      some e := by
    rw [hpath, List.length_append]
    exact existing_of_parent hnone hparent
  have hok := (@resolveWithin_eq_ok t _ real root relative "" hroot).mpr
    ⟨hplain, rfl, e, hexisting, hinside⟩
  have htouched : touched t .created (join real relative.parts) = some (dir ++ [n]) := by
    simp only [touched, hpath, hfollowed, Outcome.location]
  exact houtside (hcontained "" _ hok real hroot .created _ htouched)

end Lemmas

/-- What is done with a path that passes the check stays inside the root, if and only if the path
neither leaves the root to come back at its end, nor ends in a link that leads to a missing name
outside. -/
theorem resolveWithin_contained_iff (t : Volume String) (root : Parts)
    (relative : FileTree.Path String) :
    Contained t root relative ↔ ∀ real, canonicalize t root = some real → plain relative = true →
      ¬ Returns t real (join real relative.parts) ∧
        ¬ Dangles t real (join real relative.parts) := by
  constructor
  · intro h real hroot hplain
    exact ⟨fun hreturns => not_contained_of_returns hroot hplain hreturns h,
      fun hdangles => not_contained_of_dangles hroot hplain hdangles h⟩
  · intro h detail path hok real hroot access loc htouched
    obtain ⟨hplain, rfl, resolved, hexisting, hinside⟩ := (resolveWithin_eq_ok hroot).mp hok
    obtain ⟨hreturns, hdangles⟩ := h real hroot hplain
    exact touched_inside hexisting hinside hreturns hdangles htouched

/-- A library with a link to another directory, which holds a link to an archive of the
library. -/
def linkedVolume : Volume String where
  entry loc := [([], FileTree.Entry.dir), (["lib"], .dir), (["lib", "a.cbz"], .file),
    (["lib", "out"], .link ⟨true, [.name "other"]⟩), (["other"], .dir),
    (["other", "back"], .link ⟨true, [.name "lib", .name "a.cbz"]⟩)].lookup loc
  top := rfl
  parent d n h := by
    have hmem : d ++ [n] ∈ [[], ["lib"], ["lib", "a.cbz"], ["lib", "out"], ["other"],
        ["other", "back"]] := by
      by_contra hout
      apply h
      rw [List.lookup_eq_none_iff]
      simpa using hout
    simp only [List.mem_cons, List.not_mem_nil, or_false] at hmem
    rcases hmem with hmem | hmem | hmem | hmem | hmem | hmem
    · exact absurd hmem (by simp)
    all_goals
      have hd := congrArg List.dropLast hmem
      rw [List.dropLast_concat] at hd
      rw [hd]
      decide

/-- The path `out/back` passes, and deleting it deletes an entry of the other directory. -/
theorem out_and_back : ¬ ∀ (t : Volume String) (root : Parts) (relative : FileTree.Path String),
    Contained t root relative := by
  intro h
  have hinside := h linkedVolume [.name "lib"] ⟨false, [.name "out", .name "back"]⟩ ""
    [.name "lib", .name "out", .name "back"] (by decide) ["lib"] (by decide) .deleted
    ["other", "back"] (by decide)
  revert hinside
  decide

end Packaging
end Nyuka
