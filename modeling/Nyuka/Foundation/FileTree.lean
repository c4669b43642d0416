import Mathlib.Data.List.DropRight

/-! Trees of files with symbolic links, and where a path leads in one. A location is the names
from the top of the tree down to an entry, so the links of a path are in no location. -/
namespace FileTree

/-- What stands between two slashes of a path. -/
inductive Segment (ν : Type*) where
  | here
  | up
  | name (n : ν)
deriving DecidableEq

/-- A path: its parts, from the top of the tree or from where it stands. -/
structure Path (ν : Type*) where
  absolute : Bool
  parts : List (Segment ν)
deriving DecidableEq

inductive Entry (ν : Type*) where
  | dir
  | file
  | link (target : Path ν)
deriving DecidableEq

/-- Whatever there is, is in a directory. -/
structure Volume (ν : Type*) where
  entry : List ν → Option (Entry ν)
  top : entry [] = some .dir
  parent : ∀ d n, entry (d ++ [n]) ≠ none → entry d = some .dir

/-- Where a path leads: to an entry, to a name that a directory has not, or nowhere. -/
inductive Outcome (ν : Type*) where
  | found (loc : List ν)
  | missing (dir : List ν) (n : ν)
  | failed
deriving DecidableEq

/-- The location an outcome is about, be there an entry or not. -/
def Outcome.location {ν : Type*} : Outcome ν → Option (List ν)
  | found loc => some loc
  | missing dir n => some (dir ++ [n])
  | failed => none

/-- As far as a path leads without its links: to its end, or to a link and what is left. -/
inductive Leg (ν : Type*) where
  | done (outcome : Outcome ν)
  | follow (dir : List ν) (parts : List (Segment ν))
deriving DecidableEq

variable {ν : Type*} (t : Volume ν)

/-- The parts of a path one by one. Only at the end of a path may a link be left unfollowed. -/
def walk (last : Bool) : List ν → List (Segment ν) → Leg ν
  | d, [] => .done (.found d)
  | d, .here :: ps => walk last d ps
  | d, .up :: ps => walk last d.dropLast ps
  | d, .name n :: ps =>
    match t.entry (d ++ [n]) with
    | none => .done (if ps.isEmpty then .missing d n else .failed)
    | some .dir => walk last (d ++ [n]) ps
    | some .file => .done (if ps.isEmpty then .found (d ++ [n]) else .failed)
    | some (.link target) =>
      if ps.isEmpty && !last then .done (.found (d ++ [n]))
      else .follow (if target.absolute then [] else d) (target.parts ++ ps)

/-- Where a path leads when no more than some links are followed. -/
def resolve (last : Bool) : ℕ → List ν → List (Segment ν) → Outcome ν
  | 0, d, ps =>
    match walk t last d ps with
    | .done outcome => outcome
    | .follow _ _ => .failed
  | links + 1, d, ps =>
    match walk t last d ps with
    | .done outcome => outcome
    | .follow e qs => resolve last links e qs

/-- The rest of a path behind a leg of it. -/
def Leg.onward (last : Bool) (qs : List (Segment ν)) : Leg ν → Leg ν
  | .done (.found e) =>
    match t.entry e with
    | some .dir => walk t last e qs
    | _ => .done .failed
  | .done _ => .done .failed
  | .follow e ps => .follow e (ps ++ qs)

variable {t} {last : Bool} {d e : List ν} {n : ν} {ps qs : List (Segment ν)} {links : ℕ}

theorem entry_dropLast (h : t.entry d = some .dir) : t.entry d.dropLast = some .dir := by
  rcases List.eq_nil_or_concat' d with rfl | ⟨e, n, rfl⟩
  · exact t.top
  · rw [List.dropLast_concat]
    exact t.parent e n (by rw [h]; simp)

/-- A path is walked part by part, and what is in its middle must be a directory. -/
theorem walk_append (hd : t.entry d = some .dir) (hqs : qs ≠ []) :
    walk t last d (ps ++ qs) = (walk t true d ps).onward t last qs := by
  have hrest (rs : List (Segment ν)) : (rs ++ qs).isEmpty = false := by
    simp [hqs]
  induction ps generalizing d with
  | nil => simp only [List.nil_append, walk, Leg.onward, hd]
  | cons p ps ih =>
    cases p with
    | here => exact ih hd
    | up => exact ih (entry_dropLast hd)
    | name n =>
      rw [List.cons_append, walk, walk]
      cases hentry : t.entry (d ++ [n]) with
      | none =>
        simp only [hrest]
        cases ps <;> rfl
      | some entry =>
        cases entry with
        | dir => exact ih hentry
        | file =>
          simp only [hrest]
          cases ps with
          | nil => simp [Leg.onward, hentry]
          | cons p ps => rfl
        | link target =>
          simp [hrest, Leg.onward, List.append_assoc]

/-- A link leads on from a directory. -/
theorem dir_of_follow (hd : t.entry d = some .dir) (h : walk t last d ps = .follow e qs) :
    t.entry e = some .dir := by
  fun_induction walk t last d ps with
  | case1 d => cases h
  | case2 d ps ih => exact ih hd h
  | case3 d ps ih => exact ih (entry_dropLast hd) h
  | case4 d n ps hentry => cases h
  | case5 d n ps hentry ih => exact ih hentry h
  | case6 d n ps hentry => cases h
  | case7 d n ps target hentry hlast => cases h
  | case8 d n ps target hentry hlast =>
    cases h
    split
    · exact t.top
    · exact hd

/-- Links followed to the end, a path leads to no link. -/
theorem entry_of_found (hd : t.entry d = some .dir) (h : walk t true d ps = .done (.found e)) :
    t.entry e = some .dir ∨ t.entry e = some .file := by
  fun_induction walk t true d ps with
  | case1 d =>
    cases h
    exact Or.inl hd
  | case2 d ps ih => exact ih hd h
  | case3 d ps ih => exact ih (entry_dropLast hd) h
  | case4 d n ps hentry =>
    split at h <;> cases h
  | case5 d n ps hentry ih => exact ih hentry h
  | case6 d n ps hentry =>
    split at h
    · cases h
      exact Or.inr hentry
    · cases h
  | case7 d n ps target hentry hlast => simp at hlast
  | case8 d n ps target hentry hlast => cases h

theorem resolve_done {outcome : Outcome ν} (h : walk t last d ps = .done outcome) (links : ℕ) :
    resolve t last links d ps = outcome := by
  cases links <;> rw [resolve, h]

theorem resolve_follow (h : walk t last d ps = .follow e qs) (links : ℕ) :
    resolve t last (links + 1) d ps = resolve t last links e qs := by
  rw [resolve, h]

theorem resolve_found_entry (hd : t.entry d = some .dir)
    (h : resolve t true links d ps = .found e) :
    t.entry e = some .dir ∨ t.entry e = some .file := by
  induction links generalizing d ps with
  | zero =>
    cases hwalk : walk t true d ps with
    | done outcome =>
      rw [resolve_done hwalk] at h
      exact entry_of_found hd (by rw [hwalk, h])
    | follow f qs =>
      rw [resolve, hwalk] at h
      cases h
  | succ links ih =>
    cases hwalk : walk t true d ps with
    | done outcome =>
      rw [resolve_done hwalk] at h
      exact entry_of_found hd (by rw [hwalk, h])
    | follow f qs =>
      rw [resolve_follow hwalk] at h
      exact ih (dir_of_follow hd hwalk) h

private theorem resolve_congr (h : walk t last d ps = walk t last e qs) (links : ℕ) :
    resolve t last links d ps = resolve t last links e qs := by
  cases links <;> rw [resolve, resolve, h]

/-- The end of a path is looked for in the directory the rest leads to, with the links that are
left then. -/
theorem resolve_append_of_found (hd : t.entry d = some .dir) (hqs : qs ≠ [])
    (h : resolve t true links d ps = .found e) (he : t.entry e = some .dir) :
    ∃ left, resolve t last links d (ps ++ qs) = resolve t last left e qs := by
  induction links generalizing d ps with
  | zero =>
    cases hwalk : walk t true d ps with
    | done outcome =>
      rw [resolve_done hwalk] at h
      have hend : walk t last d (ps ++ qs) = walk t last e qs := by
        rw [walk_append hd hqs, hwalk, h, Leg.onward, he]
      exact ⟨0, resolve_congr hend 0⟩
    | follow f rs =>
      rw [resolve, hwalk] at h
      cases h
  | succ links ih =>
    cases hwalk : walk t true d ps with
    | done outcome =>
      rw [resolve_done hwalk] at h
      have hend : walk t last d (ps ++ qs) = walk t last e qs := by
        rw [walk_append hd hqs, hwalk, h, Leg.onward, he]
      exact ⟨links + 1, resolve_congr hend _⟩
    | follow f rs =>
      have hsplit : walk t last d (ps ++ qs) = .follow f (rs ++ qs) := by
        rw [walk_append hd hqs, hwalk, Leg.onward]
      rw [resolve_follow hwalk] at h
      rw [resolve_follow hsplit]
      exact ih (dir_of_follow hd hwalk) h

private theorem found_of_done {outcome : Outcome ν} (hd : t.entry d = some .dir) (hqs : qs ≠ [])
    (hwalk : walk t true d ps = .done outcome) (h : resolve t last links d (ps ++ qs) ≠ .failed) :
    ∃ e, outcome = .found e ∧ t.entry e = some .dir := by
  have hsplit := @walk_append _ t last d ps qs hd hqs
  rw [hwalk] at hsplit
  cases outcome with
  | missing e n => exact absurd (resolve_done hsplit _) h
  | failed => exact absurd (resolve_done hsplit _) h
  | found e =>
    rcases entry_of_found hd hwalk with he | he
    · exact ⟨e, rfl, he⟩
    · rw [Leg.onward, he] at hsplit
      exact absurd (resolve_done hsplit _) h

/-- A path that leads somewhere does so through a directory. -/
theorem found_of_resolve_append (hd : t.entry d = some .dir) (hqs : qs ≠ [])
    (h : resolve t last links d (ps ++ qs) ≠ .failed) :
    ∃ e, resolve t true links d ps = .found e ∧ t.entry e = some .dir := by
  induction links generalizing d ps with
  | zero =>
    cases hwalk : walk t true d ps with
    | done outcome =>
      obtain ⟨e, rfl, he⟩ := found_of_done hd hqs hwalk h
      exact ⟨e, resolve_done hwalk 0, he⟩
    | follow f rs =>
      rw [resolve, walk_append hd hqs, hwalk] at h
      exact absurd rfl h
  | succ links ih =>
    cases hwalk : walk t true d ps with
    | done outcome =>
      obtain ⟨e, rfl, he⟩ := found_of_done hd hqs hwalk h
      exact ⟨e, resolve_done hwalk _, he⟩
    | follow f rs =>
      have hsplit : walk t last d (ps ++ qs) = .follow f (rs ++ qs) := by
        rw [walk_append hd hqs, hwalk, Leg.onward]
      rw [resolve_follow hsplit] at h
      rw [resolve_follow hwalk]
      exact ih (dir_of_follow hd hwalk) h

theorem resolve_append (hd : t.entry d = some .dir) (hqs : qs ≠ [])
    (h : resolve t last links d (ps ++ qs) ≠ .failed) :
    ∃ e left, resolve t true links d ps = .found e ∧ t.entry e = some .dir ∧
      resolve t last links d (ps ++ qs) = resolve t last left e qs := by
  obtain ⟨e, hfound, he⟩ := found_of_resolve_append hd hqs h
  obtain ⟨left, heq⟩ := resolve_append_of_found hd hqs hfound he
  exact ⟨e, left, hfound, he, heq⟩

/-- What a directory has under a name, with a link left unfollowed. -/
theorem resolve_entry (left : ℕ) (e : List ν) (n : ν) :
    (resolve t false left e [.name n]).location = some (e ++ [n]) := by
  have hwalk : ∃ outcome, walk t false e [.name n] = .done outcome ∧
      outcome.location = some (e ++ [n]) := by
    unfold walk
    cases t.entry (e ++ [n]) with
    | none => exact ⟨_, rfl, rfl⟩
    | some entry => cases entry <;> exact ⟨_, rfl, rfl⟩
  obtain ⟨outcome, heq, hlocation⟩ := hwalk
  rw [resolve_done heq, hlocation]

/-- A dot behind a path changes nothing about where it leads. -/
theorem resolve_of_here (hd : t.entry d = some .dir)
    (h : resolve t true links d (ps ++ [.here]) = .found e) :
    resolve t true links d ps = .found e := by
  have hleads : resolve t true links d (ps ++ [.here]) ≠ .failed := by
    rw [h]
    simp
  obtain ⟨f, left, hfound, hf, heq⟩ := resolve_append hd (List.cons_ne_nil _ _) hleads
  have hhere : resolve t true left f [.here] = .found f := resolve_done rfl left
  rw [h, hhere] at heq
  rw [hfound, heq]

end FileTree
