import Nyuka.Foundation.Directories
import Nyuka.Foundation.Runs
import Nyuka.Packaging.Store

/-! Where the packages of installed sources live on disk: one file a source, written beside its
place and renamed into it. Any number of threads write, read and remove; a process may end at any
step. -/
namespace Nyuka
namespace Packaging
open Directories

/-- The largest package that is read back. -/
def maxPackage : ℕ := 32 * 1024 * 1024

/-- `path_for` -/
def packageName (source : Uuid) : String := s!"{source.hyphenated}.aix"

def partialName (source : Uuid) : String := s!".{source.hyphenated}.aix.partial"

/-- The names of partial writes. -/
def isPartial (name : String) : Bool :=
  ".".toList.isPrefixOf name.toList && ".partial".toList.isSuffixOf name.toList

/-- A write in progress: the file it writes to, and how much it has written. -/
structure PackageWrite where
  source : Uuid
  bytes : Bytes
  file : ℕ
  offset : ℕ

structure PackageState where
  dir : Directory String
  /-- The write that a thread is in. -/
  writes : ℕ → Option PackageWrite

inductive PackageStep where
  | create (thread : ℕ) (source : Uuid) (bytes : Bytes)
  | put (thread count : ℕ)
  /-- The temporary file stays behind. -/
  | writeFails (thread : ℕ)
  | rename (thread : ℕ)
  | renameFails (thread : ℕ) (removed : Bool)
  | remove (source : Uuid)
  /-- The process ends, and the next one deletes what partial writes it can. -/
  | restart (stuck : String → Bool)

namespace PackageState

def finish (s : PackageState) (thread : ℕ) (dir : Directory String) : PackageState :=
  ⟨dir, Function.update s.writes thread none⟩

/-- One call to the system. -/
def step (s : PackageState) : PackageStep → Option PackageState
  | .create thread source bytes =>
    if (s.writes thread).isNone then
      let (dir, file) := s.dir.create (partialName source)
      some ⟨dir, Function.update s.writes thread (some ⟨source, bytes, file, 0⟩)⟩
    else none
  | .put thread count => (s.writes thread).bind fun w =>
    if w.offset + count ≤ w.bytes.length then
      some ⟨s.dir.writeAt w.file w.offset ((w.bytes.drop w.offset).take count),
        Function.update s.writes thread (some { w with offset := w.offset + count })⟩
    else none
  | .writeFails thread => (s.writes thread).map fun _ => s.finish thread s.dir
  | .rename thread => (s.writes thread).bind fun w =>
    if w.offset = w.bytes.length then
      some (s.finish thread
        ((s.dir.rename (partialName w.source) (packageName w.source)).getD s.dir))
    else none
  | .renameFails thread removed => (s.writes thread).bind fun w =>
    if w.offset = w.bytes.length then
      some (s.finish thread (if removed then s.dir.unlink (partialName w.source) else s.dir))
    else none
  | .remove source => some { s with dir := s.dir.unlink (packageName source) }
  | .restart stuck =>
    some ⟨s.dir.sweep fun name => isPartial name && !stuck name, fun _ => none⟩

/-- No other write of the source is in progress. -/
def Alone (s : PackageState) : PackageStep → Prop
  | .create _ source _ => ∀ thread w, s.writes thread = some w → w.source ≠ source
  | _ => True

/-- What is written is what the partial file has, and there is one write of a source. -/
structure Sound (s : PackageState) : Prop where
  dir : s.dir.Sound
  own : ∀ thread w, s.writes thread = some w → s.dir.entry (partialName w.source) = some w.file ∧
    s.dir.content w.file = w.bytes.take w.offset ∧ w.offset ≤ w.bytes.length
  one : ∀ thread other w v, s.writes thread = some w → s.writes other = some v →
    w.source = v.source → thread = other

/-- What a step leaves under a source's name, if it changes that. -/
def stores (source : Uuid) : PackageState × PackageStep → Option (Option Bytes)
  | (s, .rename thread) => (s.writes thread).bind fun w =>
    if w.source = source then some (some w.bytes) else none
  | (_, .remove removed) => if removed = source then some none else none
  | _ => none

/-- The package of a source. -/
def package (s : PackageState) (source : Uuid) : Option Bytes := s.dir.read (packageName source)

end PackageState

/-- `fault` is what the system fails with. -/
def readPackage (root : String) (fault : Option String) (s : PackageState) (source : Uuid) :
    Except StoreError (Option Bytes) :=
  match fault, s.package source with
  | some detail, _ => .error (.io detail)
  | none, none => .ok none
  | none, some bytes =>
    if maxPackage < bytes.length then
      .error (.io (s!"{root}/{packageName source} is {bytes.length} bytes, " ++
        s!"over the {maxPackage} limit"))
    else .ok (some bytes)

section Names
variable {u v : Uuid}

@[simp] theorem packageName_toList (u : Uuid) :
    (packageName u).toList = u.hyphenated.toList ++ ".aix".toList := by
  simp [packageName, String.toList_append]

@[simp] theorem partialName_toList (u : Uuid) :
    (partialName u).toList = '.' :: (u.hyphenated.toList ++ ".aix.partial".toList) := by
  simp [partialName, String.toList_append]

theorem packageName_inj (h : packageName u = packageName v) : u = v := by
  have hlist := congrArg String.toList h
  rw [packageName_toList, packageName_toList] at hlist
  exact Uuid.hyphenated_inj (String.toList_injective (List.append_cancel_right hlist))

theorem partialName_inj (h : partialName u = partialName v) : u = v := by
  have hlist := congrArg String.toList h
  rw [partialName_toList, partialName_toList] at hlist
  exact Uuid.hyphenated_inj
    (String.toList_injective (List.append_cancel_right (List.cons.inj hlist).2))

/-- The name of a package ends otherwise than that of a partial write. -/
@[simp] theorem isPartial_packageName (u : Uuid) : isPartial (packageName u) = false := by
  rw [isPartial, Bool.and_eq_false_iff]
  right
  rw [Bool.eq_false_iff, Ne, List.isSuffixOf_iff_suffix, packageName_toList]
  rintro ⟨front, h⟩
  have hlast := congrArg List.getLast? h
  rw [List.getLast?_append, List.getLast?_append] at hlast
  exact absurd (show some 'l' = some 'x' from hlast) (by decide)

theorem packageName_ne_partialName (u v : Uuid) : packageName u ≠ partialName v := by
  intro h
  have hlast := congrArg (fun name => name.toList.getLast?) h
  simp only [packageName_toList, partialName_toList] at hlast
  rw [← List.cons_append, List.getLast?_append, List.getLast?_append] at hlast
  exact absurd (show some 'x' = some 'l' from hlast) (by decide)

end Names

namespace PackageState
variable {s t : PackageState} {thread other : ℕ} {w v : PackageWrite} {source : Uuid}
  {dir : Directory String} {steps : List PackageStep} {a : PackageStep}

/-- A step that ends a write and leaves the other writes their files. -/
theorem sound_finish (hs : s.Sound) (hdir : dir.Sound)
    (hkeep : ∀ other v, other ≠ thread → s.writes other = some v →
      dir.entry (partialName v.source) = some v.file ∧
        dir.content v.file = s.dir.content v.file) : (s.finish thread dir).Sound := by
  have hold {other : ℕ} {v : PackageWrite}
      (h : Function.update s.writes thread none other = some v) :
      other ≠ thread ∧ s.writes other = some v := by
    by_cases heq : other = thread
    · subst heq
      cases (Function.update_self other _ _).symm.trans h
    · exact ⟨heq, (Function.update_of_ne heq _ _).symm.trans h⟩
  refine ⟨hdir, fun other v h => ?_, fun x y v v' hv hv' => ?_⟩
  · obtain ⟨hne, hv⟩ := hold h
    obtain ⟨hentry, hcontent⟩ := hkeep other v hne hv
    obtain ⟨-, hbytes, hle⟩ := hs.own other v hv
    exact ⟨hentry, hcontent.trans hbytes, hle⟩
  · exact hs.one x y v v' (hold hv).2 (hold hv').2

/-- Writes of two threads are of two sources. -/
theorem Sound.partial_ne (hs : s.Sound) (hne : other ≠ thread) (hv : s.writes other = some v)
    (hw : s.writes thread = some w) : partialName v.source ≠ partialName w.source := fun h =>
  hne (hs.one other thread v w hv hw (partialName_inj h))

theorem create_sound (hs : s.Sound) (bytes : Bytes)
    (halone : ∀ thread w, s.writes thread = some w → w.source ≠ source) :
    (⟨(s.dir.create (partialName source)).1, Function.update s.writes thread
      (some ⟨source, bytes, (s.dir.create (partialName source)).2, 0⟩)⟩ : PackageState).Sound := by
  obtain ⟨hentry, hempty⟩ := s.dir.create_spec (partialName source)
  have hold {other : ℕ} {v : PackageWrite} (heq : other ≠ thread)
      (h : Function.update s.writes thread
        (some ⟨source, bytes, (s.dir.create (partialName source)).2, 0⟩) other = some v) :
      s.writes other = some v := (Function.update_of_ne heq _ _).symm.trans h
  refine ⟨Directory.sound_create hs.dir _, fun other v h => ?_, fun x y v v' hv hv' hsame => ?_⟩
  · by_cases heq : other = thread
    · subst heq
      cases (Function.update_self other _ _).symm.trans h
      exact ⟨hentry, hempty, Nat.zero_le _⟩
    · have hv := hold heq h
      obtain ⟨hfile, hbytes, hle⟩ := hs.own other v hv
      obtain ⟨hkept, hcontent⟩ := @Directory.create_of_ne _ _ _ _ _ hs.dir
        (fun h => halone other v hv (partialName_inj h)) v.file
      exact ⟨hkept.trans hfile, (hcontent hfile).trans hbytes, hle⟩
  · by_cases hx : x = thread
    · by_cases hy : y = thread
      · rw [hx, hy]
      · subst hx
        cases (Function.update_self x _ _).symm.trans hv
        exact absurd hsame.symm (halone y v' (hold hy hv'))
    · by_cases hy : y = thread
      · subst hy
        cases (Function.update_self y _ _).symm.trans hv'
        exact absurd hsame (halone x v (hold hx hv))
      · exact hs.one x y v v' (hold hx hv) (hold hy hv') hsame

theorem put_sound {count : ℕ} (hs : s.Sound) (hw : s.writes thread = some w)
    (hle : w.offset + count ≤ w.bytes.length) :
    (⟨s.dir.writeAt w.file w.offset ((w.bytes.drop w.offset).take count),
      Function.update s.writes thread (some { w with offset := w.offset + count })⟩ :
        PackageState).Sound := by
  obtain ⟨hfile, hbytes, hoffset⟩ := hs.own thread w hw
  have hold {other : ℕ} {v : PackageWrite} (heq : other ≠ thread)
      (h : Function.update s.writes thread (some { w with offset := w.offset + count }) other =
        some v) : s.writes other = some v := (Function.update_of_ne heq _ _).symm.trans h
  refine ⟨Directory.sound_writeAt hs.dir, fun other v h => ?_, fun x y v v' hv hv' hsame => ?_⟩
  · by_cases heq : other = thread
    · subst heq
      cases (Function.update_self other _ _).symm.trans h
      refine ⟨hfile, ?_, hle⟩
      have hlength : (s.dir.content w.file).length = w.offset := by
        rw [hbytes, List.length_take, min_eq_left hoffset]
      have hwritten : (s.dir.writeAt w.file w.offset
          ((w.bytes.drop w.offset).take count)).content w.file =
            overlay (s.dir.content w.file) w.offset ((w.bytes.drop w.offset).take count) :=
        Function.update_self _ _ _
      rw [hwritten, ← hlength, overlay_end, hlength, hbytes, ← List.take_add]
    · have hv := hold heq h
      obtain ⟨hother, hcontent, hlast⟩ := hs.own other v hv
      refine ⟨hother, (Function.update_of_ne (fun hsame => ?_) _ _).trans hcontent, hlast⟩
      rw [hsame] at hother
      exact hs.partial_ne heq hv hw (hs.dir.inj _ _ _ hother hfile)
  · -- the source of the write is as it was
    have hsources {x : ℕ} {v : PackageWrite} (h : Function.update s.writes thread
        (some { w with offset := w.offset + count }) x = some v) :
        ∃ v', s.writes x = some v' ∧ v'.source = v.source := by
      by_cases heq : x = thread
      · subst heq
        cases (Function.update_self x _ _).symm.trans h
        exact ⟨w, hw, rfl⟩
      · exact ⟨v, hold heq h, rfl⟩
    obtain ⟨u, hu, husource⟩ := hsources hv
    obtain ⟨u', hu', husource'⟩ := hsources hv'
    exact hs.one x y u u' hu hu' (husource.trans (hsame.trans husource'.symm))

/-- A rename puts what was written under the name of its source, and nothing else changes. -/
private theorem rename_spec (hs : s.Sound) {w : PackageWrite} (hw : s.writes thread = some w)
    (hwhole : w.offset = w.bytes.length) :
    let t := s.finish thread
      ((s.dir.rename (partialName w.source) (packageName w.source)).getD s.dir)
    t.Sound ∧ ∀ source, t.package source =
      (stores source (s, .rename thread)).getD (s.package source) := by
  obtain ⟨hfile, hbytes, -⟩ := hs.own thread w hw
  obtain ⟨dir, hdir, hself, hothers⟩ :=
    @Directory.read_rename _ s.dir _ _ (packageName w.source) _ hfile
  have hcontent : dir.content = s.dir.content := by
    obtain ⟨file, -, rfl⟩ := Option.map_eq_some_iff.mp hdir
    rfl
  rw [hdir, Option.getD_some]
  refine ⟨sound_finish hs (Directory.sound_rename hs.dir hdir) fun other v hne hv => ?_,
    fun source => ?_⟩
  · refine ⟨(hothers _ (hs.partial_ne hne hv hw) ?_).1.trans (hs.own other v hv).1,
      congrFun hcontent _⟩
    exact (packageName_ne_partialName w.source v.source).symm
  · rw [stores, hw, Option.bind_some]
    by_cases heq : w.source = source
    · subst heq
      rw [if_pos rfl, Option.getD_some]
      refine hself.trans (congrArg some ?_)
      rw [hbytes, hwhole, List.take_length]
    · rw [if_neg heq]
      exact (hothers _ (packageName_ne_partialName source w.source)
        fun hname => heq (packageName_inj hname).symm).2

/-- One step keeps what is written and in what it is written, and changes what a name stands for
only by putting a whole package there or by removing it. -/
theorem step_spec (hs : s.Sound) (halone : s.Alone a) (h : s.step a = some t) :
    t.Sound ∧ ∀ source, t.package source = (stores source (s, a)).getD (s.package source) := by
  cases a with
  | create thread source bytes =>
    simp only [step] at h
    split_ifs at h
    cases h
    exact ⟨create_sound hs bytes halone, fun other =>
      Directory.read_create_of_ne hs.dir (packageName_ne_partialName other source)⟩
  | put thread count =>
    obtain ⟨w, hw, hput⟩ := Option.bind_eq_some_iff.mp h
    split_ifs at hput with hle
    cases hput
    exact ⟨put_sound hs hw hle, fun other => Directory.read_writeAt_of_ne hs.dir
      (hs.own thread w hw).1 (packageName_ne_partialName other w.source)⟩
  | writeFails thread =>
    obtain ⟨w, hw, rfl⟩ := Option.map_eq_some_iff.mp h
    exact ⟨sound_finish hs hs.dir fun other v _ hv => ⟨(hs.own other v hv).1, rfl⟩, fun _ => rfl⟩
  | rename thread =>
    obtain ⟨w, hw, hrename⟩ := Option.bind_eq_some_iff.mp h
    split_ifs at hrename with hwhole
    cases hrename
    exact rename_spec hs hw hwhole
  | renameFails thread removed =>
    obtain ⟨w, hw, hrename⟩ := Option.bind_eq_some_iff.mp h
    split_ifs at hrename with hwhole hremoved
    · cases hrename
      refine ⟨sound_finish hs (Directory.sound_unlink hs.dir) fun other v hne hv =>
        ⟨(Directory.unlink_of_ne (hs.partial_ne hne hv hw)).1.trans (hs.own other v hv).1, rfl⟩,
        fun source => ?_⟩
      exact (Directory.unlink_of_ne (packageName_ne_partialName source w.source)).2
    · cases hrename
      exact ⟨sound_finish hs hs.dir fun other v _ hv => ⟨(hs.own other v hv).1, rfl⟩, fun _ => rfl⟩
  | remove removed =>
    cases h
    refine ⟨⟨Directory.sound_unlink hs.dir, fun other v hv => ?_, hs.one⟩, fun source => ?_⟩
    · obtain ⟨hentry, hcontent⟩ := hs.own other v hv
      have hne := (packageName_ne_partialName removed v.source).symm
      exact ⟨(Directory.unlink_of_ne hne).1.trans hentry, hcontent⟩
    · rw [stores]
      split_ifs with heq
      · subst heq
        exact Directory.read_unlink_self
      · exact (Directory.unlink_of_ne fun hname => heq (packageName_inj hname).symm).2
  | restart stuck =>
    cases h
    refine ⟨⟨Directory.sound_sweep hs.dir, fun _ _ h => (by cases h),
        fun _ _ _ _ h => (by cases h)⟩,
      fun source => Directory.read_sweep ?_⟩
    rw [isPartial_packageName, Bool.false_and]

/-- Through any run in which no two writes of a source overlap, whatever fails and wherever the
process ends, the file of a source is all that the last write that came to its end was given, or
there is none since it was removed. -/
theorem package_whole (hs : s.Sound) (halone : Runs.Each step Alone s steps)
    (h : Runs.exec step s steps = some t) : t.Sound ∧ ∀ source, t.package source =
      (((Runs.trace step s steps).filterMap (stores source)).getLast?).getD
        (s.package source) := by
  have hsound : Runs.Always step Sound s steps :=
    .of_each (fun u a v hu ha huv => (step_spec hu ha huv).1) hs halone
  refine ⟨hsound.last h, fun source => ?_⟩
  have hlast := Runs.exec_latest (fun u a v hu ha huv => ⟨(step_spec hu ha huv).1, show
    some (v.package source) = (stores source (u, a)).or (some (u.package source)) by
      rw [(step_spec hu ha huv).2]
      cases stores source (u, a) <;> rfl⟩) hs halone h
  rw [← Option.some_inj, hlast]
  cases ((Runs.trace step s steps).filterMap (stores source)).getLast? <;> rfl

def empty : PackageState := ⟨⟨fun _ => none, fun _ => [], 0⟩, fun _ => none⟩

theorem empty_sound : empty.Sound where
  dir := ⟨fun _ _ h => (by cases h), fun _ _ _ h => (by cases h)⟩
  own _ _ h := by cases h
  one _ _ _ _ h := by cases h

/-- A package is written, and the process ends. -/
def installing : List PackageStep :=
  [.create 0 7 [1, 2, 3], .put 0 2, .put 0 1, .rename 0, .restart fun _ => false]

theorem installing_alone : Runs.Each step Alone empty installing :=
  fun _ _ => ⟨fun _ _ h => (by cases h), fun _ _ => ⟨trivial, fun _ _ => ⟨trivial,
    fun _ _ => ⟨trivial, fun _ _ => ⟨trivial, trivial⟩⟩⟩⟩⟩

theorem installed_whole : ∃ t, Runs.exec step empty installing = some t ∧ t.Sound ∧
    t.package 7 = some [1, 2, 3] ∧ t.package 8 = none := by
  have hruns : (Runs.exec step empty installing).isSome = true := by decide
  obtain ⟨t, h⟩ := Option.isSome_iff_exists.mp hruns
  obtain ⟨hsound, hwhole⟩ := package_whole empty_sound installing_alone h
  exact ⟨t, h, hsound, (hwhole 7).trans (by decide), (hwhole 8).trans (by decide)⟩

/-- Two writes of a source that overlap leave what neither was given. -/
theorem overlapping_torn : (Runs.exec step empty [.create 0 7 [1, 2], .put 0 1, .create 1 7 [3, 4],
    .put 1 2, .put 0 1, .rename 0]).bind (fun s => s.package 7) = some [3, 2] := by
  decide

end PackageState

end Packaging
end Nyuka
