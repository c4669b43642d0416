import Mathlib.Logic.Function.Basic
import Nyuka.Foundation.Runs
import Nyuka.Packaging.Store

/-! Placing chapters on the library volume, step by step: several calls of `write_chapter` at
once, and readers that open what is there. An archive is written to a file of its own in the
staging directory, which the last step moves into its place. -/
namespace Nyuka
namespace Packaging
open Runs

section Calls

/-- An error of the operating system. -/
inductive IoError where
  | storageFull
  | other (detail : String)
deriving DecidableEq, Repr

/-- `io`: disk exhaustion is its own failure. -/
def io : IoError → StoreError
  | .storageFull => .outOfSpace
  | .other detail => .io detail

/-- What one call of `write_chapter` is given. -/
structure ChapterJob where
  spec : ChapterSpec
  pages : List PageImage

/-- A temporary file: what it is for, its name in the staging directory and the file itself. -/
structure Temp where
  relative : String
  bytes : Bytes
  name : ℕ
  file : ℕ
deriving DecidableEq

/-- How far a call has come. -/
inductive Stage where
  | start
  | resolved (relative : String)
  | packed (relative : String) (bytes : Bytes)
  | writing (temp : Temp) (count : ℕ)
  | synced (temp : Temp)
  | parented (temp : Temp)
  | removing (temp : Temp) (e : StoreError)
  | finished (result : Except StoreError Placed)

/-- The temporary file the call works on, and how much of the archive is in it. -/
def Stage.temp : Stage → Option (Temp × ℕ)
  | writing temp count => some (temp, count)
  | synced temp | parented temp | removing temp _ => some (temp, temp.bytes.length)
  | _ => none

/-- Names of the chapter, and the containment check before anything is written. -/
def resolveStage (crates : Crates) (job : ChapterJob) (answer : Except PathError Unit) : Stage :=
  match relativePath crates job.spec.seriesTitle job.spec.disambiguator job.spec.volume
      job.spec.number with
  | .error e => .finished (.error (.path e))
  | .ok relative =>
    match answer with
    | .error e => .finished (.error (.path e))
    | .ok () => .resolved relative

/-- The archive is built in memory, once there is a staging directory. -/
def packStage (crates : Crates) (job : ChapterJob) (relative : String)
    (answer : Except IoError Unit) : Stage :=
  match answer with
  | .error e => .finished (.error (io e))
  | .ok () =>
    match writeCbz crates job.pages job.spec.info with
    | .error e => .finished (.error (.cbz e))
    | .ok bytes => .packed relative bytes

def placedOf (crates : Crates) (temp : Temp) : Placed where
  relativePath := temp.relative
  sizeBytes := temp.bytes.length
  checksum := checksum crates temp.bytes

end Calls

section Volume

/-- The volume, the calls at work on it and the readers. Files have numbers; names in the library
and in the staging directory refer to them. `log` is what was put in place or deleted, the latest
first, and stands for nothing the program stores. -/
structure Volume where
  contents : ℕ → Bytes
  next : ℕ
  library : String → Option ℕ
  staging : ℕ → Option ℕ
  calls : ℕ → Stage
  readers : ℕ → Option (String × ℕ)
  log : List (String × Option Bytes)

/-- What somebody does, with the system's answer. -/
inductive VolumeAction where
  | resolve (call : ℕ) (answer : Except PathError Unit)
  | createStaging (call : ℕ) (answer : Except IoError Unit)
  | createTemp (call name : ℕ) (answer : Except IoError Unit)
  | write (call : ℕ) (answer : Except IoError ℕ)
  | sync (call : ℕ) (answer : Except IoError Unit)
  | createParent (call : ℕ) (answer : Except IoError Unit)
  | rename (call : ℕ) (answer : Except IoError Unit)
  | removeTemp (call : ℕ) (answer : Except IoError Unit)
  | delete (path : String)
  | openChapter (reader : ℕ) (path : String)

/-- What a path of the library holds. -/
def Volume.content (s : Volume) (path : String) : Option Bytes := (s.library path).map s.contents

/-- What a name of the staging directory holds. -/
def Volume.staged (s : Volume) (name : ℕ) : Option Bytes := (s.staging name).map s.contents

def Volume.become (s : Volume) (call : ℕ) (stage : Stage) : Volume :=
  { s with calls := Function.update s.calls call stage }

/-- `File::create` in the staging directory. -/
def Volume.createTemp (s : Volume) (call name : ℕ) (relative : String) (bytes : Bytes) : Volume :=
  { s with
    contents := Function.update s.contents s.next []
    next := s.next + 1
    staging := Function.update s.staging name (some s.next)
    calls := Function.update s.calls call (.writing ⟨relative, bytes, name, s.next⟩ 0) }

/-- Some more bytes of the archive are written. -/
def Volume.append (s : Volume) (call : ℕ) (temp : Temp) (count more : ℕ) : Volume :=
  { s with
    contents := Function.update s.contents temp.file
      (s.contents temp.file ++ (temp.bytes.drop count).take more)
    calls := Function.update s.calls call (.writing temp (count + more)) }

/-- The rename: the name in the staging directory goes, the file is in its place. -/
def Volume.place (s : Volume) (crates : Crates) (call : ℕ) (temp : Temp) : Volume :=
  { s with
    library := Function.update s.library temp.relative (some temp.file)
    staging := Function.update s.staging temp.name none
    calls := Function.update s.calls call (.finished (.ok (placedOf crates temp)))
    log := (temp.relative, some temp.bytes) :: s.log }

def Volume.remove (s : Volume) (call : ℕ) (temp : Temp) (e : StoreError) : Volume :=
  { s with
    staging := Function.update s.staging temp.name none
    calls := Function.update s.calls call (.finished (.error e)) }

/-- `LibraryStore::delete` -/
def Volume.delete (s : Volume) (path : String) : Volume :=
  { s with
    library := Function.update s.library path none
    log := (path, none) :: s.log }

variable (crates : Crates) (jobs : ℕ → ChapterJob)

/-- One step. The temporary names are UUIDs, so a new one is not in use. -/
def placeStep (s : Volume) : VolumeAction → Option Volume
  | .resolve call answer =>
    match s.calls call with
    | .start => some (s.become call (resolveStage crates (jobs call) answer))
    | _ => none
  | .createStaging call answer =>
    match s.calls call with
    | .resolved relative => some (s.become call (packStage crates (jobs call) relative answer))
    | _ => none
  | .createTemp call name answer =>
    match s.calls call with
    | .packed relative bytes =>
      match answer with
      | .error e => some (s.become call (.finished (.error (io e))))
      | .ok () =>
        if s.staging name = none then some (s.createTemp call name relative bytes) else none
    | _ => none
  | .write call answer =>
    match s.calls call with
    | .writing temp count =>
      match answer with
      | .error e =>
        if count < temp.bytes.length then some (s.become call (.finished (.error (io e)))) else none
      | .ok more =>
        if 0 < more ∧ count + more ≤ temp.bytes.length then some (s.append call temp count more)
        else none
    | _ => none
  | .sync call answer =>
    match s.calls call with
    | .writing temp count =>
      if count = temp.bytes.length then
        match answer with
        | .error e => some (s.become call (.finished (.error (io e))))
        | .ok () => some (s.become call (.synced temp))
      else none
    | _ => none
  | .createParent call answer =>
    match s.calls call with
    | .synced temp =>
      match answer with
      | .error e => some (s.become call (.finished (.error (io e))))
      | .ok () => some (s.become call (.parented temp))
    | _ => none
  | .rename call answer =>
    match s.calls call with
    | .parented temp =>
      match answer with
      | .error e => some (s.become call (.removing temp (io e)))
      | .ok () => some (s.place crates call temp)
    | _ => none
  | .removeTemp call answer =>
    match s.calls call with
    | .removing temp e =>
      match answer with
      -- the removal's own failure is ignored
      | .error _ => some (s.become call (.finished (.error e)))
      | .ok () => some (s.remove call temp e)
    | _ => none
  | .delete path => some (s.delete path)
  | .openChapter reader path =>
    match s.library path with
    | none => none
    | some file => some { s with readers := Function.update s.readers reader (some (path, file)) }

end Volume

section Effects
variable {crates : Crates} {jobs : ℕ → ChapterJob} {start s t : Volume} {a : VolumeAction}

/-- The job's file has this path and these bytes. -/
def Archive (crates : Crates) (job : ChapterJob) (relative : String) (bytes : Bytes) : Prop :=
  relativePath crates job.spec.seriesTitle job.spec.disambiguator job.spec.volume
      job.spec.number = .ok relative ∧
    writeCbz crates job.pages job.spec.info = .ok bytes

/-- What a call works on belongs to its job. -/
structure Stage.FromJob (crates : Crates) (job : ChapterJob) (stage : Stage) : Prop where
  resolved : ∀ relative, stage = .resolved relative →
    relativePath crates job.spec.seriesTitle job.spec.disambiguator job.spec.volume
      job.spec.number = .ok relative
  packed : ∀ relative bytes, stage = .packed relative bytes → Archive crates job relative bytes
  temp : ∀ temp count, stage.temp = some (temp, count) → Archive crates job temp.relative temp.bytes

/-- The system does not fail while there is a temporary file, the rename apart, after which the
file is removed. -/
def tidy : VolumeAction → Bool
  | .write _ (.error _) | .sync _ (.error _) | .createParent _ (.error _)
  | .removeTemp _ (.error _) => false
  | _ => true

/-- What a step does to the volume, by what happens to the temporary files. -/
inductive Effect (crates : Crates) (jobs : ℕ → ChapterJob) (s : Volume) : Bool → Volume → Prop
  | quiet (call : ℕ) (stage : Stage) (hfrom : (s.calls call).temp = none)
      (hbusy : ∀ placed, s.calls call ≠ .finished (.ok placed)) (hto : stage.temp = none)
      (hfail : ∀ placed, stage ≠ .finished (.ok placed))
      (hjob : (s.calls call).FromJob crates (jobs call) → stage.FromJob crates (jobs call)) :
      Effect crates jobs s true (s.become call stage)
  | created (call name : ℕ) (relative : String) (bytes : Bytes)
      (hfrom : s.calls call = .packed relative bytes) (hname : s.staging name = none) :
      Effect crates jobs s true (s.createTemp call name relative bytes)
  | appended (call : ℕ) (temp : Temp) (count more : ℕ) (hfrom : s.calls call = .writing temp count)
      (hmore : count + more ≤ temp.bytes.length) :
      Effect crates jobs s true (s.append call temp count more)
  | kept (call : ℕ) (stage : Stage) (temp : Temp)
      (hfrom : (s.calls call).temp = some (temp, temp.bytes.length))
      (hto : stage.temp = some (temp, temp.bytes.length)) :
      Effect crates jobs s true (s.become call stage)
  | dropped (call : ℕ) (temp : Temp) (count : ℕ) (e : StoreError)
      (hfrom : (s.calls call).temp = some (temp, count)) :
      Effect crates jobs s false (s.become call (.finished (.error e)))
  | placed (call : ℕ) (temp : Temp) (hfrom : s.calls call = .parented temp) :
      Effect crates jobs s true (s.place crates call temp)
  | removed (call : ℕ) (temp : Temp) (e : StoreError) (hfrom : s.calls call = .removing temp e) :
      Effect crates jobs s true (s.remove call temp e)
  | deleted (path : String) : Effect crates jobs s true (s.delete path)
  | opened (reader : ℕ) (path : String) (file : ℕ) (hfile : s.library path = some file) :
      Effect crates jobs s true
        { s with readers := Function.update s.readers reader (some (path, file)) }

theorem fromJob_finished (crates : Crates) (job : ChapterJob) (result : Except StoreError Placed) :
    (Stage.finished result).FromJob crates job where
  resolved relative h := by cases h
  packed relative bytes h := by cases h
  temp temp count h := by cases h

theorem quiet_resolve {call : ℕ} (hcall : s.calls call = .start)
    (answer : Except PathError Unit) :
    Effect crates jobs s true (s.become call (resolveStage crates (jobs call) answer)) := by
  have hfrom : (s.calls call).temp = none := by rw [hcall]; rfl
  have hbusy : ∀ placed, s.calls call ≠ .finished (.ok placed) := by rw [hcall]; simp
  unfold resolveStage
  cases hrelative : relativePath crates (jobs call).spec.seriesTitle (jobs call).spec.disambiguator
      (jobs call).spec.volume (jobs call).spec.number with
  | error e =>
    exact .quiet _ _ hfrom hbusy rfl (by simp) fun _ => fromJob_finished _ _ _
  | ok relative =>
    cases answer with
    | error e => exact .quiet _ _ hfrom hbusy rfl (by simp) fun _ => fromJob_finished _ _ _
    | ok u =>
      refine .quiet _ _ hfrom hbusy rfl (by simp) fun _ => ⟨fun r hr => ?_, ?_, ?_⟩
      · cases hr
        exact hrelative
      · simp
      · simp [Stage.temp]

theorem quiet_createStaging {call : ℕ} {relative : String}
    (hcall : s.calls call = .resolved relative)
    (answer : Except IoError Unit) :
    Effect crates jobs s true (s.become call (packStage crates (jobs call) relative answer)) := by
  have hfrom : (s.calls call).temp = none := by rw [hcall]; rfl
  have hbusy : ∀ placed, s.calls call ≠ .finished (.ok placed) := by rw [hcall]; simp
  unfold packStage
  cases answer with
  | error e => exact .quiet _ _ hfrom hbusy rfl (by simp) fun _ => fromJob_finished _ _ _
  | ok u =>
    cases hbytes : writeCbz crates (jobs call).pages (jobs call).spec.info with
    | error e => exact .quiet _ _ hfrom hbusy rfl (by simp) fun _ => fromJob_finished _ _ _
    | ok bytes =>
      refine .quiet _ _ hfrom hbusy rfl (by simp) fun hjob => ⟨?_, fun r b hrb => ?_, ?_⟩
      · simp
      · cases hrb
        exact ⟨hjob.resolved relative hcall, hbytes⟩
      · simp [Stage.temp]

theorem effect_createTemp {call name : ℕ} {answer : Except IoError Unit}
    (h : placeStep crates jobs s (.createTemp call name answer) = some t) :
    Effect crates jobs s (tidy (.createTemp call name answer)) t := by
  simp only [placeStep] at h
  split at h
  · next relative bytes hcall =>
    cases answer with
    | error e =>
      cases h
      exact .quiet _ _ (by rw [hcall]; rfl) (by rw [hcall]; simp) rfl (by simp)
        fun _ => fromJob_finished _ _ _
    | ok u =>
      simp only at h
      split at h
      · cases h
        exact .created _ _ _ _ hcall ‹_›
      · cases h
  · cases h

theorem effect_write {call : ℕ} {answer : Except IoError ℕ}
    (h : placeStep crates jobs s (.write call answer) = some t) :
    Effect crates jobs s (tidy (.write call answer)) t := by
  simp only [placeStep] at h
  split at h
  · next temp count hcall =>
    cases answer with
    | error e =>
      simp only at h
      split at h
      · cases h
        exact .dropped _ temp count _ (by rw [hcall]; rfl)
      · cases h
    | ok more =>
      simp only at h
      split at h
      · next hmore =>
        cases h
        exact .appended _ _ _ _ hcall hmore.2
      · cases h
  · cases h

theorem effect_sync {call : ℕ} {answer : Except IoError Unit}
    (h : placeStep crates jobs s (.sync call answer) = some t) :
    Effect crates jobs s (tidy (.sync call answer)) t := by
  simp only [placeStep] at h
  split at h
  · next temp count hcall =>
    split at h
    · next hcount =>
      subst hcount
      cases answer with
      | error e =>
        cases h
        exact .dropped _ temp _ _ (by rw [hcall]; rfl)
      | ok u =>
        cases h
        exact .kept _ _ temp (by rw [hcall]; rfl) rfl
    · cases h
  · cases h

theorem effect_createParent {call : ℕ} {answer : Except IoError Unit}
    (h : placeStep crates jobs s (.createParent call answer) = some t) :
    Effect crates jobs s (tidy (.createParent call answer)) t := by
  simp only [placeStep] at h
  split at h
  · next temp hcall =>
    cases answer with
    | error e =>
      cases h
      exact .dropped _ temp _ _ (by rw [hcall]; rfl)
    | ok u =>
      cases h
      exact .kept _ _ temp (by rw [hcall]; rfl) rfl
  · cases h

theorem effect_rename {call : ℕ} {answer : Except IoError Unit}
    (h : placeStep crates jobs s (.rename call answer) = some t) :
    Effect crates jobs s (tidy (.rename call answer)) t := by
  simp only [placeStep] at h
  split at h
  · next temp hcall =>
    cases answer with
    | error e =>
      cases h
      exact .kept _ _ temp (by rw [hcall]; rfl) rfl
    | ok u =>
      cases h
      exact .placed _ _ hcall
  · cases h

private theorem effect_removeTemp {call : ℕ} {answer : Except IoError Unit}
    (h : placeStep crates jobs s (.removeTemp call answer) = some t) :
    Effect crates jobs s (tidy (.removeTemp call answer)) t := by
  simp only [placeStep] at h
  split at h
  · next temp e hcall =>
    cases answer with
    | error e' =>
      cases h
      exact .dropped _ temp _ _ (by rw [hcall]; rfl)
    | ok u =>
      cases h
      exact .removed _ _ _ hcall
  · cases h

/-- Every step has one of the effects. -/
theorem step_effect (h : placeStep crates jobs s a = some t) : Effect crates jobs s (tidy a) t := by
  cases a with
  | resolve call answer =>
    simp only [placeStep] at h
    split at h
    · next hcall =>
      cases h
      exact quiet_resolve hcall answer
    · cases h
  | createStaging call answer =>
    simp only [placeStep] at h
    split at h
    · next relative hcall =>
      cases h
      exact quiet_createStaging hcall answer
    · cases h
  | createTemp call name answer => exact effect_createTemp h
  | write call answer => exact effect_write h
  | sync call answer => exact effect_sync h
  | createParent call answer => exact effect_createParent h
  | rename call answer => exact effect_rename h
  | removeTemp call answer => exact effect_removeTemp h
  | delete path =>
    cases h
    exact .deleted path
  | openChapter reader path =>
    simp only [placeStep] at h
    split at h
    · cases h
    · next file hfile =>
      cases h
      exact .opened _ _ _ hfile

theorem exists_effect (h : placeStep crates jobs s a = some t) :
    ∃ b, Effect crates jobs s b t := ⟨tidy a, step_effect h⟩

end Effects

section Tracked
variable {crates : Crates} {jobs : ℕ → ChapterJob} {start s t : Volume} {call file : ℕ}
  {stage : Stage} {temp : Temp} {count : ℕ}

/-- Nobody writes to the file any more. -/
def Sealed (s : Volume) (file : ℕ) : Prop :=
  file < s.next ∧ ∀ call temp count, (s.calls call).temp = some (temp, count) → temp.file ≠ file

/-- Every call has its temporary file to itself, with as much of the archive in it as it has
written, and the files that readers can open are not written to. -/
structure Tracked (crates : Crates) (jobs : ℕ → ChapterJob) (start s : Volume) : Prop where
  origin : ∀ call, (s.calls call).FromJob crates (jobs call)
  named : ∀ call temp count, (s.calls call).temp = some (temp, count) →
    s.staging temp.name = some temp.file ∧ start.staging temp.name = none
  written : ∀ call temp count, (s.calls call).temp = some (temp, count) →
    temp.file < s.next ∧ s.contents temp.file = temp.bytes.take count
  apart : ∀ call other temp temp' count count', (s.calls call).temp = some (temp, count) →
    (s.calls other).temp = some (temp', count') → temp.file = temp'.file → call = other
  library : ∀ path file, s.library path = some file → Sealed s file
  readers : ∀ reader path file, s.readers reader = some (path, file) → Sealed s file
  left : ∀ name file, start.staging name = some file →
    s.staging name = some file ∧ Sealed s file ∧ s.contents file = start.contents file

theorem temp_update {calls : ℕ → Stage} {other : ℕ} {x : Temp × ℕ} :
    (Function.update calls call stage other).temp = some x ↔
      (other = call ∧ stage.temp = some x) ∨ (other ≠ call ∧ (calls other).temp = some x) := by
  by_cases h : other = call
  · subst h
    simp
  · simp [h]

theorem fromJob_update {calls : ℕ → Stage} (h : ∀ call, (calls call).FromJob crates (jobs call))
    (hstage : stage.FromJob crates (jobs call)) (other : ℕ) :
    (Function.update calls call stage other).FromJob crates (jobs other) := by
  by_cases hother : other = call
  · subst hother
    simpa using hstage
  · simpa [hother] using h other

/-- A call that goes on with its temporary file goes on with its job. -/
theorem fromJob_kept {job : ChapterJob} {stage' : Stage} {count' : ℕ}
    (h : stage.FromJob crates job) (hfrom : stage.temp = some (temp, count))
    (hto : stage'.temp = some (temp, count')) : stage'.FromJob crates job where
  resolved relative heq := by
    rw [heq] at hto
    cases hto
  packed relative bytes heq := by
    rw [heq] at hto
    cases hto
  temp u k hu := by
    rw [hto] at hu
    cases hu
    exact h.temp temp count hfrom

/-- The names of two calls' files differ as the files do. -/
theorem Tracked.names_apart (hT : Tracked crates jobs start s) {other : ℕ} {temp' : Temp}
    {count' : ℕ} (h : (s.calls call).temp = some (temp, count))
    (h' : (s.calls other).temp = some (temp', count')) (hname : temp.name = temp'.name) :
    call = other := by
  apply hT.apart _ _ _ _ _ _ h h'
  have hfile := (hT.named _ _ _ h).1
  rw [hname, (hT.named _ _ _ h').1] at hfile
  exact (Option.some.inj hfile).symm

/-- What is known of a temporary file stays known when its call moves on with it or lets it go. -/
theorem temp_become (hto : stage.temp = none ∨ stage.temp = (s.calls call).temp) {other : ℕ}
    {x : Temp × ℕ} (h : (Function.update s.calls call stage other).temp = some x) :
    (s.calls other).temp = some x := by
  rcases temp_update.mp h with ⟨rfl, hx⟩ | ⟨-, hx⟩
  · rcases hto with hnone | hsame
    · rw [hnone] at hx
      cases hx
    · rwa [hsame] at hx
  · exact hx

theorem Tracked.become (hT : Tracked crates jobs start s)
    (hto : stage.temp = none ∨ stage.temp = (s.calls call).temp)
    (hjob : stage.FromJob crates (jobs call)) :
    Tracked crates jobs start (s.become call stage) := by
  have hsealed (file : ℕ) (h : Sealed s file) : Sealed (s.become call stage) file :=
    ⟨h.1, fun other temp count htemp => h.2 other temp count (temp_become hto htemp)⟩
  exact {
    origin := fromJob_update hT.origin hjob
    named := fun other temp count h => hT.named other temp count (temp_become hto h)
    written := fun other temp count h => hT.written other temp count (temp_become hto h)
    apart := fun c o temp temp' k k' h h' =>
      hT.apart c o temp temp' k k' (temp_become hto h) (temp_become hto h')
    library := fun path file h => hsealed file (hT.library path file h)
    readers := fun reader path file h => hsealed file (hT.readers reader path file h)
    left := fun name file h => by
      obtain ⟨hname, hold, hsame⟩ := hT.left name file h
      exact ⟨hname, hsealed file hold, hsame⟩ }

theorem Tracked.createTemp (hT : Tracked crates jobs start s) {name : ℕ} {relative : String}
    {bytes : Bytes} (hcall : s.calls call = .packed relative bytes)
    (hname : s.staging name = none) :
    Tracked crates jobs start (s.createTemp call name relative bytes) := by
  have hold (other : ℕ) (temp : Temp) (count : ℕ)
      (h : ((s.createTemp call name relative bytes).calls other).temp = some (temp, count)) :
      (other = call ∧ temp = ⟨relative, bytes, name, s.next⟩ ∧ count = 0) ∨
        (other ≠ call ∧ (s.calls other).temp = some (temp, count)) := by
    rcases temp_update.mp h with ⟨hother, hx⟩ | hx
    · cases hx
      exact Or.inl ⟨hother, rfl, rfl⟩
    · exact Or.inr hx
  have hsealed (file : ℕ) (h : Sealed s file) :
      Sealed (s.createTemp call name relative bytes) file := by
    refine ⟨Nat.lt_succ_of_lt h.1, fun other temp count htemp => ?_⟩
    rcases hold other temp count htemp with ⟨-, rfl, -⟩ | ⟨-, h'⟩
    · exact Nat.ne_of_gt h.1
    · exact h.2 other temp count h'
  have hcontents (file : ℕ) (h : file < s.next) :
      (s.createTemp call name relative bytes).contents file = s.contents file :=
    Function.update_of_ne (Nat.ne_of_lt h) _ _
  constructor
  · apply fromJob_update hT.origin
    refine ⟨by simp, by simp, fun temp count h => ?_⟩
    cases h
    exact (hT.origin call).packed relative bytes hcall
  · intro other temp count h
    rcases hold other temp count h with ⟨-, rfl, -⟩ | ⟨-, h'⟩
    · refine ⟨Function.update_self _ _ _, ?_⟩
      cases hstart : start.staging name with
      | none => rfl
      | some file =>
        have hleft := (hT.left name file hstart).1
        rw [hname] at hleft
        cases hleft
    · have hnamed := hT.named other temp count h'
      refine ⟨?_, hnamed.2⟩
      show Function.update s.staging name (some s.next) temp.name = some temp.file
      rw [Function.update_of_ne, hnamed.1]
      intro heq
      rw [heq, hname] at hnamed
      cases hnamed.1
  · intro other temp count h
    rcases hold other temp count h with ⟨-, rfl, rfl⟩ | ⟨-, h'⟩
    · exact ⟨Nat.lt_succ_self _, Function.update_self _ _ _⟩
    · obtain ⟨hlt, hbytes⟩ := hT.written other temp count h'
      exact ⟨Nat.lt_succ_of_lt hlt, (hcontents _ hlt).trans hbytes⟩
  · intro c o temp temp' k k' h h' hfile
    rcases hold c temp k h with ⟨rfl, rfl, -⟩ | ⟨-, hc⟩
    · rcases hold o temp' k' h' with ⟨rfl, -, -⟩ | ⟨-, ho⟩
      · rfl
      · exact absurd hfile.symm (Nat.ne_of_lt (hT.written o temp' k' ho).1)
    · rcases hold o temp' k' h' with ⟨rfl, rfl, -⟩ | ⟨-, ho⟩
      · exact absurd hfile (Nat.ne_of_lt (hT.written c temp k hc).1)
      · exact hT.apart c o temp temp' k k' hc ho hfile
  · exact fun path file h => hsealed file (hT.library path file h)
  · exact fun reader path file h => hsealed file (hT.readers reader path file h)
  · intro n file h
    obtain ⟨hn, hfile, hsame⟩ := hT.left n file h
    refine ⟨?_, hsealed file hfile, (hcontents file hfile.1).trans hsame⟩
    show Function.update s.staging name (some s.next) n = some file
    rw [Function.update_of_ne, hn]
    rintro rfl
    rw [hname] at hn
    cases hn

theorem Tracked.append (hT : Tracked crates jobs start s) {more : ℕ}
    (hcall : s.calls call = .writing temp count) :
    Tracked crates jobs start (s.append call temp count more) := by
  have hheld : (s.calls call).temp = some (temp, count) := by rw [hcall]; rfl
  have hold (other : ℕ) (u : Temp) (k : ℕ)
      (h : ((s.append call temp count more).calls other).temp = some (u, k)) :
      (other = call ∧ u = temp ∧ k = count + more) ∨
        (other ≠ call ∧ (s.calls other).temp = some (u, k)) := by
    rcases temp_update.mp h with ⟨hother, hx⟩ | hx
    · cases hx
      exact Or.inl ⟨hother, rfl, rfl⟩
    · exact Or.inr hx
  have hkept (other : ℕ) (u : Temp) (k : ℕ)
      (h : ((s.append call temp count more).calls other).temp = some (u, k)) :
      ∃ k', (s.calls other).temp = some (u, k') := by
    rcases hold other u k h with ⟨rfl, rfl, -⟩ | ⟨-, h'⟩
    · exact ⟨count, hheld⟩
    · exact ⟨k, h'⟩
  have hsealed (file : ℕ) (h : Sealed s file) : Sealed (s.append call temp count more) file := by
    refine ⟨h.1, fun other u k hu => ?_⟩
    obtain ⟨k', hk'⟩ := hkept other u k hu
    exact h.2 other u k' hk'
  constructor
  · exact fromJob_update hT.origin (fromJob_kept (hT.origin call) hheld rfl)
  · intro other u k h
    obtain ⟨k', hk'⟩ := hkept other u k h
    exact hT.named other u k' hk'
  · intro other u k h
    rcases hold other u k h with ⟨rfl, rfl, rfl⟩ | ⟨hne, h'⟩
    · obtain ⟨hlt, hbytes⟩ := hT.written other u count hheld
      refine ⟨hlt, ?_⟩
      show Function.update s.contents u.file _ u.file = _
      rw [Function.update_self, hbytes, List.take_add]
    · obtain ⟨hlt, hbytes⟩ := hT.written other u k h'
      refine ⟨hlt, ?_⟩
      show Function.update s.contents temp.file _ u.file = _
      rw [Function.update_of_ne, hbytes]
      exact fun heq => hne (hT.apart other call u temp k count h' hheld heq)
  · intro c o u u' k k' h h' hfile
    obtain ⟨j, hj⟩ := hkept c u k h
    obtain ⟨j', hj'⟩ := hkept o u' k' h'
    exact hT.apart c o u u' j j' hj hj' hfile
  · exact fun path file h => hsealed file (hT.library path file h)
  · exact fun reader path file h => hsealed file (hT.readers reader path file h)
  · intro n file h
    obtain ⟨hn, hfile, hsame⟩ := hT.left n file h
    refine ⟨hn, hsealed file hfile, ?_⟩
    show Function.update s.contents temp.file _ file = _
    rw [Function.update_of_ne, hsame]
    exact fun heq => hfile.2 call temp count hheld heq.symm

/-- The call lets its temporary file go, and with it the file's name. -/
def Volume.release (s : Volume) (call : ℕ) (temp : Temp) (result : Except StoreError Placed) :
    Volume :=
  { s with
    staging := Function.update s.staging temp.name none
    calls := Function.update s.calls call (.finished result) }

theorem Tracked.release (hT : Tracked crates jobs start s)
    (hheld : (s.calls call).temp = some (temp, count)) (result : Except StoreError Placed) :
    Tracked crates jobs start (s.release call temp result) ∧
      Sealed (s.release call temp result) temp.file := by
  have hB := hT.become (Or.inl rfl) (fromJob_finished crates (jobs call) result)
  have hnamed := hT.named call temp count hheld
  refine ⟨⟨hB.origin, fun other u k h => ?_, hB.written, hB.apart, hB.library, hB.readers,
    fun n file h => ?_⟩, (hT.written call temp count hheld).1, fun other u k h => ?_⟩
  · rcases temp_update.mp h with ⟨-, hx⟩ | ⟨hne, h'⟩
    · cases hx
    · refine ⟨?_, (hT.named other u k h').2⟩
      show Function.update s.staging temp.name none u.name = some u.file
      rw [Function.update_of_ne, (hT.named other u k h').1]
      exact fun heq => hne (hT.names_apart h' hheld heq)
  · obtain ⟨hn, hfile, hsame⟩ := hB.left n file h
    refine ⟨?_, hfile, hsame⟩
    show Function.update s.staging temp.name none n = some file
    rw [Function.update_of_ne]
    · exact hn
    · rintro rfl
      rw [hnamed.2] at h
      cases h
  · rcases temp_update.mp h with ⟨-, hx⟩ | ⟨hne, h'⟩
    · cases hx
    · exact fun heq => hne (hT.apart other call u temp k count h' hheld heq)

/-- The library and the readers may refer to any file that is not written to. -/
theorem Tracked.refer (hT : Tracked crates jobs start s) {library : String → Option ℕ}
    {readers : ℕ → Option (String × ℕ)} {log : List (String × Option Bytes)}
    (hlibrary : ∀ path file, library path = some file → Sealed s file)
    (hreaders : ∀ reader path file, readers reader = some (path, file) → Sealed s file) :
    Tracked crates jobs start { s with library := library, readers := readers, log := log } :=
  ⟨hT.origin, hT.named, hT.written, hT.apart, hlibrary, hreaders, hT.left⟩

theorem Tracked.step {a : VolumeAction} (hT : Tracked crates jobs start s)
    (h : placeStep crates jobs s a = some t) : Tracked crates jobs start t := by
  obtain ⟨b, heffect⟩ := exists_effect h
  cases heffect with
  | quiet call stage hfrom hbusy hto hfail hjob =>
    exact hT.become (Or.inl hto) (hjob (hT.origin call))
  | created call name relative bytes hfrom hname => exact hT.createTemp hfrom hname
  | appended call temp count more hfrom hmore => exact hT.append hfrom
  | kept call stage temp hfrom hto =>
    exact hT.become (Or.inr (hto.trans hfrom.symm)) (fromJob_kept (hT.origin call) hfrom hto)
  | dropped call temp count e hfrom => exact hT.become (Or.inl rfl) (fromJob_finished _ _ _)
  | placed call temp hfrom =>
    have hheld : (s.calls call).temp = some (temp, temp.bytes.length) := by rw [hfrom]; rfl
    obtain ⟨hR, hsealed⟩ := hT.release hheld (.ok (placedOf crates temp))
    refine hR.refer (fun path file h => ?_) hR.readers
    by_cases hpath : path = temp.relative
    · subst hpath
      rw [Function.update_self] at h
      cases h
      exact hsealed
    · rw [Function.update_of_ne hpath] at h
      exact hR.library path file h
  | removed call temp e hfrom =>
    have hheld : (s.calls call).temp = some (temp, temp.bytes.length) := by rw [hfrom]; rfl
    exact (hT.release hheld (.error e)).1
  | deleted path =>
    refine hT.refer (fun p file h => ?_) hT.readers
    by_cases hpath : p = path
    · subst hpath
      rw [Function.update_self] at h
      cases h
    · rw [Function.update_of_ne hpath] at h
      exact hT.library p file h
  | opened reader path file hfile =>
    refine hT.refer hT.library (fun r p f h => ?_)
    by_cases hreader : r = reader
    · subst hreader
      rw [Function.update_self] at h
      cases h
      exact hT.library path file hfile
    · rw [Function.update_of_ne hreader] at h
      exact hT.readers r p f h

end Tracked

section Atomic
variable {crates : Crates} {jobs : ℕ → ChapterJob} {start s t : Volume} {a : VolumeAction}

/-- What a path holds after what was put in place and deleted. -/
def latest (start : Volume) : List (String × Option Bytes) → String → Option Bytes
  | [], path => start.content path
  | (place, held) :: log, path => if path = place then held else latest start log path

/-- Calls that succeed put a complete archive in its place and calls that fail change nothing;
a reader sees what was there at the start or an archive that was put in place. -/
structure Atomic (crates : Crates) (jobs : ℕ → ChapterJob) (start s : Volume) : Prop where
  content : ∀ path, s.content path = latest start s.log path
  complete : ∀ path bytes, (path, some bytes) ∈ s.log → ∃ call placed,
    s.calls call = .finished (.ok placed) ∧ placed.relativePath = path ∧
      Archive crates (jobs call) path bytes
  success : ∀ call placed, s.calls call = .finished (.ok placed) → ∃ bytes,
    (placed.relativePath, some bytes) ∈ s.log ∧
      Archive crates (jobs call) placed.relativePath bytes ∧ placed.sizeBytes = bytes.length ∧
      placed.checksum = checksum crates bytes
  read : ∀ reader path file, s.readers reader = some (path, file) →
    (path, some (s.contents file)) ∈ s.log ∨ start.content path = some (s.contents file)

/-- The staging directory is as before, the temporary files of the calls at work apart. -/
def Clean (start s : Volume) : Prop :=
  ∀ name, (∀ call temp count, (s.calls call).temp = some (temp, count) → temp.name ≠ name) →
    s.staged name = start.staged name

/-- Nothing is under way, and the files have numbers in use. -/
structure Started (start : Volume) : Prop where
  idle : ∀ call, start.calls call = .start
  unread : ∀ reader, start.readers reader = none
  unlogged : start.log = []
  library : ∀ path file, start.library path = some file → file < start.next
  staging : ∀ name file, start.staging name = some file → file < start.next

theorem sealed_started (hstart : Started start) {file : ℕ} (h : file < start.next) :
    Sealed start file := by
  refine ⟨h, fun call temp count htemp => ?_⟩
  rw [hstart.idle] at htemp
  cases htemp

theorem tracked_started (hstart : Started start) : Tracked crates jobs start start where
  origin call := by
    rw [hstart.idle]
    exact ⟨by simp, by simp, by simp [Stage.temp]⟩
  named call temp count h := by
    rw [hstart.idle] at h
    cases h
  written call temp count h := by
    rw [hstart.idle] at h
    cases h
  apart call other temp temp' count count' h := by
    rw [hstart.idle] at h
    cases h
  library path file h := sealed_started hstart (hstart.library path file h)
  readers reader path file h := by
    rw [hstart.unread] at h
    cases h
  left name file h := ⟨h, sealed_started hstart (hstart.staging name file h), rfl⟩

theorem atomic_started (hstart : Started start) : Atomic crates jobs start start where
  content path := by
    rw [hstart.unlogged]
    rfl
  complete path bytes h := by
    rw [hstart.unlogged] at h
    cases h
  success call placed h := by
    rw [hstart.idle] at h
    cases h
  read reader path file h := by
    rw [hstart.unread] at h
    cases h

theorem contents_step (h : placeStep crates jobs s a = some t) {file : ℕ} (hfile : Sealed s file) :
    t.contents file = s.contents file := by
  obtain ⟨b, heffect⟩ := exists_effect h
  cases heffect with
  | created call name relative bytes hfrom hname =>
    exact Function.update_of_ne (Nat.ne_of_lt hfile.1) _ _
  | appended call temp count more hfrom hmore =>
    have hheld : (s.calls call).temp = some (temp, count) := by rw [hfrom]; rfl
    exact Function.update_of_ne (hfile.2 call temp count hheld).symm _ _
  | _ => rfl

/-- Where the library names the same file, a path holds the same as before the step. -/
theorem content_of_library (hT : Tracked crates jobs start s)
    (h : placeStep crates jobs s a = some t) {path : String}
    (hlibrary : t.library path = s.library path) : t.content path = s.content path := by
  unfold Volume.content
  rw [hlibrary]
  cases hfile : s.library path with
  | none => rfl
  | some file =>
    rw [Option.map_some, Option.map_some, contents_step h (hT.library path file hfile)]

theorem content_place (hT : Tracked crates jobs start s) {call : ℕ} {temp : Temp}
    (hcall : s.calls call = .parented temp)
    (h : placeStep crates jobs s a = some (s.place crates call temp)) :
    (s.place crates call temp).content = Files.place s.content temp.relative temp.bytes := by
  have hheld : (s.calls call).temp = some (temp, temp.bytes.length) := by rw [hcall]; rfl
  funext path
  unfold Files.place
  by_cases hpath : path = temp.relative
  · subst hpath
    have hlibrary : (s.place crates call temp).library temp.relative = some temp.file :=
      Function.update_self _ _ _
    have hbytes : s.contents temp.file = temp.bytes := by
      rw [(hT.written call temp _ hheld).2, List.take_length]
    rw [if_pos rfl, Volume.content, hlibrary, Option.map_some]
    exact congrArg some hbytes
  · rw [if_neg hpath]
    exact content_of_library hT h (Function.update_of_ne hpath _ _)

/-- What a path holds is changed by nothing but a rename that succeeds and a deletion. -/
theorem content_step (hT : Tracked crates jobs start s) (h : placeStep crates jobs s a = some t) :
    (∃ call temp, s.calls call = .parented temp ∧ t = s.place crates call temp ∧
        t.content = Files.place s.content temp.relative temp.bytes) ∨
      (∃ deleted, t = s.delete deleted ∧
        ∀ path, t.content path = if path = deleted then none else s.content path) ∨
      (t.log = s.log ∧ t.content = s.content) := by
  obtain ⟨b, heffect⟩ := exists_effect h
  cases heffect with
  | placed call temp hfrom => exact Or.inl ⟨call, temp, hfrom, rfl, content_place hT hfrom h⟩
  | deleted gone =>
    refine Or.inr (Or.inl ⟨gone, rfl, fun path => ?_⟩)
    by_cases hpath : path = gone
    · subst hpath
      have hlibrary : (s.delete path).library path = none := Function.update_self _ _ _
      rw [if_pos rfl, Volume.content, hlibrary, Option.map_none]
    · rw [if_neg hpath]
      exact content_of_library hT h (Function.update_of_ne hpath _ _)
  | _ => exact Or.inr (Or.inr ⟨rfl, funext fun path => content_of_library hT h rfl⟩)

/-- A call that has succeeded stays so. -/
theorem finished_step (h : placeStep crates jobs s a = some t) {call : ℕ} {placed : Placed}
    (hcall : s.calls call = .finished (.ok placed)) : t.calls call = .finished (.ok placed) := by
  have hidle : (s.calls call).temp = none := by rw [hcall]; rfl
  have hkeep {other : ℕ} {stage : Stage} (hne : call ≠ other) :
      Function.update s.calls other stage call = .finished (.ok placed) := by
    rw [Function.update_of_ne hne, hcall]
  have hother {other : ℕ} {x : Temp × ℕ} (hx : (s.calls other).temp = some x) : call ≠ other := by
    rintro rfl
    rw [hidle] at hx
    cases hx
  obtain ⟨b, heffect⟩ := exists_effect h
  cases heffect with
  | quiet other stage hfrom hbusy hto hfail hjob =>
    apply hkeep
    rintro rfl
    exact hbusy placed hcall
  | created other name relative bytes hfrom hname =>
    apply hkeep
    rintro rfl
    rw [hcall] at hfrom
    cases hfrom
  | appended other temp count more hfrom hmore =>
    exact hkeep (hother (x := (temp, count)) (by rw [hfrom]; rfl))
  | kept other stage temp hfrom hto => exact hkeep (hother hfrom)
  | dropped other temp count e hfrom => exact hkeep (hother hfrom)
  | placed other temp hfrom =>
    exact hkeep (hother (x := (temp, temp.bytes.length)) (by rw [hfrom]; rfl))
  | removed other temp e hfrom =>
    exact hkeep (hother (x := (temp, temp.bytes.length)) (by rw [hfrom]; rfl))
  | deleted path => exact hcall
  | opened reader path file hfile => exact hcall

/-- A call succeeds by its rename only. -/
theorem succeeded_step (h : placeStep crates jobs s a = some t) {call : ℕ} {placed : Placed}
    (hcall : t.calls call = .finished (.ok placed)) : s.calls call = .finished (.ok placed) ∨
      ∃ temp, s.calls call = .parented temp ∧ t = s.place crates call temp ∧
        placed = placedOf crates temp := by
  have hupdate {other : ℕ} {stage : Stage} (hstage : ∀ p, stage ≠ .finished (.ok p))
      (hx : Function.update s.calls other stage call = .finished (.ok placed)) :
      s.calls call = .finished (.ok placed) := by
    by_cases hother : call = other
    · subst hother
      rw [Function.update_self] at hx
      exact absurd hx (hstage placed)
    · rwa [Function.update_of_ne hother] at hx
  obtain ⟨b, heffect⟩ := exists_effect h
  cases heffect with
  | quiet other stage hfrom hbusy hto hfail hjob => exact Or.inl (hupdate hfail hcall)
  | created other name relative bytes hfrom hname => exact Or.inl (hupdate (by simp) hcall)
  | appended other temp count more hfrom hmore => exact Or.inl (hupdate (by simp) hcall)
  | kept other stage temp hfrom hto =>
    refine Or.inl (hupdate (fun p hp => ?_) hcall)
    rw [hp] at hto
    cases hto
  | dropped other temp count e hfrom => exact Or.inl (hupdate (by simp) hcall)
  | placed other temp hfrom =>
    by_cases hother : call = other
    · subst hother
      have hx : Stage.finished (.ok (placedOf crates temp)) = .finished (.ok placed) := by
        rw [← hcall]
        exact (Function.update_self call _ s.calls).symm
      cases hx
      exact Or.inr ⟨temp, hfrom, rfl, rfl⟩
    · refine Or.inl ?_
      rw [← hcall]
      exact (Function.update_of_ne hother _ s.calls).symm
  | removed other temp e hfrom => exact Or.inl (hupdate (by simp) hcall)
  | deleted path => exact Or.inl hcall
  | opened reader path file hfile => exact Or.inl hcall

/-- A reader gets the file that is in the library when it opens it. -/
theorem opened_step (h : placeStep crates jobs s a = some t) {reader file : ℕ} {path : String}
    (hreader : t.readers reader = some (path, file)) :
    s.readers reader = some (path, file) ∨ s.library path = some file := by
  obtain ⟨b, heffect⟩ := exists_effect h
  cases heffect with
  | opened other path' file' hfile =>
    have hread : Function.update s.readers other (some (path', file')) reader = some (path, file) :=
      hreader
    by_cases hother : reader = other
    · rw [hother, Function.update_self] at hread
      cases hread
      exact Or.inr hfile
    · rw [Function.update_of_ne hother] at hread
      exact Or.inl hread
  | _ => exact Or.inl hreader

theorem latest_eq_some {log : List (String × Option Bytes)} {path : String} {bytes : Bytes}
    (h : latest start log path = some bytes) :
    (path, some bytes) ∈ log ∨ start.content path = some bytes := by
  induction log with
  | nil => exact Or.inr h
  | cons entry log ih =>
    obtain ⟨place, held⟩ := entry
    unfold latest at h
    split at h
    · next hpath =>
      subst hpath h
      exact Or.inl List.mem_cons_self
    · exact (ih h).imp_left (List.mem_cons_of_mem _)

theorem log_step (hT : Tracked crates jobs start s) (h : placeStep crates jobs s a = some t)
    {path : String} {held : Option Bytes} (hmem : (path, held) ∈ s.log) : (path, held) ∈ t.log := by
  rcases content_step hT h with ⟨call, temp, -, rfl, -⟩ | ⟨gone, rfl, -⟩ | ⟨hlog, -⟩
  · exact List.mem_cons_of_mem _ hmem
  · exact List.mem_cons_of_mem _ hmem
  · rw [hlog]
    exact hmem

/-- Placing chapters is atomic, whatever the system answers and in whatever order the calls go
on. -/
theorem atomic_step (hT : Tracked crates jobs start s) (hA : Atomic crates jobs start s)
    (h : placeStep crates jobs s a = some t) : Atomic crates jobs start t where
  content path := by
    rcases content_step hT h with ⟨call, temp, -, rfl, hpath⟩ | ⟨gone, rfl, hpath⟩ | ⟨hlog, hsame⟩
    · rw [hpath, Files.place, hA.content]
      rfl
    · rw [hpath, hA.content]
      rfl
    · rw [hsame, hlog]
      exact hA.content path
  complete path bytes hmem := by
    have hold (hmem : (path, some bytes) ∈ s.log) : ∃ call placed,
        t.calls call = .finished (.ok placed) ∧ placed.relativePath = path ∧
          Archive crates (jobs call) path bytes := by
      obtain ⟨call, placed, hcall, harchive⟩ := hA.complete path bytes hmem
      exact ⟨call, placed, finished_step h hcall, harchive⟩
    rcases content_step hT h with ⟨call, temp, hcall, rfl, -⟩ | ⟨gone, rfl, -⟩ | ⟨hlog, -⟩
    · rcases List.mem_cons.mp hmem with heq | hmem
      · cases heq
        exact ⟨call, placedOf crates temp, Function.update_self _ _ _, rfl,
          (hT.origin call).temp temp temp.bytes.length (by rw [hcall]; rfl)⟩
      · exact hold hmem
    · rcases List.mem_cons.mp hmem with heq | hmem
      · cases heq
      · exact hold hmem
    · rw [hlog] at hmem
      exact hold hmem
  success call placed hcall := by
    rcases succeeded_step h hcall with hbefore | ⟨temp, hfrom, rfl, rfl⟩
    · obtain ⟨bytes, hmem, harchive⟩ := hA.success call placed hbefore
      exact ⟨bytes, log_step hT h hmem, harchive⟩
    · exact ⟨temp.bytes, List.mem_cons_self,
        (hT.origin call).temp temp temp.bytes.length (by rw [hfrom]; rfl), rfl, rfl⟩
  read reader path file hreader := by
    rcases opened_step h hreader with hreader | hlibrary
    · rw [contents_step h (hT.readers reader path file hreader)]
      exact (hA.read reader path file hreader).imp_left (log_step hT h)
    · have hcontent : s.content path = some (s.contents file) := by
        rw [Volume.content, hlibrary, Option.map_some]
      rw [contents_step h (hT.library path file hlibrary)]
      rw [hA.content] at hcontent
      exact (latest_eq_some hcontent).imp_left (log_step hT h)

end Atomic

section Clean
variable {crates : Crates} {jobs : ℕ → ChapterJob} {start s t : Volume} {a : VolumeAction}

/-- The name is not that of a temporary file some call works on. -/
def Unheld (s : Volume) (name : ℕ) : Prop :=
  ∀ call temp count, (s.calls call).temp = some (temp, count) → temp.name ≠ name

/-- The staging directory has the names it had, so it holds what it held. -/
theorem clean_iff (hT : Tracked crates jobs start s) :
    Clean start s ↔ ∀ name, Unheld s name → s.staging name = start.staging name := by
  constructor
  · intro hclean name hname
    have hstaged := hclean name hname
    unfold Volume.staged at hstaged
    cases hstart : start.staging name with
    | none =>
      rw [hstart, Option.map_none, Option.map_eq_none_iff] at hstaged
      exact hstaged
    | some file => exact (hT.left name file hstart).1
  · intro h name hname
    unfold Volume.staged
    rw [h name hname]
    cases hstart : start.staging name with
    | none => rfl
    | some file => rw [Option.map_some, Option.map_some, (hT.left name file hstart).2.2]

theorem Unheld.of_become {call : ℕ} {stage : Stage} {name : ℕ}
    (hto : ∀ x, (s.calls call).temp = some x → stage.temp = some x)
    (h : Unheld (s.become call stage) name) : Unheld s name := by
  intro other temp count hheld
  by_cases hother : other = call
  · subst hother
    exact h other temp count (temp_update.mpr (Or.inl ⟨rfl, hto _ hheld⟩))
  · exact h other temp count (temp_update.mpr (Or.inr ⟨hother, hheld⟩))

/-- A call that gives its temporary file up leaves the name as it was at the start. -/
private theorem staging_release (hT : Tracked crates jobs start s)
    (hclean : ∀ name, Unheld s name → s.staging name = start.staging name) {call : ℕ}
    {temp : Temp} (result : Except StoreError Placed)
    (hheld : (s.calls call).temp = some (temp, temp.bytes.length)) (name : ℕ)
    (hname : Unheld (s.release call temp result) name) :
    (s.release call temp result).staging name = start.staging name := by
  by_cases hsame : name = temp.name
  · subst hsame
    rw [(hT.named call temp _ hheld).2]
    exact Function.update_self _ _ _
  · rw [← hclean name]
    · exact Function.update_of_ne hsame _ _
    · intro other u k hu
      by_cases hother : other = call
      · subst hother
        rw [hheld] at hu
        cases hu
        exact Ne.symm hsame
      · exact hname other u k (temp_update.mpr (Or.inr ⟨hother, hu⟩))

/-- A new temporary file has a name of its own. -/
private theorem staging_createTemp
    (hclean : ∀ name, Unheld s name → s.staging name = start.staging name) {call name : ℕ}
    {relative : String} {bytes : Bytes} (hfrom : s.calls call = .packed relative bytes)
    (other : ℕ) (hother : Unheld (s.createTemp call name relative bytes) other) :
    (s.createTemp call name relative bytes).staging other = start.staging other := by
  have hne : other ≠ name := fun heq =>
    hother call ⟨relative, bytes, name, s.next⟩ 0 (temp_update.mpr (Or.inl ⟨rfl, rfl⟩)) heq.symm
  show Function.update s.staging name (some s.next) other = _
  rw [Function.update_of_ne hne]
  apply hclean
  intro c temp count hheld
  have hc : c ≠ call := by
    rintro rfl
    rw [hfrom] at hheld
    cases hheld
  exact hother c temp count (temp_update.mpr (Or.inr ⟨hc, hheld⟩))

/-- A call that ends with its temporary file in place leaves a name that was not there. -/
private theorem left_behind (hT : Tracked crates jobs start s) {call count : ℕ} {temp : Temp}
    (e : StoreError) (hheld : (s.calls call).temp = some (temp, count)) :
    ¬ ∀ name, Unheld (s.become call (.finished (.error e))) name →
      (s.become call (.finished (.error e))).staging name = start.staging name := by
  intro hall
  obtain ⟨hnamed, hnew⟩ := hT.named call temp count hheld
  have hfree : Unheld (s.become call (.finished (.error e))) temp.name := by
    intro other u k hu heq
    rcases temp_update.mp hu with ⟨-, hx⟩ | ⟨hne, hu⟩
    · cases hx
    · exact hne (hT.names_apart hu hheld heq)
  have hgone := hall temp.name hfree
  rw [hnew] at hgone
  rw [show s.staging temp.name = none from hgone] at hnamed
  cases hnamed

/-- A step keeps the staging directory clean unless it leaves a call's temporary file behind. -/
theorem clean_step_iff (hT : Tracked crates jobs start s) (hclean : Clean start s)
    (h : placeStep crates jobs s a = some t) : Clean start t ↔ tidy a = true := by
  rw [clean_iff (hT.step h)]
  rw [clean_iff hT] at hclean
  have heffect := step_effect h
  generalize tidy a = b at heffect
  cases heffect with
  | quiet call stage hfrom hbusy hto hfail hjob =>
    refine iff_of_true (fun name hname => hclean name (hname.of_become fun x hx => ?_)) rfl
    rw [hfrom] at hx
    cases hx
  | created call name relative bytes hfrom hname =>
    exact iff_of_true (staging_createTemp hclean hfrom) rfl
  | appended call temp count more hfrom hmore =>
    refine iff_of_true (fun name hname => hclean name fun other u k hu => ?_) rfl
    by_cases hother : other = call
    · subst hother
      rw [hfrom] at hu
      cases hu
      exact hname other temp (count + more) (temp_update.mpr (Or.inl ⟨rfl, rfl⟩))
    · exact hname other u k (temp_update.mpr (Or.inr ⟨hother, hu⟩))
  | kept call stage temp hfrom hto =>
    refine iff_of_true (fun name hname => hclean name (hname.of_become fun x hx => ?_)) rfl
    rw [hto, ← hfrom, hx]
  | dropped call temp count e hfrom =>
    exact iff_of_false (left_behind hT e hfrom) Bool.false_ne_true
  | placed call temp hfrom =>
    have hheld : (s.calls call).temp = some (temp, temp.bytes.length) := by rw [hfrom]; rfl
    exact iff_of_true (staging_release hT hclean (.ok (placedOf crates temp)) hheld) rfl
  | removed call temp e hfrom =>
    have hheld : (s.calls call).temp = some (temp, temp.bytes.length) := by rw [hfrom]; rfl
    exact iff_of_true (staging_release hT hclean (.error e) hheld) rfl
  | deleted path => exact iff_of_true hclean rfl
  | opened reader path file hfile => exact iff_of_true hclean rfl

end Clean

section Runs
variable {crates : Crates} {jobs : ℕ → ChapterJob} {start s t : Volume} {a : VolumeAction}

/-- The rename is `write_chapter` as one step. -/
theorem place_eq_writeChapter (hT : Tracked crates jobs start s) {call : ℕ}
    (h : placeStep crates jobs s (.rename call (.ok ())) = some t) :
    ∃ placed, t.calls call = .finished (.ok placed) ∧
      writeChapter crates s.content (jobs call).spec (jobs call).pages
        ⟨.ok (), .ok (), .ok (), .ok ()⟩ = (t.content, .ok placed) := by
  have hstep := h
  simp only [placeStep] at h
  split at h
  · next temp hcall =>
    cases h
    obtain ⟨hrelative, hbytes⟩ := (hT.origin call).temp temp temp.bytes.length (by rw [hcall]; rfl)
    have hpack := (@packChapter_eq_ok crates (jobs call).spec (jobs call).pages
      ⟨.ok (), .ok (), .ok (), .ok ()⟩ _ _).mpr ⟨hrelative, rfl, rfl, hbytes, rfl, rfl⟩
    refine ⟨placedOf crates temp, Function.update_self _ _ _, ?_⟩
    rw [writeChapter, hpack, content_place hT hcall hstep]
    rfl
  · cases h

/-- Runs in which no file is left behind are those in which the system fails no call that has a
temporary file, the rename apart, and fails no removal; placing is atomic in every run. -/
theorem placements_iff (hstart : Started start) (as : List VolumeAction) :
    Always (placeStep crates jobs) (fun s => Atomic crates jobs start s ∧ Clean start s) start as ↔
      Each (placeStep crates jobs) (fun _ a => tidy a = true) start as := by
  apply always_iff_each (I := fun s => Tracked crates jobs start s ∧ Atomic crates jobs start s)
  · rintro s a t ⟨hT, hA⟩ h
    exact ⟨hT.step h, atomic_step hT hA h⟩
  · rintro s a t ⟨hT, hA⟩ ⟨-, hclean⟩ h
    rw [← clean_step_iff hT hclean h]
    exact and_iff_right (atomic_step hT hA h)
  · exact ⟨tracked_started hstart, atomic_started hstart⟩
  · exact ⟨atomic_started hstart, fun name hname => rfl⟩

/-- A step that is not tidy leaves a file behind. -/
theorem not_clean_of_untidy (hstart : Started start) {as : List VolumeAction}
    (hpre : exec (placeStep crates jobs) start as = some s)
    (h : placeStep crates jobs s a = some t) (htidy : tidy a = false) :
    ¬ (Clean start s ∧ Clean start t) := by
  rintro ⟨hclean, hclean'⟩
  have hT : Tracked crates jobs start s :=
    Reachable.invariant ⟨as, hpre⟩ (tracked_started hstart) fun s a t hT h => hT.step h
  rw [clean_step_iff hT hclean h, htidy] at hclean'
  cases hclean'

def emptyVolume : Volume where
  contents _ := []
  next := 0
  library _ := none
  staging _ := none
  calls _ := .start
  readers _ := none
  log := []

theorem emptyVolume_started : Started emptyVolume where
  idle _ := rfl
  unread _ := rfl
  unlogged := rfl
  library path file h := by cases h
  staging name file h := by cases h

/-- Archives of four bytes. -/
def shortCrates : Crates where
  nfc := id
  zip _ := .ok [80, 75, 5, 6]
  sha256 := id

/-- Every call places the first chapter of one series. -/
def firstChapter (_ : ℕ) : ChapterJob where
  spec := {
    seriesTitle := "Series"
    disambiguator := none
    volume := none
    number := some 0x3F800000
    info := {
      series := "Series"
      number := some 0x3F800000
      volume := none
      pageCount := 1
      direction := .unknown } }
  pages := [⟨"1.png", [1]⟩]

def writtenRun : List VolumeAction :=
  [.resolve 0 (.ok ()), .createStaging 0 (.ok ()), .createTemp 0 7 (.ok ()), .write 0 (.ok 4),
    .sync 0 (.ok ())]

/-- An older archive of the chapter, another chapter, and a temporary file of an earlier process. -/
def usedVolume : Volume :=
  { emptyVolume with
    contents := fun file => [file.toUInt8]
    next := 3
    library := fun path =>
      if path = "Series/Series c001.cbz" then some 0
      else if path = "Series/Series c002.cbz" then some 1 else none
    staging := fun name => if name = 5 then some 2 else none }

theorem usedVolume_started : Started usedVolume where
  idle _ := rfl
  unread _ := rfl
  unlogged := rfl
  library path file h := by
    simp only [usedVolume] at h
    split at h
    · cases h
      decide
    · obtain ⟨-, h⟩ := Option.ite_none_right_eq_some.mp h
      cases h
      decide
  staging name file h := by
    obtain ⟨-, h⟩ := Option.ite_none_right_eq_some.mp h
    cases h
    decide

/-- Two calls side by side: the first one's archive is read and replaced, the second one's rename
fails, and the other chapter is deleted. -/
def placedRun : List VolumeAction :=
  .openChapter 0 "Series/Series c001.cbz" :: writtenRun ++
    [.resolve 1 (.ok ()), .createStaging 1 (.ok ()), .createTemp 1 8 (.ok ()), .write 1 (.ok 2),
      .createParent 0 (.ok ()), .delete "Series/Series c002.cbz", .rename 0 (.ok ()),
      .openChapter 1 "Series/Series c001.cbz", .write 1 (.ok 2), .sync 1 (.ok ()),
      .createParent 1 (.ok ()), .rename 1 (.error .storageFull), .removeTemp 1 (.ok ())]

/-- Placing is atomic in the run and leaves no file behind. -/
theorem placedRun_clean :
    Always (placeStep shortCrates firstChapter)
        (fun s => Atomic shortCrates firstChapter usedVolume s ∧ Clean usedVolume s) usedVolume
        placedRun ∧
      ∃ t, exec (placeStep shortCrates firstChapter) usedVolume placedRun = some t ∧
        t.content "Series/Series c001.cbz" = some [80, 75, 5, 6] := by
  refine ⟨(placements_iff usedVolume_started placedRun).mpr
    (Each.of_check (fun _ _ h => h) (by decide : check (placeStep shortCrates firstChapter)
      (fun _ a => tidy a) usedVolume placedRun = true)), ?_⟩
  obtain ⟨t, ht, htest⟩ := @exists_exec _ _ (placeStep shortCrates firstChapter) usedVolume
    placedRun (fun t => decide (t.content "Series/Series c001.cbz" = some [80, 75, 5, 6]))
    (by decide)
  exact ⟨t, ht, of_decide_eq_true htest⟩

/-- The series' directory cannot be created, and nobody removes the temporary file. -/
theorem temp_left_behind : ¬ ∀ crates jobs start as, Started start →
    Always (placeStep crates jobs) (fun s => Atomic crates jobs start s ∧ Clean start s)
      start as := by
  intro h
  have hall := h shortCrates firstChapter emptyVolume
    (writtenRun ++ [.createParent 0 (.error (.other "Permission denied"))]) emptyVolume_started
  obtain ⟨s, hs, htest⟩ := @exists_exec _ _ (placeStep shortCrates firstChapter) emptyVolume
    writtenRun (fun s => (placeStep shortCrates firstChapter s
      (.createParent 0 (.error (.other "Permission denied")))).isSome) (by decide)
  obtain ⟨t, ht⟩ := Option.isSome_iff_exists.mp htest
  have hend : exec (placeStep shortCrates firstChapter) emptyVolume
      (writtenRun ++ [.createParent 0 (.error (.other "Permission denied"))]) = some t := by
    rw [exec_append, hs]
    simp [ht]
  have hvisited := (always_iff_prefixes _ _).mp hall
  exact not_clean_of_untidy emptyVolume_started hs ht rfl
    ⟨(hvisited writtenRun _ s rfl hs).2, (hvisited _ [] t (by simp) hend).2⟩

end Runs

end Packaging
end Nyuka
