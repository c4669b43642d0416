import Nyuka.Packaging.Packages
import Nyuka.Runtime.Restart

/-! The table of saved packages that the registry works with stands for the files of the package
store: whatever becomes of the files, a startup loads what the table says. -/
namespace Nyuka
namespace Runtime
open Packaging Tables Table

/-- The packages of the table are the files. -/
def Represents (s : PackageState) (packages : PackageTable) : Prop :=
  ∀ source : SourceId, s.package source.uuid = (packages.get source).map SavedPackage.bytes

/-- What a step does to the table: a write does something when it is renamed. -/
def tableAfter (packages : PackageTable) : PackageState × PackageStep → PackageTable
  | (s, .rename thread) => match s.writes thread with
    | some w => packages.upsert ⟨⟨w.source⟩, w.bytes⟩
    | none => packages
  | (_, .remove source) => packages.deleteWhere fun p => decide (p.source = ⟨source⟩)
  | _ => packages

/-- A source is compiled from its file, which lies below a root. -/
def loadFile (host : Compiler) (root : String) (s : PackageState) (source : SourceId) :
    Except DomainError (Option LoadedSource) :=
  match readPackage root none s source.uuid with
  | .error e => .error (.storage e.toText)
  | .ok none => .ok none
  | .ok (some bytes) => (prepare host bytes).map fun prepared => some (prepared.loaded source)

section Files
variable {s t : PackageState} {packages : PackageTable} {a : PackageStep}
  {steps : List PackageStep} {host : Compiler}

@[simp] private theorem get_deleteWhere_source (source other : SourceId) :
    (packages.deleteWhere fun p => decide (p.source = other)).get source =
      if other = source then none else packages.get source := by
  split_ifs with heq
  · subst heq
    refine get_eq_none_iff.mpr fun p hp => ?_
    exact (by simpa using hp : p ∈ packages.rows ∧ p.source ≠ other).2
  · cases hget : packages.get source with
    | none =>
      exact get_eq_none_iff.mpr fun p hp => get_eq_none_iff.mp hget p
        (by simpa using hp : p ∈ packages.rows ∧ p.source ≠ other).1
    | some p =>
      obtain ⟨hmem, hkey⟩ := get_eq_some_iff.mp hget
      refine get_eq_some_iff.mpr ⟨?_, hkey⟩
      have hne : p.source ≠ other := fun h => heq (h.symm.trans hkey)
      simpa using ⟨hmem, hne⟩

theorem step_represents (hs : s.Sound) (halone : s.Alone a) (h : s.step a = some t)
    (hr : Represents s packages) : Represents t (tableAfter packages (s, a)) := by
  intro source
  rw [(PackageState.step_spec hs halone h).2 source.uuid]
  cases a with
  | create | put | writeFails | renameFails | restart => exact hr source
  | rename thread =>
    obtain ⟨w, hw, -⟩ := Option.bind_eq_some_iff.mp h
    simp only [PackageState.stores, tableAfter, hw, Option.bind_some, get_upsert]
    by_cases heq : w.source = source.uuid
    · rw [if_pos heq, if_pos (show source = ⟨w.source⟩ by rw [heq])]
      rfl
    · rw [if_neg heq, if_neg (fun h : source = ⟨w.source⟩ => heq (by rw [h]))]
      exact hr source
  | remove removed =>
    simp only [PackageState.stores, tableAfter, get_deleteWhere_source]
    by_cases heq : removed = source.uuid
    · rw [if_pos heq, if_pos (show (⟨removed⟩ : SourceId) = source by rw [heq])]
      rfl
    · rw [if_neg heq, if_neg (fun h : (⟨removed⟩ : SourceId) = source => heq (by rw [← h]))]
      exact hr source

theorem loadFile_eq_ok (hr : Represents s packages) {root : String} {source : SourceId}
    {loaded : Option LoadedSource} : loadFile host root s source = .ok loaded ↔
      loadSource host none packages source = .ok loaded := by
  unfold loadFile loadSource readPackage
  rw [hr source]
  cases packages.get source with
  | none => rfl
  | some saved =>
    simp only [Option.map_some]
    by_cases hlarge : maxPackageBytes < saved.bytes.length
    · rw [if_pos hlarge, if_pos (show maxPackage < _ from hlarge)]
      exact ⟨fun h => (by cases h), fun h => (by cases h)⟩
    · rw [if_neg hlarge, if_neg (show ¬ maxPackage < _ from hlarge)]

/-- The files go through any run as the table goes through the writes that come to their end and
the removals, and a startup loads from the files what it loads from the table. -/
theorem files_refine_table (hs : s.Sound)
    (halone : Runs.Each PackageState.step PackageState.Alone s steps)
    (h : Runs.exec PackageState.step s steps = some t) (hr : Represents s packages) :
    Represents t ((Runs.trace PackageState.step s steps).foldl tableAfter packages) ∧
      ∀ root source loaded, loadFile host root t source = .ok loaded ↔
        loadSource host none ((Runs.trace PackageState.step s steps).foldl tableAfter packages)
          source = .ok loaded := by
  have hafter :
      Represents t ((Runs.trace PackageState.step s steps).foldl tableAfter packages) := by
    induction steps generalizing s packages with
    | nil =>
      cases h
      exact hr
    | cons a steps ih =>
      obtain ⟨u, hu, hut⟩ := Option.bind_eq_some_iff.mp h
      obtain ⟨ha, hrest⟩ := halone u hu
      rw [Runs.trace, hu, Option.elim_some, List.foldl_cons]
      exact ih (PackageState.step_spec hs ha hu).1 hrest hut (step_represents hs ha hu hr)
  exact ⟨hafter, fun root source loaded => loadFile_eq_ok hafter⟩

/-- The process that starts next loads the package, and no other one. -/
theorem installed_loads : ∃ t loaded,
    Runs.exec PackageState.step PackageState.empty PackageState.installing = some t ∧
      loadFile exampleHost "" t ⟨7⟩ = .ok (some loaded) ∧
      loadFile exampleHost "" t ⟨8⟩ = .ok none := by
  have hruns : (Runs.exec PackageState.step PackageState.empty
      PackageState.installing).isSome = true := by decide
  obtain ⟨t, h⟩ := Option.isSome_iff_exists.mp hruns
  have hempty : Represents PackageState.empty Table.empty := fun source => by
    rw [get_eq_none_iff.mpr fun p hp => (by cases hp)]
    rfl
  obtain ⟨-, hloads⟩ :=
    @files_refine_table _ _ _ _ exampleHost PackageState.empty_sound PackageState.installing_alone h
      hempty
  exact ⟨t, _, h, (hloads "" ⟨7⟩ _).mpr rfl, (hloads "" ⟨8⟩ _).mpr rfl⟩

end Files

end Runtime
end Nyuka
