import Nyuka.Persistence.Sources
import Nyuka.Runtime.Package
import Nyuka.Runtime.Settings

/-! Installing, uninstalling and loading sources. Four stores are changed one after another:
the database's rows and settings, the saved packages and the compiled modules. -/
namespace Nyuka.Runtime
open Tables Table Persistence

/-- A package parsed and compiled, not yet bound to an id. -/
structure PreparedSource where
  externalId : ExternalKey
  name : String
  version : UInt32
  languages : List String
  required : List Capability
  manifest : Manifest
  wasm : Bytes
  filters : Option JsonValue
  settings : Option JsonValue

/-- A compiled source. The module is the wasm it is compiled from. -/
structure LoadedSource where
  id : SourceId
  manifest : Manifest
  wasm : Bytes
  required : List Capability
  filters : Option JsonValue
  settings : Option JsonValue

structure SavedPackage where
  source : SourceId
  bytes : Bytes

abbrev PackageTable := Table (keyedBy SavedPackage.source)
abbrev ModuleTable := Table (keyedBy LoadedSource.id)

structure Registry where
  db : Database
  packages : PackageTable
  modules : ModuleTable

/-- What packages are read and compiled with. -/
structure Compiler extends Readers where
  js : Bool
  compile : Bytes → Except String Unit

def mapLoadError : LoadError → DomainError
  | .unsupportedCapabilities _ needed =>
    .unsupportedCapability (", ".intercalate (needed.map capabilityName))
  | .unsupportedImports _ needed => .unsupportedCapability (", ".intercalate needed)
  | other => .invalid other.toText

/-- Parses and compiles a package, without registering it. -/
def prepare (host : Compiler) (bytes : Bytes) : Except DomainError PreparedSource := do
  let pkg ← (load host.toReaders host.js bytes).mapError mapLoadError
  (host.compile pkg.wasm).mapError fun e => .source s!"compiling source module: {e}" false
  return {
    externalId := pkg.manifest.id, name := pkg.manifest.name, version := pkg.manifest.version,
    languages := pkg.manifest.languages, required := pkg.required, manifest := pkg.manifest,
    wasm := pkg.wasm, filters := pkg.filters, settings := pkg.settings }

namespace PreparedSource

/-- The module under an id. -/
def loaded (p : PreparedSource) (id : SourceId) : LoadedSource :=
  ⟨id, p.manifest, p.wasm, p.required, p.filters, p.settings⟩

/-- The row under an id. No rate limit is in the manifest. -/
def row (p : PreparedSource) (id : SourceId) (repo : SourceRepoId) : InstalledSource :=
  ⟨id, repo, p.externalId, p.name, p.version, p.languages, p.required, none⟩

/-- The defaults to seed. -/
def seeds (p : PreparedSource) : List Seed := declaredDefaults (p.settings.getD (.array []))

end PreparedSource

/-- The steps of an install and of an uninstall at which an outside failure can end it. -/
inductive Stage where
  | upsert | save | readSetting (i : ℕ) | writeSetting (i : ℕ) | register
  | unregister | removePackage | removeRow
deriving DecidableEq

/-- The failure, if any, that each stage meets. A stage that fails changes nothing. -/
abbrev Faults := Stage → Option DomainError

/-- Stores the defaults under keys with nothing stored. `i` counts the seeds. -/
def seedSettings (faults : Faults) (source : SourceId) :
    ℕ → List Seed → KvTable → KvTable × Except DomainError Unit
  | _, [], kv => (kv, .ok ())
  | i, seed :: seeds, kv =>
    match faults (.readSetting i) with
    | some e => (kv, .error e)
    | none =>
      if (kvGet kv source seed.key).isSome then seedSettings faults source (i + 1) seeds kv
      else match faults (.writeSetting i) with
        | some e => (kv, .error e)
        | none =>
          seedSettings faults source (i + 1) seeds (kvSet kv source seed.key seed.value)

/-- Everything after the download. `drawn` is the uuid an insert draws. -/
def installBytes (host : Compiler) (faults : Faults) (drawn : SourceId) (repo : SourceRepoId)
    (bytes : Bytes) (s : Registry) : Registry × Except DomainError InstalledSource :=
  match prepare host bytes with
  | .error e => (s, .error e)
  | .ok prepared =>
    match faults .upsert with
    | some e => (s, .error e)
    | none => match upsertSource s.db.sources (prepared.row drawn repo) drawn with
      | .error e => (s, .error e)
      | .ok (sources, stored) =>
        let s := { s with db := { s.db with sources } }
        match faults .save with
        | some e => (s, .error (.storage s!"saving the source package: {e.toText}"))
        | none =>
          let s := { s with packages := s.packages.upsert ⟨stored, bytes⟩ }
          match seedSettings faults stored 0 prepared.seeds s.db.kv with
          | (kv, .error e) => ({ s with db := { s.db with kv } }, .error e)
          | (kv, .ok ()) =>
            let s := { s with db := { s.db with kv } }
            match faults .register with
            | some e => (s, .error e)
            | none => ({ s with modules := s.modules.upsert (prepared.loaded stored) },
                .ok (prepared.row stored repo))

/-- The module goes first and the row last. -/
def uninstall (faults : Faults) (source : SourceId) (s : Registry) :
    Registry × Except DomainError Unit :=
  match faults .unregister with
  | some e => (s, .error e)
  | none =>
    let s := { s with modules := s.modules.deleteWhere fun m => m.id == source }
    match faults .removePackage with
    | some e => (s, .error (.storage s!"removing the source package: {e.toText}"))
    | none =>
      let s := { s with packages := s.packages.deleteWhere fun p => p.source == source }
      match faults .removeRow with
      | some e => (s, .error e)
      | none => ({ s with db := s.db.deleteSource source }, .ok ())

/-- The largest package that is downloaded, and that is read back. -/
def maxPackageBytes : ℕ := 32 * 1024 * 1024

/-- What a startup load did. -/
structure LoadReport where
  total : ℕ
  loaded : ℕ
  missing : ℕ
  failed : ℕ

/-- Compiles one installed source from its saved package. `fault` is what reading the file or
registering the module fails with. -/
def loadSource (host : Compiler) (fault : Option DomainError) (packages : PackageTable)
    (source : SourceId) : Except DomainError (Option LoadedSource) :=
  match fault, packages.get source with
  | some e, _ => .error e
  | none, none => .ok none
  | none, some saved =>
    if maxPackageBytes < saved.bytes.length then
      .error (.storage s!"{saved.bytes.length} bytes, over the {maxPackageBytes} limit")
    else (prepare host saved.bytes).map fun prepared => some (prepared.loaded source)

/-- What listing the sources, and what each of them, fails with at startup. -/
structure LoadFaults where
  list : Option DomainError
  source : SourceId → Option DomainError

/-- The sources one after another; a broken one is skipped. -/
def loadAll (host : Compiler) (faults : SourceId → Option DomainError) (packages : PackageTable) :
    List InstalledSource → ModuleTable × LoadReport → ModuleTable × LoadReport
  | [], done => done
  | source :: sources, (modules, report) =>
    match loadSource host (faults source.id) packages source.id with
    | .error _ => loadAll host faults packages sources
      (modules, { report with failed := report.failed + 1 })
    | .ok none => loadAll host faults packages sources
      (modules, { report with missing := report.missing + 1 })
    | .ok (some loaded) => loadAll host faults packages sources
      (modules.upsert loaded, { report with loaded := report.loaded + 1 })

/-- Compiles every installed source. The rows come in the order of their names, which decides
nothing but the order of the work. -/
def loadInstalled (host : Compiler) (faults : LoadFaults) (s : Registry) :
    Registry × Except DomainError LoadReport :=
  match faults.list with
  | some e => (s, .error e)
  | none =>
    let rows := s.db.sources.rows
    let (modules, report) := loadAll host faults.source s.packages rows
      (s.modules, ⟨rows.length, 0, 0, 0⟩)
    ({ s with modules }, .ok report)

/-- A new process: no module is loaded until `load_installed` has run. -/
def restart (host : Compiler) (faults : LoadFaults) (s : Registry) : Registry :=
  (loadInstalled host faults { s with modules := .empty }).1

end Nyuka.Runtime
