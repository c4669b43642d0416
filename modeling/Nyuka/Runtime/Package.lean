import Nyuka.Domain.Sources
import Nyuka.Foundation.Results

/-! `.aix` loading and the install-time capability check, beside what the host defines. -/
namespace Nyuka.Runtime

/-- A module's import: the module it names, and the function in it. -/
abbrev Import := String × String

/-! What the linker defines. -/

def registerEnv : List String := ["print", "abort", "sleep", "send_partial_result"]

def registerStd : List String :=
  ["destroy", "buffer_len", "read_buffer", "current_date", "utc_offset", "parse_date", "print",
    "abort"]

def registerDefaults : List String := ["get", "set"]

def registerNet : List String :=
  ["init", "set_url", "set_header", "set_body", "set_timeout", "set_rate_limit", "send", "send_all",
    "data_len", "read_data", "get_status_code", "get_url", "get_header", "html"]

def registerHtml : List String :=
  ["parse", "parse_fragment", "select", "select_first", "size", "get", "attr", "text", "own_text",
    "untrimmed_text", "html", "outer_html", "data", "tag_name", "id", "class_name", "kind",
    "parent", "next", "previous", "last", "first", "children", "child_nodes", "siblings",
    "has_attr", "has_class", "add_class", "remove_class", "remove_attr", "append", "prepend",
    "set_attr", "remove", "escape", "unescape", "base_uri", "set_text", "set_html"]

/-- Registers every host import the required surface needs. -/
def register : List Import :=
  registerEnv.map ("env", ·) ++ registerStd.map ("std", ·) ++
    registerDefaults.map ("defaults", ·) ++ registerNet.map ("net", ·) ++
    registerHtml.map ("html", ·)

/-- Every import this host defines. -/
def provided : List Import :=
  [("env", "abort"), ("env", "print"), ("env", "send_partial_result"), ("env", "sleep"),
    ("std", "abort"), ("std", "buffer_len"), ("std", "current_date"), ("std", "destroy"),
    ("std", "parse_date"), ("std", "print"), ("std", "read_buffer"), ("std", "utc_offset"),
    ("defaults", "get"), ("defaults", "set"),
    ("net", "data_len"), ("net", "get_header"), ("net", "get_status_code"), ("net", "get_url"),
    ("net", "html"), ("net", "init"), ("net", "read_data"), ("net", "send"), ("net", "send_all"),
    ("net", "set_body"), ("net", "set_header"), ("net", "set_rate_limit"), ("net", "set_timeout"),
    ("net", "set_url"),
    ("html", "add_class"), ("html", "append"), ("html", "attr"), ("html", "base_uri"),
    ("html", "child_nodes"), ("html", "children"), ("html", "class_name"), ("html", "escape"),
    ("html", "data"), ("html", "first"), ("html", "get"), ("html", "has_attr"),
    ("html", "has_class"), ("html", "html"), ("html", "id"), ("html", "last"), ("html", "kind"),
    ("html", "next"), ("html", "outer_html"), ("html", "own_text"), ("html", "parent"),
    ("html", "parse"), ("html", "parse_fragment"), ("html", "prepend"), ("html", "previous"),
    ("html", "remove"), ("html", "remove_attr"), ("html", "remove_class"), ("html", "select"),
    ("html", "select_first"), ("html", "set_attr"), ("html", "set_html"), ("html", "set_text"),
    ("html", "siblings"), ("html", "size"), ("html", "tag_name"), ("html", "text"),
    ("html", "unescape"), ("html", "untrimmed_text")]

/-- The linker instantiates a module exactly when it defines all the module's imports. -/
def Linkable (imports : List Import) : Prop := ∀ i ∈ imports, i ∈ register

instance (imports : List Import) : Decidable (Linkable imports) := by
  unfold Linkable; infer_instance

/-! The check. -/

def capabilityName : Capability → String
  | .net => "net"
  | .html => "html"
  | .defaults => "defaults"
  | .std => "std"
  | .jsContext => "js (script evaluation)"
  | .jsWebView => "js (embedded web view)"
  | .canvas => "canvas (image processing)"

/-- The capabilities a build provides; `js` is its feature flag. -/
def supportedCapabilities (js : Bool) : List Capability :=
  [.net, .html, .defaults, .std] ++ if js then [.jsContext] else []

/-- Maps a wasm import to the capability it needs. -/
def capabilityForImport (i : Import) : Option Capability :=
  if i.1 = "net" then if i.2 = "get_image" then some .canvas else some .net
  else if i.1 = "html" then some .html
  else if i.1 = "defaults" then some .defaults
  else if i.1 = "std" ∨ i.1 = "env" then some .std
  else if i.1 = "canvas" then some .canvas
  else if i.1 = "js" then
    if "webview_".toList.isPrefixOf i.2.toList then some .jsWebView else some .jsContext
  else none

/-- The elements in the order they appear, each once. -/
def distinct {α : Type} [DecidableEq α] (l : List α) : List α :=
  l.foldl (fun out a => if a ∈ out then out else out ++ [a]) []

/-- The capabilities a module's imports require. -/
def requiredCapabilities (imports : List Import) : List Capability :=
  distinct (imports.filterMap capabilityForImport)

def Import.qualified (i : Import) : String := s!"{i.1}::{i.2}"

/-- The import is of a supported capability, and is not defined. -/
def Unprovided (js : Bool) (i : Import) : Prop :=
  (∃ c ∈ supportedCapabilities js, capabilityForImport i = some c) ∧ i ∉ provided

instance (js : Bool) (i : Import) : Decidable (Unprovided js i) := by
  unfold Unprovided; infer_instance

/-- The imports a module needs that this host does not define. Imports outside the supported
capabilities are skipped. -/
def unprovidedImports (js : Bool) (imports : List Import) : List String :=
  distinct ((imports.filter fun i => Unprovided js i).map Import.qualified)

inductive LoadError where
  | archive (detail : String)
  | missing (name : String)
  | manifest (detail : String)
  | module_ (detail : String)
  | unsupportedCapabilities (id : String) (missing : List Capability)
  | unsupportedImports (id : String) (missing : List String)
deriving DecidableEq, Repr

/-- `Payload/source.json`. -/
structure Manifest where
  id : String
  name : String
  version : UInt32
  languages : List String
deriving DecidableEq, Repr

/-- A loaded, accepted package. -/
structure Package where
  manifest : Manifest
  wasm : Bytes
  filters : Option JsonValue
  settings : Option JsonValue
  required : List Capability

/-- What a package is read with: the zip archive, JSON and the module's compiler. An entry that
is there may still fail to be read. -/
structure Readers where
  archive : Bytes → Except String (String → Option (Except String Bytes))
  manifest : Bytes → Except String Manifest
  json : Bytes → Option JsonValue
  imports : Bytes → Except String (List Import)

def readJson (readers : Readers) (zip : String → Option (Except String Bytes)) (name : String) :
    Option JsonValue :=
  match zip name with
  | some (.ok bytes) => readers.json bytes
  | _ => none

/-- Loads a package and refuses it if this host cannot run it. -/
def load (readers : Readers) (js : Bool) (bytes : Bytes) : Except LoadError Package := do
  let zip ← (readers.archive bytes).mapError .archive
  let manifest ← match zip "Payload/source.json" with
    | none => .error (.missing "Payload/source.json")
    | some entry => (entry.bind readers.manifest).mapError .manifest
  let wasm ← match zip "Payload/main.wasm" with
    | none => .error (.missing "Payload/main.wasm")
    | some entry => entry.mapError .module_
  let filters := readJson readers zip "Payload/filters.json"
  let settings := readJson readers zip "Payload/settings.json"
  let imports ← (readers.imports wasm).mapError .module_
  let required := requiredCapabilities imports
  let missing := required.filter fun c => c ∉ supportedCapabilities js
  if missing ≠ [] then .error (.unsupportedCapabilities manifest.id missing)
  else
    let unknown := unprovidedImports js imports
    if unknown ≠ [] then .error (.unsupportedImports manifest.id unknown)
    else .ok { manifest, wasm, filters, settings, required }

/-- The text an error is displayed as. -/
def LoadError.toText : LoadError → String
  | archive detail => s!"not a valid .aix archive: {detail}"
  | missing name => s!"missing {name} in the archive"
  | manifest detail => s!"manifest is not valid: {detail}"
  | module_ detail => s!"module could not be read: {detail}"
  | unsupportedCapabilities id needed =>
    let caps := ", ".intercalate (needed.map capabilityName)
    s!"source '{id}' needs unimplemented capabilities: {caps}"
  | unsupportedImports id needed =>
    let names := ", ".intercalate needed
    s!"source '{id}' imports host functions this build does not define: {names}"

/-- A package that is well formed and whose module compiles. -/
structure Readable (readers : Readers) (bytes : Bytes) where
  zip : String → Option (Except String Bytes)
  source : Bytes
  manifest : Manifest
  wasm : Bytes
  imports : List Import
  archive_eq : readers.archive bytes = .ok zip
  source_eq : zip "Payload/source.json" = some (.ok source)
  manifest_eq : readers.manifest source = .ok manifest
  wasm_eq : zip "Payload/main.wasm" = some (.ok wasm)
  imports_eq : readers.imports wasm = .ok imports

/-- The error names an import that the host does not define. -/
def LoadError.NamesMissing (imports : List Import) : LoadError → Prop
  | unsupportedCapabilities _ caps => caps ≠ [] ∧ ∀ c ∈ caps, ∃ i ∈ imports,
    capabilityForImport i = some c ∧ i ∉ register
  | unsupportedImports _ names => names ≠ [] ∧ ∀ name ∈ names, ∃ i ∈ imports,
    i.qualified = name ∧ i ∉ register
  | _ => False

/-- The import's module is one that the capability check knows. -/
def Known (i : Import) : Prop := (capabilityForImport i).isSome

instance (i : Import) : Decidable (Known i) := by unfold Known; infer_instance

theorem mem_distinct {α : Type} [DecidableEq α] {l : List α} {a : α} :
    a ∈ distinct l ↔ a ∈ l := by
  have hfold : ∀ out : List α,
      a ∈ l.foldl (fun out a => if a ∈ out then out else out ++ [a]) out ↔ a ∈ out ∨ a ∈ l := by
    induction l with
    | nil => simp
    | cons b l ih =>
      intro out
      simp only [List.foldl_cons, ih, List.mem_cons]
      by_cases hb : b ∈ out
      · simp only [hb, ↓reduceIte]
        constructor
        · rintro (h | h)
          · exact .inl h
          · exact .inr (.inr h)
        · rintro (h | rfl | h)
          · exact .inl h
          · exact .inl hb
          · exact .inr h
      · simp [hb, or_assoc]
  simpa [distinct] using hfold []

/-- What is listed is what the linker defines. -/
@[simp] theorem mem_provided_iff {i : Import} : i ∈ provided ↔ i ∈ register :=
  ⟨fun h => (by decide : ∀ j ∈ provided, j ∈ register) i h,
    fun h => (by decide : ∀ j ∈ register, j ∈ provided) i h⟩

/-- What the linker defines is of a capability that every build provides. -/
theorem supported_of_mem_register {i : Import} (h : i ∈ register) (js : Bool) :
    ∃ c ∈ supportedCapabilities js, capabilityForImport i = some c := by
  have hcap : ∀ j ∈ register, ∃ c ∈ supportedCapabilities false,
      capabilityForImport j = some c := by
    decide
  obtain ⟨c, hc, hi⟩ := hcap i h
  have hc' : c ∈ supportedCapabilities js := by
    cases js with
    | false => exact hc
    | true => exact List.mem_append_left _ (by simpa [supportedCapabilities] using hc)
  exact ⟨c, hc', hi⟩

theorem known_of_mem_register {i : Import} (h : i ∈ register) : Known i := by
  obtain ⟨c, -, hc⟩ := supported_of_mem_register h false
  simp [Known, hc]

section Check
variable {js : Bool} {imports : List Import}

/-- A capability found missing is that of an import which the host does not define. -/
theorem missing_capability {c : Capability}
    (hc : c ∈ requiredCapabilities imports) (hs : c ∉ supportedCapabilities js) :
    ∃ i ∈ imports, capabilityForImport i = some c ∧ i ∉ register := by
  obtain ⟨i, hi, hcap⟩ := List.mem_filterMap.mp (mem_distinct.mp hc)
  refine ⟨i, hi, hcap, fun hreg => hs ?_⟩
  obtain ⟨d, hd, hdcap⟩ := supported_of_mem_register hreg js
  rw [hcap, Option.some.injEq] at hdcap
  exact hdcap ▸ hd

theorem unprovided_import {name : String} (h : name ∈ unprovidedImports js imports) :
    ∃ i ∈ imports, i.qualified = name ∧ i ∉ register := by
  obtain ⟨i, hi, hname⟩ := List.mem_map.mp (mem_distinct.mp h)
  simp only [List.mem_filter, decide_eq_true_eq] at hi
  exact ⟨i, hi.1, hname, fun hreg => hi.2.2 (mem_provided_iff.mpr hreg)⟩

/-- Both checks are passed exactly by the modules whose imports of known modules are defined. -/
theorem passes_iff (js : Bool) (imports : List Import) :
    ((requiredCapabilities imports).filter (fun c => c ∉ supportedCapabilities js) = [] ∧
      unprovidedImports js imports = []) ↔ ∀ i ∈ imports, Known i → i ∈ register := by
  constructor
  · rintro ⟨hcaps, hnames⟩ i hi hknown
    by_contra hreg
    obtain ⟨c, hc⟩ := Option.isSome_iff_exists.mp hknown
    by_cases hs : c ∈ supportedCapabilities js
    · have hmem : i.qualified ∈ unprovidedImports js imports := by
        refine mem_distinct.mpr (List.mem_map_of_mem ?_)
        simp only [List.mem_filter, decide_eq_true_eq]
        exact ⟨hi, ⟨c, hs, hc⟩, fun h => hreg (mem_provided_iff.mp h)⟩
      simp [hnames] at hmem
    · have hreq : c ∈ requiredCapabilities imports :=
        mem_distinct.mpr (List.mem_filterMap.mpr ⟨i, hi, hc⟩)
      have := List.filter_eq_nil_iff.mp hcaps c hreq
      simp [hs] at this
  · intro h
    constructor
    · refine List.filter_eq_nil_iff.mpr fun c hc => ?_
      simp only [decide_eq_true_eq, not_not]
      by_contra hs
      obtain ⟨i, hi, hcap, hreg⟩ := missing_capability hc hs
      exact hreg (h i hi (by simp [Known, hcap]))
    · refine List.eq_nil_iff_forall_not_mem.mpr fun name hname => ?_
      obtain ⟨i, hi, -⟩ := List.mem_map.mp (mem_distinct.mp hname)
      simp only [List.mem_filter, decide_eq_true_eq] at hi
      obtain ⟨hi, ⟨c, -, hcap⟩, hnot⟩ := hi
      exact hnot (mem_provided_iff.mpr (h i hi (by simp [Known, hcap])))

end Check

section Load
variable {readers : Readers} {js : Bool} {bytes : Bytes}

/-- Once a package has been read, the two checks decide. -/
theorem load_readable (p : Readable readers bytes) : load readers js bytes =
    if (requiredCapabilities p.imports).filter (fun c => c ∉ supportedCapabilities js) ≠ [] then
      .error (.unsupportedCapabilities p.manifest.id
        ((requiredCapabilities p.imports).filter fun c => c ∉ supportedCapabilities js))
    else if unprovidedImports js p.imports ≠ [] then
      .error (.unsupportedImports p.manifest.id (unprovidedImports js p.imports))
    else .ok ⟨p.manifest, p.wasm, readJson readers p.zip "Payload/filters.json",
      readJson readers p.zip "Payload/settings.json", requiredCapabilities p.imports⟩ := by
  simp only [load, p.archive_eq, p.source_eq, p.wasm_eq, Except.mapError, Except.bind, bind,
    p.manifest_eq, p.imports_eq]

/-- A refusal names imports that are really missing. -/
theorem names_missing_of_error (p : Readable readers bytes) {e : LoadError}
    (h : load readers js bytes = .error e) : e.NamesMissing p.imports := by
  rw [load_readable p] at h
  split at h
  · next hcaps =>
    cases h
    refine ⟨hcaps, fun c hc => ?_⟩
    simp only [List.mem_filter, decide_eq_true_eq] at hc
    exact missing_capability hc.1 hc.2
  · split at h
    · next hnames =>
      cases h
      exact ⟨hnames, fun name hname => unprovided_import hname⟩
    · cases h

theorem load_isOk_iff (p : Readable readers bytes) :
    (∃ pkg, load readers js bytes = .ok pkg) ↔ ∀ i ∈ p.imports, Known i → i ∈ register := by
  rw [load_readable p, ← passes_iff js]
  split
  · next hcaps => exact ⟨fun ⟨_, h⟩ => (by cases h), fun h => absurd h.1 hcaps⟩
  · next hcaps =>
    split
    · next hnames => exact ⟨fun ⟨_, h⟩ => (by cases h), fun h => absurd h.2 hnames⟩
    · next hnames => exact ⟨fun _ => ⟨not_not.mp hcaps, not_not.mp hnames⟩, fun _ => ⟨_, rfl⟩⟩

end Load

/-- Loading succeeds exactly for the modules that can be linked, and a refusal names what is
missing. -/
def Complete (readers : Readers) (js : Bool) {bytes : Bytes} (p : Readable readers bytes) : Prop :=
  ((∃ pkg, load readers js bytes = .ok pkg) ↔ Linkable p.imports) ∧
    ∀ e, load readers js bytes = .error e → e.NamesMissing p.imports

/-- The check is complete exactly for the modules that import from known modules only, and for
those that import something undefined from a known one. -/
theorem load_complete_iff (readers : Readers) (js : Bool) {bytes : Bytes}
    (p : Readable readers bytes) : Complete readers js p ↔
      (∀ i ∈ p.imports, Known i) ∨ ∃ i ∈ p.imports, Known i ∧ i ∉ register := by
  rw [Complete, and_iff_left fun e => names_missing_of_error p, load_isOk_iff p]
  constructor
  · intro h
    by_cases hall : ∀ i ∈ p.imports, Known i → i ∈ register
    · exact .inl fun i hi => known_of_mem_register (h.mp hall i hi)
    · push Not at hall
      exact .inr hall
  · rintro (hknown | ⟨i, hi, hknown, hreg⟩)
    · exact ⟨fun h i hi => h i hi (hknown i hi), fun h i hi _ => h i hi⟩
    · exact ⟨fun h => absurd (h i hi hknown) hreg, fun h => absurd (h i hi) hreg⟩

/-- Readers of a package whose module imports one function. -/
def importing (i : Import) : Readers where
  archive _ := .ok fun _ => some (.ok [])
  manifest _ := .ok ⟨"en.example", "Example", 4, ["en"]⟩
  json _ := none
  imports _ := .ok [i]

def importingPackage (i : Import) : Readable (importing i) [] where
  zip _ := some (.ok [])
  source := []
  manifest := ⟨"en.example", "Example", 4, ["en"]⟩
  wasm := []
  imports := [i]
  archive_eq := rfl
  source_eq := rfl
  manifest_eq := rfl
  wasm_eq := rfl
  imports_eq := rfl

/-- A module that imports from an unknown module is loaded and cannot be linked. -/
theorem wasi_loads : ¬ ∀ (readers : Readers) (js : Bool) (bytes : Bytes)
    (p : Readable readers bytes), Complete readers js p := by
  intro h
  have hlink := (h _ false [] (importingPackage ("wasi_snapshot_preview1", "fd_write"))).1.mp
    ⟨_, rfl⟩
  exact absurd hlink (by decide)

end Nyuka.Runtime
