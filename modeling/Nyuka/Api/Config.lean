import Nyuka.Api.ClientIp
import Nyuka.Api.Files
import Nyuka.Jobs.Periods
import Nyuka.Runtime.Literals

/-! The configuration as the environment gives it, and its check at startup, which collects every
problem before it returns. -/
namespace Nyuka
namespace Configuration
open Api (Cidr octets parseU64 splitOnce trim)
open Nyuka.Runtime (IpAddr Ipv4Addr Ipv6Addr SocketAddr Reader)

section Addresses

/-- The longest run of zero groups, the first of them, as its start and length. -/
def zeroRun (segments : List ℕ) : ℕ × ℕ :=
  let (_, longest) := segments.zipIdx.foldl (fun (current, longest) (segment, i) =>
    if segment = 0 then
      let current : ℕ × ℕ := (if current.2 = 0 then i else current.1, current.2 + 1)
      (current, if longest.2 < current.2 then current else longest)
    else ((0, 0), longest)) (((0, 0), (0, 0)) : (ℕ × ℕ) × (ℕ × ℕ))
  longest

def hexGroups (segments : List ℕ) : List Char :=
  [':'].intercalate (segments.map fun s => Nat.toDigits 16 s)

/-- A v4-mapped address ends with the v4 address; elsewhere a `::` stands for the longest run of
zero groups, if it is longer than one. -/
def displayV6 (ip : Ipv6Addr) : List Char :=
  let segments := [ip.s0, ip.s1, ip.s2, ip.s3, ip.s4, ip.s5, ip.s6, ip.s7].map UInt16.toNat
  if segments.take 6 = [0, 0, 0, 0, 0, 65535] then
    "::ffff:".toList ++ (Ipv4Addr.ofSegments ip.s6 ip.s7).display.toList
  else
    let (start, length) := zeroRun segments
    if 1 < length then
      hexGroups (segments.take start) ++ "::".toList ++ hexGroups (segments.drop (start + length))
    else hexGroups segments

def displayIp : IpAddr → String
  | .v4 ip => ip.display
  | .v6 ip => String.ofList (displayV6 ip)

/-- A colon and the number of a port. -/
def portReader : Reader ℕ := fun s =>
  match s with
  | ':' :: s => Reader.number Reader.decimalDigit 10 s.length true 65536 s
  | _ => none

/-- An address in brackets and its port. A scope after the address is read and left out. -/
def socketAddrV6 : Reader SocketAddr := fun s =>
  match s with
  | '[' :: s => do
    let (ip, s) ← Reader.ipv6Addr s
    let s := match s with
      | '%' :: scope =>
        ((Reader.number Reader.decimalDigit 10 scope.length true (2 ^ 32) scope).map
          Prod.snd).getD s
      | s => s
    match s with
    | ']' :: s => do
      let (port, s) ← portReader s
      return (⟨.v6 ip, port.toUInt16⟩, s)
    | _ => none
  | _ => none

def socketAddrV4 : Reader SocketAddr := fun s => do
  let (ip, s) ← Reader.ipv4Addr s
  let (port, s) ← portReader s
  return (⟨.v4 ip, port.toUInt16⟩, s)

/-- `text.parse::<SocketAddr>()` -/
def parseSocketAddr (text : List Char) : Option SocketAddr :=
  match (socketAddrV4 text).or (socketAddrV6 text) with
  | some (addr, []) => some addr
  | _ => none

/-- `str::parse::<u8>` -/
def parseU8 (s : List Char) : Option UInt8 :=
  (parseU64 s).bind fun n => if n < 256 then some n.toUInt8 else none

def Cidr.parse (text : List Char) : Except String Cidr :=
  match splitOnce '/' text with
  | none => .error s!"`{String.ofList text}` is missing a prefix length, such as /24"
  | some (addr, prefixText) =>
    match IpAddr.parse addr with
    | none => .error s!"`{String.ofList addr}` is not an IP address"
    | some network =>
      match parseU8 prefixText with
      | none => .error s!"`{String.ofList prefixText}` is not a prefix length"
      | some prefixLen =>
        -- the bits of the address, 32 or 128
        let max := 8 * (octets network).length
        if h : prefixLen.toNat ≤ max then .ok ⟨network, prefixLen, h⟩
        else .error (s!"/{prefixLen.toNat} is too long for {displayIp network}; " ++
          s!"the maximum is /{max}")

end Addresses

section Fields

/-- How requests are authenticated. -/
inductive AuthMode where
  | oidc | none
deriving DecidableEq, Repr

/-- The shape the environment is read into, before anything is checked. -/
structure RawConfig where
  databaseUrl : String := ""
  bindAddr : String := "0.0.0.0:8080"
  libraryRoot : String := ""
  dataDir : String := ""
  authMode : String := "oidc"
  oidcIssuerUrl : String := ""
  oidcClientId : String := ""
  oidcClientSecret : String := ""
  oidcRedirectUrl : String := ""
  authAllowedSubjects : String := ""
  authAllowedGroups : String := ""
  sessionKey : String := ""
  sessionTtlHours : UInt32 := 720
  jobWorkers : UInt64 := 4
  jobPollIntervalMs : UInt64 := 1000
  sourceMaxConcurrency : UInt32 := 4
  jobStaleLockSecs : UInt64 := 900
  jobRetentionDays : Int64 := 30
  jobDrainTimeoutSecs : UInt64 := 30
  flaresolverrUrl : String := ""
  wasmMaxMemoryMb : UInt32 := 128
  wasmEpochTimeoutMs : UInt64 := 30000
  dbSlowStatementMs : UInt64 := 250
  otelServiceName : String := "nyuka-api"
  logFormat : String := "json"
  telemetryIngestEnabled : Bool := true
  telemetryIngestMaxBodyBytes : UInt64 := 262144
  trustedProxies : String := ""
  sseRetryMs : UInt64 := 5000

structure OidcConfig where
  mode : AuthMode
  issuerUrl : String
  clientId : String
  clientSecret : String
  redirectUrl : String
  allowedSubjects : List String
  allowedGroups : List String
  sessionKey : String
  sessionTtl : ℕ

structure JobsConfig where
  workers : ℕ
  pollInterval : ℕ
  sourceMaxConcurrency : ℕ
  staleLock : ℕ
  retention : ℤ
  drainTimeout : ℕ

structure SourcesConfig where
  flaresolverrUrl : Option String
  wasmMaxMemoryBytes : ℕ
  wasmTimeout : ℕ

structure TelemetryConfig where
  serviceName : String
  serviceVersion : String
  ingestEnabled : Bool
  ingestMaxBodyBytes : ℕ
  dbSlowStatement : ℕ

/-- The durations are in nanoseconds. -/
structure Config where
  databaseUrl : String
  bindAddr : SocketAddr
  libraryRoot : String
  dataDir : String
  auth : OidcConfig
  jobs : JobsConfig
  sources : SourcesConfig
  telemetry : TelemetryConfig
  trustedProxies : List Cidr
  sseRetry : ℕ

/-- What the check takes from around it: which texts are URLs, the uuids it draws, and the version
of the build. -/
structure Surroundings where
  parsesAsUrl : String → Bool
  newV4 : ℕ → Uuid
  cargoPkgVersion : String
  gitSha : String

end Fields

section Times

/-- `Duration::from_secs` -/
def fromSecs (secs : ℕ) : ℕ := secs * Periods.nanosPerSec

/-- `Duration::from_millis` -/
def fromMillis (millis : ℕ) : ℕ := millis * 1000000

/-- Whole seconds of a `chrono::Duration` at most. -/
def maxChronoSecs : ℤ := 9223372036854775

/-- `chrono::Duration::days`, which panics out of bounds. -/
def chronoDays (days : ℤ) : Option ℤ :=
  if |days * 86400| ≤ maxChronoSecs then some (days * 86400 * Periods.nanosPerSec) else none

/-- A product of 64 bits. An overflow panics. -/
def mulU64 (a b : ℕ) : Option ℕ := if a * b < 2 ^ 64 then some (a * b) else none

end Times

section Check

def blank (text : String) : Bool := (trim text.toList).isEmpty

def lowerAscii (text : List Char) : List Char := text.map Char.toLower

def AuthMode.parse (value : String) : Option AuthMode :=
  if lowerAscii (trim value.toList) = "oidc".toList then some .oidc
  else if lowerAscii (trim value.toList) = "none".toList then some .none
  else Option.none

def normaliseDir (path : List Char) : List Char := (trim path).rdropWhile (· = '/') ++ ['/']

/-- Whether either path contains the other. -/
def pathsOverlap (a b : String) : Bool :=
  let a := normaliseDir a.toList
  let b := normaliseDir b.toList
  a == b || b.isPrefixOf a || a.isPrefixOf b

/-- Splits a comma-separated list, dropping blanks. -/
def commaList (raw : String) : List String :=
  (((raw.toList.splitOn ',').map trim).filter fun s => !s.isEmpty).map String.ofList

/-- The length `cookie::Key` requires. -/
def sessionKeyBytes : ℕ := 64

/-- A random key for a run with no configured one. -/
def ephemeralSessionKey (env : Surroundings) : String :=
  String.ofList (((List.range 4).flatMap fun i => Text.hexDigits 32 (env.newV4 i).toNat).take
    (2 * sessionKeyBytes))

def complain (wrong : Bool) (problem : String) : List String := if wrong then [problem] else []

variable (env : Surroundings) (raw : RawConfig)

def databaseProblems : List String :=
  if blank raw.databaseUrl then ["DATABASE_URL is required"]
  else complain (!env.parsesAsUrl raw.databaseUrl) "DATABASE_URL is not a url"

def bindProblems : List String :=
  complain (parseSocketAddr raw.bindAddr.toList).isNone
    s!"BIND_ADDR `{raw.bindAddr}` is not an address and port, such as 0.0.0.0:8080"

def directoryProblems : List String :=
  complain (blank raw.libraryRoot) "LIBRARY_ROOT is required" ++
  complain (blank raw.dataDir) "DATA_DIR is required" ++
  complain (!blank raw.libraryRoot && !blank raw.dataDir &&
      pathsOverlap raw.libraryRoot raw.dataDir)
    "DATA_DIR and LIBRARY_ROOT must not contain one another; give the server its own directory"

/-- An unknown mode is taken for the secure one while the rest is collected. -/
def authMode : AuthMode := (AuthMode.parse raw.authMode).getD .oidc

def modeProblems : List String :=
  complain (AuthMode.parse raw.authMode).isNone
    s!"AUTH_MODE `{raw.authMode}` is not recognised; expected `oidc` or `none`"

def sessionKey : String := String.ofList (trim raw.sessionKey.toList)

def oidcProblems : List String :=
  ([("OIDC_ISSUER_URL", raw.oidcIssuerUrl), ("OIDC_CLIENT_ID", raw.oidcClientId),
      ("OIDC_CLIENT_SECRET", raw.oidcClientSecret),
      ("OIDC_REDIRECT_URL", raw.oidcRedirectUrl)].flatMap fun (name, value) =>
    complain (blank value) s!"{name} is required when AUTH_MODE is `oidc`") ++
  ([("OIDC_ISSUER_URL", raw.oidcIssuerUrl),
      ("OIDC_REDIRECT_URL", raw.oidcRedirectUrl)].flatMap fun (name, value) =>
    complain (!blank value && !env.parsesAsUrl value) s!"{name} is not a url") ++
  complain ((commaList raw.authAllowedSubjects).isEmpty &&
      (commaList raw.authAllowedGroups).isEmpty)
    ("AUTH_ALLOWED_SUBJECTS and AUTH_ALLOWED_GROUPS are both empty, which denies everyone " ++
      "including you; set at least one") ++
  if (sessionKey raw).isEmpty then
    ["SESSION_KEY is required when AUTH_MODE is `oidc`; generate one with " ++
      s!"`openssl rand -hex {sessionKeyBytes}`"]
  else complain ((sessionKey raw).utf8ByteSize < sessionKeyBytes)
    (s!"SESSION_KEY is {(sessionKey raw).utf8ByteSize} characters; at least " ++
      s!"{sessionKeyBytes} are required, and restarting with a different one logs everyone out")

/-- A key is optional without authentication, but a short one is a mistake. -/
def openProblems : List String :=
  complain (!(sessionKey raw).isEmpty && (sessionKey raw).utf8ByteSize < sessionKeyBytes)
    (s!"SESSION_KEY is {(sessionKey raw).utf8ByteSize} characters; at least " ++
      s!"{sessionKeyBytes} are required, or leave it unset and one will be generated for this run")

def numberProblems : List String :=
  complain (raw.sessionTtlHours == 0) "SESSION_TTL_HOURS must be greater than zero" ++
  complain (raw.jobWorkers == 0) "JOB_WORKERS must be greater than zero, or nothing runs" ++
  complain (raw.sourceMaxConcurrency == 0)
    "SOURCE_MAX_CONCURRENCY must be greater than zero, or every download blocks forever" ++
  complain (raw.jobPollIntervalMs == 0) "JOB_POLL_INTERVAL_MS must be greater than zero" ++
  complain (lowerAscii (trim raw.logFormat.toList) != "json".toList)
    (s!"LOG_FORMAT `{raw.logFormat}` is not supported; only `json` is implemented, because log " ++
      "redaction parses each line as JSON") ++
  complain (raw.wasmMaxMemoryMb == 0) "WASM_MAX_MEMORY_MB must be greater than zero" ++
  complain (raw.wasmEpochTimeoutMs == 0)
    "WASM_EPOCH_TIMEOUT_MS must be greater than zero, or a source can run forever"

def retentionProblems (retention : ℤ) : List String :=
  match Periods.checkRetention retention Periods.shipped with
  | .ok _ => []
  | .error e => [s!"JOB_RETENTION_DAYS: {e.toText}"]

def proxyProblems : List String :=
  (commaList raw.trustedProxies).flatMap fun entry =>
    match Cidr.parse entry.toList with
    | .ok _ => []
    | .error e => [s!"TRUSTED_PROXIES: {e}"]

def trustedProxies : List Cidr :=
  (commaList raw.trustedProxies).filterMap fun entry => (Cidr.parse entry.toList).toOption

/-- All that is wrong, in the order it is found. -/
def problems (retention : ℤ) : List String :=
  databaseProblems env raw ++ bindProblems raw ++ directoryProblems raw ++ modeProblems raw ++
    (if authMode raw = .oidc then oidcProblems env raw else openProblems raw) ++
    numberProblems raw ++ retentionProblems retention ++ proxyProblems raw

/-- The configuration without problems. -/
def settled (bindAddr : SocketAddr) (ttlSecs wasmMaxMemoryBytes : ℕ) (retention : ℤ) : Config where
  databaseUrl := raw.databaseUrl
  bindAddr := bindAddr
  libraryRoot := raw.libraryRoot
  dataDir := raw.dataDir
  auth := {
    mode := authMode raw
    issuerUrl := raw.oidcIssuerUrl
    clientId := raw.oidcClientId
    clientSecret := raw.oidcClientSecret
    redirectUrl := raw.oidcRedirectUrl
    allowedSubjects := commaList raw.authAllowedSubjects
    allowedGroups := commaList raw.authAllowedGroups
    sessionKey := if (sessionKey raw).isEmpty then ephemeralSessionKey env else sessionKey raw
    sessionTtl := fromSecs ttlSecs }
  jobs := {
    workers := raw.jobWorkers.toNat
    pollInterval := fromMillis raw.jobPollIntervalMs.toNat
    sourceMaxConcurrency := raw.sourceMaxConcurrency.toNat
    staleLock := fromSecs raw.jobStaleLockSecs.toNat
    retention := retention
    drainTimeout := fromSecs raw.jobDrainTimeoutSecs.toNat }
  sources := {
    flaresolverrUrl := if blank raw.flaresolverrUrl then none else some raw.flaresolverrUrl
    wasmMaxMemoryBytes := wasmMaxMemoryBytes
    wasmTimeout := fromMillis raw.wasmEpochTimeoutMs.toNat }
  telemetry := {
    serviceName := raw.otelServiceName
    serviceVersion := s!"{env.cargoPkgVersion}+{env.gitSha}"
    ingestEnabled := raw.telemetryIngestEnabled
    ingestMaxBodyBytes := raw.telemetryIngestMaxBodyBytes.toNat
    dbSlowStatement := fromMillis raw.dbSlowStatementMs.toNat }
  trustedProxies := trustedProxies raw
  sseRetry := fromMillis raw.sseRetryMs.toNat

/-- The configuration, or all that is wrong with it; nothing if the check panics. -/
def validate : Option (Except (List String) Config) := do
  let retention ← chronoDays (max raw.jobRetentionDays.toInt 0)
  if problems env raw retention ≠ [] then return .error (problems env raw retention)
  else do
    let bindAddr ← parseSocketAddr raw.bindAddr.toList
    let ttlSecs ← mulU64 raw.sessionTtlHours.toNat 3600
    let kib ← mulU64 raw.wasmMaxMemoryMb.toNat 1024
    let wasmMaxMemoryBytes ← mulU64 kib 1024
    return .ok (settled env raw bindAddr ttlSecs wasmMaxMemoryBytes retention)

end Check

section Outcome
variable {env : Surroundings} {raw : RawConfig} {retention : ℤ} {config : Config}

@[simp] theorem complain_eq_nil {wrong : Bool} {problem : String} :
    complain wrong problem = [] ↔ wrong = false := by
  cases wrong <;> simp [complain]

theorem validate_of_problems (hretention : chronoDays (max raw.jobRetentionDays.toInt 0) =
      some retention) (hfound : problems env raw retention ≠ []) :
    validate env raw = some (.error (problems env raw retention)) := by
  simp only [validate, hretention, Option.bind_eq_bind, Option.bind_some, hfound, ne_eq,
    not_false_eq_true, ↓reduceIte, Option.pure_def]

/-- Without problems the address was read, and the products of 32 bits fit 64. -/
theorem validate_of_no_problems (hretention : chronoDays (max raw.jobRetentionDays.toInt 0) =
      some retention) (hnone : problems env raw retention = []) :
    ∃ bindAddr, validate env raw = some (.ok (settled env raw bindAddr
      (raw.sessionTtlHours.toNat * 3600) (raw.wasmMaxMemoryMb.toNat * 1024 * 1024)
      retention)) := by
  have hbind : bindProblems raw = [] := by
    simp only [problems, List.append_eq_nil_iff] at hnone
    exact hnone.1.1.1.1.1.1.2
  obtain ⟨bindAddr, haddr⟩ : ∃ bindAddr, parseSocketAddr raw.bindAddr.toList = some bindAddr := by
    rw [← Option.isSome_iff_exists, ← Option.not_isNone, complain_eq_nil.mp hbind, Bool.not_false]
  have hhours := raw.sessionTtlHours.toNat_lt
  have hmemory := raw.wasmMaxMemoryMb.toNat_lt
  have httl : mulU64 raw.sessionTtlHours.toNat 3600 = some (raw.sessionTtlHours.toNat * 3600) :=
    if_pos (by omega)
  have hkib : mulU64 raw.wasmMaxMemoryMb.toNat 1024 = some (raw.wasmMaxMemoryMb.toNat * 1024) :=
    if_pos (by omega)
  have hbytes : mulU64 (raw.wasmMaxMemoryMb.toNat * 1024) 1024 =
      some (raw.wasmMaxMemoryMb.toNat * 1024 * 1024) :=
    if_pos (by omega)
  refine ⟨bindAddr, ?_⟩
  simp only [validate, hretention, hnone, haddr, httl, hkib, hbytes, Option.bind_eq_bind,
    Option.bind_some, ne_eq, not_true_eq_false, ↓reduceIte, Option.pure_def]

/-- The check panics where the days of retention do. -/
theorem isSome_validate : (validate env raw).isSome ↔
    (chronoDays (max raw.jobRetentionDays.toInt 0)).isSome := by
  cases hretention : chronoDays (max raw.jobRetentionDays.toInt 0) with
  | none => simp [validate, hretention]
  | some retention =>
    by_cases hfound : problems env raw retention = []
    · obtain ⟨bindAddr, hvalidate⟩ := validate_of_no_problems hretention hfound
      simp [hvalidate]
    · simp [validate_of_problems hretention hfound]

/-- What is accepted has no problems. -/
theorem of_validate_ok (h : validate env raw = some (.ok config)) :
    ∃ retention bindAddr, chronoDays (max raw.jobRetentionDays.toInt 0) = some retention ∧
      problems env raw retention = [] ∧ config = settled env raw bindAddr
        (raw.sessionTtlHours.toNat * 3600) (raw.wasmMaxMemoryMb.toNat * 1024 * 1024) retention := by
  cases hretention : chronoDays (max raw.jobRetentionDays.toInt 0) with
  | none => simp [validate, hretention] at h
  | some retention =>
    by_cases hfound : problems env raw retention = []
    · obtain ⟨bindAddr, hvalidate⟩ := validate_of_no_problems hretention hfound
      rw [hvalidate] at h
      exact ⟨retention, bindAddr, rfl, hfound, (Except.ok.inj (Option.some.inj h)).symm⟩
    · rw [validate_of_problems hretention hfound] at h
      cases Option.some.inj h

end Outcome

def outside : Surroundings := ⟨fun s => s = "postgres://db/nyuka", fun _ => 0, "0.1.0", "dev"⟩

/-- A deployment without authentication. -/
def barebones : RawConfig where
  databaseUrl := "postgres://db/nyuka"
  libraryRoot := "/library"
  dataDir := "/data"
  authMode := "none"

end Configuration
end Nyuka
