import Nyuka.Auth.Sessions
import Nyuka.Api.Problem
import Nyuka.Foundation.Runs

/-! The sign-in endpoints of a server with an OIDC client, as requests that run side by side: each
loads its session's record as a whole, changes it and saves it as a whole, and between two
statements of one request any other request may act. A request that only reads its session changes
nothing and is left out. -/
namespace Nyuka
namespace Auth
open Api (Problem)

/-- Keys under which the in-flight flow's secrets are stored in the session. -/
def stateKey : String := "oidc_state"
def nonceKey : String := "oidc_nonce"
def pkceVerifierKey : String := "oidc_pkce_verifier"

/-- Where to send the browser after a successful sign-in. -/
def returnToKey : String := "return_to"

/-- Whether a post-sign-in redirect target is a path on this origin. -/
def isSafeReturnTo (target : String) : Bool :=
  let chars := target.toList
  "/".toList.isPrefixOf chars && !"//".toList.isPrefixOf chars && !chars.contains '\\' &&
    !decide ("://".toList <:+: chars)

/-- What one login draws. -/
structure Secrets where
  csrf : String
  nonce : String
  verifier : String
deriving DecidableEq, Repr

/-- What a login drew, and the id of the session it wrote that to. -/
structure Login where
  session : Option SessionId
  secrets : Secrets
deriving DecidableEq, Repr

def Login.csrf (l : Login) : String := l.secrets.csrf

structure LoginQuery where
  returnTo : Option String

/-- What a login writes to its session. -/
def login (session : Session) (query : LoginQuery) (secrets : Secrets) : Session :=
  let returnTo := (query.returnTo.filter isSafeReturnTo).elim Value.null Value.string
  (((session.insert stateKey (.string secrets.csrf)).insert nonceKey (.string secrets.nonce)).insert
    pkceVerifierKey (.string secrets.verifier)).insert returnToKey returnTo

structure CallbackQuery where
  code : Option String
  state : Option String
  error : Option String
  errorDescription : Option String

/-- What a callback has taken out of its session. -/
structure Flow where
  expectedState : Option String
  nonce : Option String
  verifier : Option String

/-- Takes the flow's secrets out of the session. -/
def takeFlow (session : Session) : Except Unit (Flow × Session) := do
  let expectedState ← session.data.read stateKey
  let nonce ← session.data.read nonceKey
  let verifier ← session.data.read pkceVerifierKey
  return (⟨expectedState, nonce, verifier⟩,
    (((session.remove stateKey).remove nonceKey).remove pkceVerifierKey).remove returnToKey)

/-- Compares two byte strings without an early return. -/
def constantTimeEq (a b : List UInt8) : Bool :=
  if a.length ≠ b.length then false
  else (a.zip b).foldl (fun acc pair => acc ||| (pair.1 ^^^ pair.2)) 0 = 0

private theorem foldl_xor_eq_zero {a b : List UInt8} (h : a.length = b.length) (acc : UInt8) :
    (a.zip b).foldl (fun acc pair => acc ||| (pair.1 ^^^ pair.2)) acc = 0 ↔ acc = 0 ∧ a = b := by
  induction a generalizing b acc with
  | nil =>
    cases b with
    | nil => simp
    | cons y b => cases h
  | cons x a ih =>
    cases b with
    | nil => cases h
    | cons y b =>
      rw [List.zip_cons_cons, List.foldl_cons, ih (Nat.succ.inj h), UInt8.or_eq_zero_iff,
        UInt8.xor_eq_zero_iff, List.cons.injEq, and_assoc]

@[simp] theorem constantTimeEq_iff {a b : List UInt8} : constantTimeEq a b = true ↔ a = b := by
  unfold constantTimeEq
  split
  · next hlength => simpa using fun heq => hlength (congrArg List.length heq)
  · next hlength =>
    rw [decide_eq_true_iff, foldl_xor_eq_zero (not_not.mp hlength)]
    exact and_iff_right rfl

def signInDeclined (error : String) (description : Option String) : Problem :=
  let tick := String.singleton (Char.ofNat 96)
  .new 400 "sign-in-declined" "Sign-in was not completed"
    ("The identity provider returned " ++ tick ++ error ++ tick ++
      description.elim "" (": " ++ ·) ++ ".")

def flowNotStarted : Problem :=
  .new 400 "no-sign-in-in-progress" "No sign-in is in progress" "Start again from the sign-in page."

def stateMismatch : Problem :=
  .new 400 "state-mismatch" "Sign-in could not be verified"
    "The sign-in did not start in this browser. Try again."

def upstream (detail : String) : Problem :=
  .new 502 "provider-unavailable" "The identity provider could not complete the sign-in" detail

def forbidden : Problem :=
  .new 403 "forbidden" "Forbidden" "This account is not permitted to use this server."

def unauthenticated : Problem :=
  .new 401 "unauthenticated" "Authentication required" "Sign in and try again."

/-- The user a request is let in as. -/
def resolveSessionUser (data : Data) : Except Problem UserId :=
  match data.read userIdKey with
  | .error _ => .error Problem.internal
  | .ok stored =>
    match stored.bind Uuid.parse with
    | some uuid => .ok ⟨uuid⟩
    | none => .error unauthenticated

@[simp] theorem resolveSessionUser_eq_ok {data : Data} {user : UserId} :
    resolveSessionUser data = .ok user ↔ data.user = some user.uuid := by
  unfold resolveSessionUser Data.read Data.user
  cases data.get userIdKey with
  | none => simp [unauthenticated]
  | some value =>
    cases value with
    | null => simp
    | string s =>
      cases hparse : Uuid.parse s with
      | none => simp [hparse]
      | some uuid =>
        simp only [Option.bind_some, hparse, Except.ok.injEq, Option.some.injEq]
        exact ⟨fun h => by rw [← h], fun h => by rw [h]⟩

/-- What a callback goes to the provider with. -/
structure Checked where
  state : String
  nonce : String
  verifier : String
  code : String
deriving DecidableEq, Repr

/-- A sign-in: the id the session gets with its user, and the session that had what was checked. -/
structure Grant where
  session : SessionId
  user : UserId
  origin : Option SessionId
  checked : Checked
deriving DecidableEq, Repr

/-- The checks of a callback before it talks to the provider. -/
def check (query : CallbackQuery) (flow : Flow) : Except Problem Checked :=
  match query.error with
  | some error => .error (signInDeclined error query.errorDescription)
  | none =>
    match flow.expectedState, flow.nonce, flow.verifier with
    | some expectedState, some nonce, some verifier =>
      match query.state with
      | none => .error flowNotStarted
      | some receivedState =>
        if !constantTimeEq expectedState.toUTF8.data.toList receivedState.toUTF8.data.toList then
          .error stateMismatch
        else match query.code with
          | none => .error flowNotStarted
          | some code => .ok ⟨expectedState, nonce, verifier, code⟩
    | _, _, _ => .error flowNotStarted

/-- The state check is reached, and what came back is what was stored. -/
def passesStateCheck (query : CallbackQuery) (flow : Flow) : Bool :=
  query.error.isNone && flow.nonce.isSome && flow.verifier.isSome &&
    match flow.expectedState, query.state with
    | some expectedState, some receivedState =>
      constantTimeEq expectedState.toUTF8.data.toList receivedState.toUTF8.data.toList
    | _, _ => false

theorem passesStateCheck_iff {query : CallbackQuery} {flow : Flow} :
    passesStateCheck query flow = true ↔ query.error = none ∧ ∃ state nonce verifier,
      flow = ⟨some state, some nonce, some verifier⟩ ∧ query.state = some state := by
  obtain ⟨expected, nonce, verifier⟩ := flow
  have hbytes : ∀ s t : String,
      constantTimeEq s.toByteArray.data.toList t.toByteArray.data.toList = true ↔ t = s := by
    intro s t
    rw [constantTimeEq_iff, Array.toList_inj, ← ByteArray.ext_iff, String.toByteArray_inj, eq_comm]
  cases expected <;> cases nonce <;> cases verifier <;> cases hstate : query.state <;>
    simp [passesStateCheck, hstate, hbytes]

structure AuthConfig where
  isDisabled : Bool
  allowedSubjects : List String
  allowedGroups : List String
  sessionTtl : ℕ

/-- Whether the subject may sign in. -/
def AuthConfig.permits (config : AuthConfig) (subject : String) (groups : List String) : Bool :=
  if config.isDisabled then true
  else config.allowedSubjects.any (· == subject) ||
    groups.any fun g => config.allowedGroups.any (· == g)

structure Tokens where
  accessToken : String
  idToken : Option String

structure Claims where
  subject : String
  groups : List String
  accessTokenHash : Option String

/-- The provider, what the OIDC client verifies of its tokens, and the table of users. -/
structure Provider where
  /-- Whether a token endpoint is configured. -/
  exchangeCode : Except String Unit
  /-- The token endpoint's answer to a code and a PKCE verifier. -/
  requestTokens : Time → (code verifier : String) → Except String Tokens
  /-- The claims of an ID token that verifies with the nonce. -/
  claims : (idToken nonce : String) → Except String Claims
  hashOf : (accessToken idToken : String) → Except String String
  recordSignIn : Time → (subject : String) → Except DomainError UserId

/-- Guards against an access token substituted for another user's, where the provider tells its
hash. -/
def checkAccessToken (provider : Provider) (accessToken idToken : String) (claims : Claims) :
    Except Problem Unit :=
  match claims.accessTokenHash with
  | none => .ok ()
  | some expected => do
    let actual ← (provider.hashOf accessToken idToken).mapError upstream
    if actual = expected then .ok ()
    else .error (upstream "the access token does not match the ID token")

/-- Exchanges the code, and verifies what comes for it. -/
def exchange (provider : Provider) (now : Time) (checked : Checked) : Except Problem Claims := do
  provider.exchangeCode.mapError fun e =>
    upstream ("the authorization code could not be exchanged: " ++ e)
  let tokens ← (provider.requestTokens now checked.code checked.verifier).mapError fun e =>
    upstream ("the token request failed: " ++ e)
  let idToken ← tokens.idToken.elim (.error (upstream "the provider returned no ID token")) .ok
  let claims ← (provider.claims idToken checked.nonce).mapError fun e =>
    upstream ("the ID token could not be verified: " ++ e)
  checkAccessToken provider tokens.accessToken idToken claims
  return claims

/-- What a callback does at the provider, and with its answer. -/
def signIn (provider : Provider) (config : AuthConfig) (now : Time) (checked : Checked) :
    Except Problem UserId := do
  let claims ← exchange provider now checked
  if config.permits claims.subject claims.groups then
    (provider.recordSignIn now claims.subject).mapError Problem.ofDomainError
  else .error forbidden

inductive Handler where
  | login (query : LoginQuery)
  | callback (query : CallbackQuery)
  | logout

/-- A request between its statements. -/
inductive Request where
  | idle
  | arrived (handler : Handler) (session : Session)
  /-- The callback has taken the flow out of its record. -/
  | taken (query : CallbackQuery) (flow : Flow) (session : Session)
  /-- The record is saved without the flow. -/
  | saved (query : CallbackQuery) (flow : Flow) (session : Session)
  | checked (checked : Checked) (session : Session)
  | granted (user : UserId) (checked : Checked) (session : Session)
  /-- The callback answers after it has signed the user in. -/
  | signedIn (session : Session)
  /-- Any other answer is made. -/
  | answered (status : ℕ) (session : Session)
  /-- The logout has deleted the session of its cookie. -/
  | flushed (id : Option SessionId) (session : Session)

def Request.session? : Request → Option Session
  | idle => none
  | arrived _ session | taken _ _ session | saved _ _ session | checked _ session
  | granted _ _ session | signedIn session | answered _ session | flushed _ session => some session

/-- The session the layer saves when the request ends. -/
def Request.toSave : Request → Option Session
  | answered status session => if session.isSaved status then some session else none
  -- the redirect of a sign-in
  | signedIn session => if session.isSaved 303 then some session else none
  | _ => none

structure World where
  rows : SessionTable
  /-- The ids drawn so far. -/
  drawn : List SessionId
  /-- The ids that were put into a cookie. -/
  cookies : List SessionId
  requests : ℕ → Request
  logins : List Login
  /-- The user a request's session named when it was loaded. -/
  found : ℕ → Option Uuid
  /-- The states with which a callback has passed the state check. -/
  passed : List String
  /-- The users that were written to a session, with what was checked for them. -/
  grants : List Grant
  /-- The sessions a logout has deleted. -/
  deleted : List SessionId
  /-- The sessions whose logout was answered. -/
  loggedOut : List SessionId

def World.init : World where
  rows := fun _ => none
  drawn := []
  cookies := []
  requests := fun _ => .idle
  logins := []
  found := fun _ => none
  passed := []
  grants := []
  deleted := []
  loggedOut := []

inductive Action where
  /-- A request arrives. Cookies are signed, so it carries no id that was not handed out. -/
  | arrive (r : ℕ) (handler : Handler) (cookie : Option SessionId)
  /-- A login or a callback loads its record. `fresh` is drawn for a record that is not there. -/
  | load (r : ℕ) (now : Time) (fresh : SessionId) (secrets : Secrets)
  /-- The callback saves its record without the flow. -/
  | save (r : ℕ) (now : Time) (draws : List SessionId)
  | check (r : ℕ)
  | signIn (r : ℕ) (now : Time)
  /-- The session gets a new id and the user. -/
  | cycle (r : ℕ) (fresh : SessionId)
  | flush (r : ℕ)
  /-- The session layer ends the request. -/
  | finish (r : ℕ) (now : Time) (draws : List SessionId)
  /-- A statement is refused, or the request is dropped. -/
  | abort (r : ℕ)
  | deleteForUser (user : Uuid)
  | deleteExpired (now : Time)

namespace World

def setRequest (s : World) (r : ℕ) (request : Request) : World :=
  { s with requests := Function.update s.requests r request }

@[simp] theorem setRequest_rows (s : World) (r : ℕ) (request : Request) :
    (s.setRequest r request).rows = s.rows := rfl

end World

/-- Saves a session and hands its id out in a cookie. -/
def handOut (config : AuthConfig) (s : World) (r : ℕ) (now : Time) (draws : List SessionId)
    (session : Session) : Option World :=
  (session.save s.rows now config.sessionTtl draws).map fun saved =>
    { s with
      rows := saved.1
      drawn := draws ++ s.drawn
      cookies := saved.2.sessionId.toList ++ s.cookies }.setRequest r .idle

/-- One statement of a request, or what it does between two of them. -/
def step (provider : Provider) (config : AuthConfig) (s : World) : Action → Option World
  | .arrive r handler cookie =>
    match s.requests r with
    | .idle =>
      if ∀ id ∈ cookie, id ∈ s.cookies then
        some (s.setRequest r (.arrived handler (.ofCookie cookie)))
      else none
    | _ => none
  | .load r now fresh secrets =>
    if fresh ∈ s.drawn then none
    else match s.requests r with
      | .arrived (.login query) session =>
        if secrets.csrf ∈ s.logins.map Login.csrf then none
        else
          let session := session.load s.rows now config.sessionTtl fresh
          some ({ s with
            drawn := fresh :: s.drawn
            logins := ⟨session.recordId, secrets⟩ :: s.logins
            found := Function.update s.found r session.data.user }.setRequest r
              (.answered 303 (login session query secrets)))
      | .arrived (.callback query) session =>
        let session := session.load s.rows now config.sessionTtl fresh
        let s := { s with
          drawn := fresh :: s.drawn
          found := Function.update s.found r session.data.user }
        match takeFlow session with
        | .ok (flow, session) => some (s.setRequest r (.taken query flow session))
        | .error _ => some (s.setRequest r (.answered 500 session))
      | _ => none
  | .save r now draws =>
    if ∃ id ∈ draws, id ∈ s.drawn then none
    else match s.requests r with
      | .taken query flow session =>
        (session.save s.rows now config.sessionTtl draws).map fun saved =>
          { s with rows := saved.1, drawn := draws ++ s.drawn }.setRequest r
            (.saved query flow saved.2)
      | _ => none
  | .check r =>
    match s.requests r with
    | .saved query flow session =>
      let s := if passesStateCheck query flow then
        { s with passed := flow.expectedState.toList ++ s.passed } else s
      match check query flow with
      | .ok checked => some (s.setRequest r (.checked checked session))
      | .error problem => some (s.setRequest r (.answered problem.status session))
    | _ => none
  | .signIn r now =>
    match s.requests r with
    | .checked checked session =>
      match signIn provider config now checked with
      | .ok user => some (s.setRequest r (.granted user checked session))
      | .error problem => some (s.setRequest r (.answered problem.status session))
    | _ => none
  | .cycle r fresh =>
    if fresh ∈ s.drawn then none
    else match s.requests r with
      | .granted user checked session =>
        let cycled := session.cycleId s.rows fresh
        some ({ s with
          rows := cycled.1
          drawn := fresh :: s.drawn
          grants := ⟨fresh, user, session.recordId, checked⟩ :: s.grants }.setRequest r
            (.signedIn (cycled.2.insert userIdKey (.string user.uuid.hyphenated))))
      | _ => none
  | .flush r =>
    match s.requests r with
    | .arrived .logout session =>
      let flushed := session.flush s.rows
      some ({ s with
        rows := flushed.1
        deleted := session.sessionId.toList ++ s.deleted }.setRequest r
          (.flushed session.sessionId flushed.2))
    | _ => none
  | .finish r now draws =>
    if ∃ id ∈ draws, id ∈ s.drawn then none
    else match s.requests r with
      | .answered _ _ | .signedIn _ =>
        match (s.requests r).toSave with
        | some session => handOut config s r now draws session
        | none => some (s.setRequest r .idle)
      -- the session is empty now, and an empty one is not saved
      | .flushed id _ => some ({ s with loggedOut := id.toList ++ s.loggedOut }.setRequest r .idle)
      | _ => none
  | .abort r => some (s.setRequest r .idle)
  | .deleteForUser user => some { s with rows := s.rows.deleteForUser user }
  | .deleteExpired now => some { s with rows := s.rows.deleteExpired now }

/-- A provider that knows one user. -/
def exampleProvider : Provider where
  exchangeCode := .ok ()
  requestTokens := fun _ _ _ => .ok ⟨"access", some "token"⟩
  claims := fun _ _ => .ok ⟨"alice", [], none⟩
  hashOf := fun _ _ => .error "no algorithm"
  recordSignIn := fun _ _ => .ok ⟨7⟩

def exampleConfig : AuthConfig where
  isDisabled := false
  allowedSubjects := ["alice"]
  allowedGroups := []
  sessionTtl := 3600

/-- A browser starts the flow, and comes back from the provider. -/
def signInRun : List Action := [
  .arrive 0 (.login ⟨none⟩) none,
  .load 0 0 ⟨1⟩ ⟨"state", "nonce", "verifier"⟩,
  .finish 0 0 [],
  .arrive 1 (.callback ⟨some "code", some "state", none, none⟩) (some ⟨1⟩),
  .load 1 0 ⟨2⟩ ⟨"", "", ""⟩,
  .save 1 0 [],
  .check 1,
  .signIn 1 0,
  .cycle 1 ⟨3⟩,
  .finish 1 0 []]

end Auth
end Nyuka
