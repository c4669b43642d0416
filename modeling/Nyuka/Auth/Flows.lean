import Nyuka.Auth.Steps

/-! What sessions carry on every run, whatever the requests do to each other: the secrets of a flow
stay together, because a record is saved and loaded as a whole, and a user is written only after the
checks. -/
namespace Nyuka
namespace Auth
open Api (Problem)

/-! What the handlers do to the data. -/

theorem get_remove (session : Session) {key other : String} (h : other ≠ key) :
    (session.remove key).data.get other = session.data.get other := by
  cases hrecord : session.record with
  | none => simp [Session.remove, Session.data, Session.update, hrecord]
  | some record =>
    rw [Session.remove_data session key (by rw [hrecord]; rfl), Data.get_remove_of_ne _ h]

@[simp] theorem get_remove_self (session : Session) (key : String) :
    (session.remove key).data.get key = none := by
  cases hrecord : session.record with
  | none => simp [Session.remove, Session.data, Session.update, hrecord]
  | some record => rw [Session.remove_data session key (by rw [hrecord]; rfl), Data.get_remove_self]

theorem isSome_insert {session : Session} (h : session.record.isSome = true) (key : String)
    (value : Value) : (session.insert key value).record.isSome = true := by
  have hid := session.insert_recordId key value
  rw [Session.recordId, Session.recordId] at hid
  rw [← Option.isSome_map (f := Record.id), hid, Option.isSome_map]
  exact h

@[simp] theorem isSome_load (session : Session) (rows : SessionTable) (now : Time) (ttl : ℕ)
    (fresh : SessionId) : (session.load rows now ttl fresh).record.isSome = true := by
  rcases session.load_cases rows now ttl fresh with ⟨id, row, -, -, hload⟩ | hload <;>
    rw [hload] <;> rfl

/-- A login writes its secrets, and nothing about the user. -/
theorem login_data {session : Session} (h : session.record.isSome = true) (query : LoginQuery)
    (secrets : Secrets) :
    (login session query secrets).data.get stateKey = some (.string secrets.csrf) ∧
      (login session query secrets).data.get nonceKey = some (.string secrets.nonce) ∧
      (login session query secrets).data.get pkceVerifierKey = some (.string secrets.verifier) ∧
      (login session query secrets).data.get userIdKey = session.data.get userIdKey := by
  have h₁ := isSome_insert h stateKey (.string secrets.csrf)
  have h₂ := isSome_insert h₁ nonceKey (.string secrets.nonce)
  have h₃ := isSome_insert h₂ pkceVerifierKey (.string secrets.verifier)
  obtain ⟨hstate, hkeep₁⟩ := session.insert_data stateKey (.string secrets.csrf) h
  obtain ⟨hnonce, hkeep₂⟩ := Session.insert_data _ nonceKey (.string secrets.nonce) h₁
  obtain ⟨hverifier, hkeep₃⟩ :=
    Session.insert_data _ pkceVerifierKey (.string secrets.verifier) h₂
  obtain ⟨-, hkeep₄⟩ := Session.insert_data _ returnToKey
    ((query.returnTo.filter isSafeReturnTo).elim Value.null Value.string) h₃
  refine ⟨?_, ?_, ?_, ?_⟩
  · exact ((hkeep₄ _ (by decide)).trans (hkeep₃ _ (by decide))).trans
      ((hkeep₂ _ (by decide)).trans hstate)
  · exact ((hkeep₄ _ (by decide)).trans (hkeep₃ _ (by decide))).trans hnonce
  · exact (hkeep₄ _ (by decide)).trans hverifier
  · exact ((hkeep₄ _ (by decide)).trans (hkeep₃ _ (by decide))).trans
      ((hkeep₂ _ (by decide)).trans (hkeep₁ _ (by decide)))

/-- A callback takes the flow, and nothing about the user. -/
theorem takeFlow_data {session session' : Session} {flow : Flow}
    (h : takeFlow session = .ok (flow, session')) :
    session'.data.get stateKey = none ∧
      session'.data.get userIdKey = session.data.get userIdKey := by
  obtain ⟨-, -, -, rfl⟩ := takeFlow_eq_ok h
  constructor
  · rw [get_remove _ (by decide), get_remove _ (by decide), get_remove _ (by decide),
      get_remove_self]
  · rw [get_remove _ (by decide), get_remove _ (by decide), get_remove _ (by decide),
      get_remove _ (by decide)]

theorem user_congr {data data' : Data} (h : data'.get userIdKey = data.get userIdKey) :
    data'.user = data.user := by rw [Data.user, h, Data.user]

theorem read_eq_some {data : Data} {key s : String} (h : data.read key = .ok (some s)) :
    data.get key = some (.string s) := by
  unfold Data.read at h
  split at h
  · cases h
  · next hget =>
    cases h
    exact hget
  · cases h

/-- What a load puts into a session: the data of its row, or none. -/
theorem load_data (session : Session) (rows : SessionTable) (now : Time) (ttl : ℕ)
    (fresh : SessionId) :
    (∃ id row, session.sessionId = some id ∧ rows id = some row ∧
      (session.load rows now ttl fresh).sessionId = some id ∧
      (session.load rows now ttl fresh).recordId = some id ∧
      (session.load rows now ttl fresh).data = row.data) ∨
      (session.load rows now ttl fresh).data = .empty := by
  rcases session.load_cases rows now ttl fresh with ⟨id, row, hid, hrow, hload⟩ | hload
  · exact .inl ⟨id, row, hid, hrow, by rw [hload]; exact hid, by rw [hload]; rfl,
      by rw [hload]; rfl⟩
  · exact .inr (by rw [hload]; rfl)

/-- A save changes nothing of the data. -/
theorem save_data {session : Session} {rows : SessionTable} {now : Time} {ttl : ℕ}
    {draws : List SessionId} {saved : SessionTable × Session}
    (h : session.save rows now ttl draws = some saved) : saved.2.data = session.data := by
  obtain ⟨record, id, hrecord, -, -, -, hnew⟩ := session.save_cases h
  rw [Session.data, Session.data, hnew, hrecord]
  rfl

/-! What sessions and requests may hold. -/

/-- The secrets a callback went to the provider with. -/
def Checked.secrets (checked : Checked) : Secrets :=
  ⟨checked.state, checked.nonce, checked.verifier⟩

/-- The provider answered the code and the PKCE verifier with a token that verifies with the nonce,
and the access policy permits who it names: this is the user. -/
def Verified (provider : Provider) (config : AuthConfig) (checked : Checked) (user : UserId) :
    Prop :=
  ∃ now tokens idToken claims,
    provider.requestTokens now checked.code checked.verifier = .ok tokens ∧
      tokens.idToken = some idToken ∧ provider.claims idToken checked.nonce = .ok claims ∧
      (∀ hash ∈ claims.accessTokenHash, provider.hashOf tokens.accessToken idToken = .ok hash) ∧
      config.permits claims.subject claims.groups = true ∧
      provider.recordSignIn now claims.subject = .ok user

/-- What the session of an id may carry: a state only that a login of this session drew, with what
it drew beside it, and a user only that was granted to this session. -/
structure Clean (s : World) (id : Option SessionId) (data : Data) : Prop where
  flow : ∀ csrf, data.get stateKey = some (.string csrf) → ∃ l ∈ s.logins, l.session = id ∧
    l.csrf = csrf ∧ data.get nonceKey = some (.string l.secrets.nonce) ∧
    data.get pkceVerifierKey = some (.string l.secrets.verifier)
  user : ∀ uuid, data.user = some uuid → ∃ g ∈ s.grants, some g.session = id ∧ g.user.uuid = uuid

/-- A callback took what one login of its session drew. -/
def FlowOf (s : World) (id : Option SessionId) (flow : Flow) : Prop :=
  ∀ csrf, flow.expectedState = some csrf → ∃ l ∈ s.logins, l.session = id ∧ l.csrf = csrf ∧
    flow.nonce = some l.secrets.nonce ∧ flow.verifier = some l.secrets.verifier

/-- A flow was taken out of a stored session. -/
def Held (flow : Flow) (session : Session) : Prop :=
  flow.expectedState.isSome = true →
    session.sessionId.isSome = true ∧ session.record.isSome = true

/-- What a callback goes on with was drawn by one login of its session, and its state has come
back. -/
def OfLogin (s : World) (id : Option SessionId) (checked : Checked) : Prop :=
  ⟨id, checked.secrets⟩ ∈ s.logins ∧ checked.state ∈ s.passed

/-- The session of a callback that has taken its flow and written no user. -/
structure Bare (s : World) (r : ℕ) (session : Session) : Prop where
  clean : Clean s session.recordId session.data
  state : session.data.get stateKey = none
  user : session.data.user = s.found r

/-- What a request may hold. -/
def Fair (provider : Provider) (config : AuthConfig) (s : World) (r : ℕ) : Request → Prop
  | .idle => True
  | .arrived _ session | .flushed _ session => session.data = .empty
  | .taken _ flow session => Bare s r session ∧ FlowOf s session.recordId flow ∧ Held flow session
  | .saved _ flow session => Bare s r session ∧ FlowOf s session.recordId flow
  | .checked checked session => Bare s r session ∧ OfLogin s session.recordId checked
  | .granted user checked session =>
    Bare s r session ∧ OfLogin s session.recordId checked ∧ Verified provider config checked user
  | .signedIn session => Clean s session.recordId session.data ∧ session.data.get stateKey = none
  | .answered _ session => Clean s session.recordId session.data ∧ session.data.user = s.found r

/-- What holds on every run, whatever its requests do to each other. -/
structure Honest (provider : Provider) (config : AuthConfig) (s : World) : Prop where
  rows : ∀ id row, s.rows id = some row → Clean s (some id) row.data
  requests : ∀ r, Fair provider config s r (s.requests r)
  grants : ∀ g ∈ s.grants, OfLogin s g.origin g.checked ∧ Verified provider config g.checked g.user
  passed : ∀ csrf ∈ s.passed, ∃ l ∈ s.logins, l.csrf = csrf

variable {provider : Provider} {config : AuthConfig} {s t : World} {a : Action}

theorem clean_empty (s : World) (id : Option SessionId) : Clean s id .empty where
  flow csrf h := by cases h
  user uuid h := by cases h

/-- What was drawn and granted stays so. -/
structure Grows (s t : World) : Prop where
  logins : ∀ l ∈ s.logins, l ∈ t.logins
  grants : ∀ g ∈ s.grants, g ∈ t.grants
  passed : ∀ csrf ∈ s.passed, csrf ∈ t.passed

theorem grows_step (h : step provider config s a = some t) : Grows s t := by
  cases takes_step h with
  | loggingIn => exact ⟨fun _ => List.mem_cons_of_mem _, fun _ h => h, fun _ h => h⟩
  | cycled => exact ⟨fun _ h => h, fun _ => List.mem_cons_of_mem _, fun _ h => h⟩
  | @checked r query flow session request hr hrequest =>
    refine ⟨fun _ h => h, fun _ h => h, fun csrf hcsrf => ?_⟩
    show csrf ∈ if passesStateCheck query flow then flow.expectedState.toList ++ s.passed
      else s.passed
    split
    · exact List.mem_append_right _ hcsrf
    · exact hcsrf
  | _ => exact ⟨fun _ h => h, fun _ h => h, fun _ h => h⟩

theorem Clean.mono {id : Option SessionId} {data : Data} (hgrows : Grows s t)
    (h : Clean s id data) :
    Clean t id data where
  flow csrf hcsrf := by
    obtain ⟨l, hl, hrest⟩ := h.flow csrf hcsrf
    exact ⟨l, hgrows.logins l hl, hrest⟩
  user uuid huuid := by
    obtain ⟨g, hg, hrest⟩ := h.user uuid huuid
    exact ⟨g, hgrows.grants g hg, hrest⟩

theorem FlowOf.mono {id : Option SessionId} {flow : Flow} (hgrows : Grows s t)
    (h : FlowOf s id flow) :
    FlowOf t id flow := by
  intro csrf hcsrf
  obtain ⟨l, hl, hrest⟩ := h csrf hcsrf
  exact ⟨l, hgrows.logins l hl, hrest⟩

theorem OfLogin.mono {id : Option SessionId} {checked : Checked} (hgrows : Grows s t)
    (h : OfLogin s id checked) : OfLogin t id checked := ⟨hgrows.logins _ h.1, hgrows.passed _ h.2⟩

theorem Bare.mono {r : ℕ} {session : Session} (hgrows : Grows s t) (hfound : t.found r = s.found r)
    (h : Bare s r session) : Bare t r session := ⟨h.clean.mono hgrows, h.state, hfound ▸ h.user⟩

theorem Fair.mono {r : ℕ} {request : Request} (hgrows : Grows s t) (hfound : t.found r = s.found r)
    (h : Fair provider config s r request) : Fair provider config t r request := by
  cases request with
  | idle | arrived _ _ | flushed _ _ => exact h
  | taken _ _ _ => exact ⟨h.1.mono hgrows hfound, h.2.1.mono hgrows, h.2.2⟩
  | saved _ _ _ => exact ⟨h.1.mono hgrows hfound, h.2.mono hgrows⟩
  | checked _ _ => exact ⟨h.1.mono hgrows hfound, h.2.mono hgrows⟩
  | granted _ _ _ => exact ⟨h.1.mono hgrows hfound, h.2.1.mono hgrows, h.2.2⟩
  | signedIn _ => exact ⟨h.1.mono hgrows, h.2⟩
  | answered _ _ => exact ⟨h.1.mono hgrows, hfound ▸ h.2⟩

theorem Fair.clean {r : ℕ} {request : Request} {session : Session}
    (h : Fair provider config s r request) (hsession : request.session? = some session) :
    Clean s session.recordId session.data := by
  cases request with
  | idle => cases hsession
  | arrived _ _ | flushed _ _ =>
    cases hsession
    exact h ▸ clean_empty s _
  | taken _ _ _ | saved _ _ _ | checked _ _ | granted _ _ _ =>
    cases hsession
    exact h.1.clean
  | signedIn _ | answered _ _ =>
    cases hsession
    exact h.1

/-- A session whose flow was taken carries the user it was loaded with. -/
theorem clean_of_same {id : Option SessionId} {data data' : Data} (h : Clean s id data)
    (hstate : data'.get stateKey = none) (huser : data'.get userIdKey = data.get userIdKey) :
    Clean s id data' where
  flow _ hcsrf := absurd (hstate.symm.trans hcsrf) nofun
  user uuid huuid := h.user uuid (user_congr huser ▸ huuid)

theorem clean_load {session : Session} {now : Time} {ttl : ℕ} {fresh : SessionId}
    (h : Honest provider config s) : Clean s (session.load s.rows now ttl fresh).recordId
      (session.load s.rows now ttl fresh).data := by
  rcases load_data session s.rows now ttl fresh with ⟨id, row, -, hrow, -, hid, hdata⟩ | hdata
  · rw [hid, hdata]
    exact h.rows id row hrow
  · rw [hdata]
    exact clean_empty s _

/-- The secrets that pass the checks are those the callback took. -/
theorem check_eq_ok {query : CallbackQuery} {flow : Flow} {checked : Checked}
    (h : check query flow = .ok checked) : passesStateCheck query flow = true ∧
      flow = ⟨some checked.state, some checked.nonce, some checked.verifier⟩ := by
  obtain ⟨expected, nonce, verifier⟩ := flow
  unfold check at h
  split at h
  · cases h
  next herror =>
  split at h
  · next expectedState nonce verifier hexpected hnonce hverifier =>
    split at h
    · cases h
    next receivedState hreceived =>
    split at h
    · cases h
    next hequal =>
    split at h
    · cases h
    · cases h
      dsimp only at hexpected hnonce hverifier
      subst hexpected hnonce hverifier
      refine ⟨?_, rfl⟩
      simp only [passesStateCheck, herror, hreceived, Option.isNone_none, Option.isSome_some,
        Bool.true_and]
      simpa using hequal
  · cases h

private theorem checkAccessToken_eq_ok {accessToken idToken : String} {claims : Claims}
    (h : checkAccessToken provider accessToken idToken claims = .ok ()) :
    ∀ hash ∈ claims.accessTokenHash, provider.hashOf accessToken idToken = .ok hash := by
  intro expected hexpected
  rw [checkAccessToken, Option.mem_def.mp hexpected] at h
  obtain ⟨actual, hactual, h⟩ := Results.bind_eq_ok.mp h
  split at h
  · next heq => exact heq ▸ Results.mapError_eq_ok.mp hactual
  · cases h

theorem signIn_eq_ok {now : Time} {checked : Checked} {user : UserId}
    (h : signIn provider config now checked = .ok user) :
    Verified provider config checked user := by
  obtain ⟨claims, hexchange, hadmit⟩ := Results.bind_eq_ok.mp h
  obtain ⟨_, -, hexchange⟩ := Results.bind_eq_ok.mp hexchange
  obtain ⟨tokens, htokens, hexchange⟩ := Results.bind_eq_ok.mp hexchange
  obtain ⟨idToken, hidToken, hexchange⟩ := Results.bind_eq_ok.mp hexchange
  obtain ⟨claims', hclaims, hexchange⟩ := Results.bind_eq_ok.mp hexchange
  obtain ⟨_, hhash, hreturn⟩ := Results.bind_eq_ok.mp hexchange
  cases hreturn
  rw [Results.mapError_eq_ok] at htokens hclaims
  have hid : tokens.idToken = some idToken := by
    cases htoken : tokens.idToken with
    | none =>
      rw [htoken] at hidToken
      cases hidToken
    | some token =>
      rw [htoken] at hidToken
      cases hidToken
      rfl
  split at hadmit
  · next hpermits =>
    exact ⟨now, tokens, idToken, claims, htokens, hid, hclaims, checkAccessToken_eq_ok hhash,
      hpermits, Results.mapError_eq_ok.mp hadmit⟩
  · cases hadmit

/-! The steps. -/

theorem bare_saved {r : ℕ} {session : Session} {rows : SessionTable} {now : Time} {ttl : ℕ}
    {draws : List SessionId} {saved : SessionTable × Session} (h : Bare s r session)
    (hid : saved.2.recordId = session.recordId)
    (hsave : session.save rows now ttl draws = some saved) : Bare s r saved.2 := by
  have hdata := save_data hsave
  exact ⟨hdata ▸ hid ▸ h.clean, hdata ▸ h.state, hdata ▸ h.user⟩

/-- What a callback takes out of a clean record. -/
theorem flowOf_takeFlow {id : Option SessionId} {session session' : Session} {flow : Flow}
    (h : takeFlow session = .ok (flow, session')) (hclean : Clean s id session.data) :
    FlowOf s id flow := by
  intro csrf hcsrf
  obtain ⟨hstate, hnonce, hverifier, -⟩ := takeFlow_eq_ok h
  rw [hcsrf] at hstate
  obtain ⟨l, hl, hlid, hlcsrf, hlnonce, hlverifier⟩ := hclean.flow csrf (read_eq_some hstate)
  simp only [Data.read, hlnonce, hlverifier, Except.ok.injEq] at hnonce hverifier
  exact ⟨l, hl, hlid, hlcsrf, hnonce.symm, hverifier.symm⟩

theorem held_takeFlow {session session' : Session} {now : Time} {ttl : ℕ} {fresh : SessionId}
    {rows : SessionTable} {flow : Flow}
    (h : takeFlow (session.load rows now ttl fresh) = .ok (flow, session')) :
    Held flow session' := by
  intro hsome
  obtain ⟨csrf, hcsrf⟩ := Option.isSome_iff_exists.mp hsome
  obtain ⟨hstate, -, -, hsession⟩ := takeFlow_eq_ok h
  rw [hcsrf] at hstate
  have hget := read_eq_some hstate
  rcases load_data session rows now ttl fresh with ⟨id, row, -, -, hid, -, -⟩ | hempty
  · rw [hsession]
    refine ⟨by simp only [Session.remove_sessionId, hid, Option.isSome_some], ?_⟩
    simp [Session.remove, Session.update]
  · rw [hempty] at hget
    cases hget

/-- The record a callback signs the user in with. -/
theorem clean_signedIn {r : ℕ} {g : Grant} {session : Session} (hbare : Bare s r session)
    (hgrant : g ∈ t.grants) :
    Clean t ((session.cycleId s.rows g.session).2.insert userIdKey
        (.string g.user.uuid.hyphenated)).recordId
      ((session.cycleId s.rows g.session).2.insert userIdKey
        (.string g.user.uuid.hyphenated)).data ∧
      ((session.cycleId s.rows g.session).2.insert userIdKey
        (.string g.user.uuid.hyphenated)).data.get stateKey = none := by
  cases hrecord : session.record with
  | none =>
    have hnone : ∀ value, (session.insert userIdKey value).data = .empty := by
      intro value
      unfold Session.insert
      split <;> simp [Session.data, Session.update, hrecord]
    simp only [Session.cycleId, hrecord, hnone]
    exact ⟨clean_empty t _, rfl⟩
  | some record =>
    have hcycled : (session.cycleId s.rows g.session).2.record.isSome = true := by
      simp [Session.cycleId, hrecord]
    have hdata : (session.cycleId s.rows g.session).2.data = session.data := by
      simp [Session.cycleId, hrecord, Session.data]
    obtain ⟨huser, hkeep⟩ := Session.insert_data _ userIdKey
      (.string g.user.uuid.hyphenated) hcycled
    have hstate := hkeep stateKey (by decide)
    rw [hdata, hbare.state] at hstate
    refine ⟨⟨fun csrf hcsrf => ?_, fun uuid huuid => ?_⟩, hstate⟩
    · cases hstate.symm.trans hcsrf
    · rw [Data.user, huser] at huuid
      dsimp only at huuid
      rw [Uuid.parse_hyphenated] at huuid
      refine ⟨g, hgrant, ?_, Option.some.inj huuid⟩
      rw [Session.insert_recordId]
      simp [Session.cycleId, hrecord, Session.recordId]

/-- A step that makes one request what it may be. -/
theorem fair_update {r : ℕ} {new : Request} (h : Honest provider config s) (hgrows : Grows s t)
    (hrequests : t.requests = Function.update s.requests r new)
    (hfound : ∀ q, q ≠ r → t.found q = s.found q) (hnew : Fair provider config t r new) (q : ℕ) :
    Fair provider config t q (t.requests q) :=
  each_request hrequests hnew (fun q hq => (h.requests q).mono hgrows (hfound q hq)) q

private theorem fair_step (hfiled : Filed s) (h : Honest provider config s)
    (hstep : step provider config s a = some t) (q : ℕ) :
    Fair provider config t q (t.requests q) := by
  have hgrows := grows_step hstep
  cases takes_step hstep with
  | @arrived r handler cookie hr hcookie => exact fair_update h hgrows rfl (fun _ _ => rfl) rfl q
  | @loggingIn r now fresh secrets query session hfresh hr hcsrf =>
    obtain ⟨hstate, hnonce, hverifier, huser⟩ := login_data
      (isSome_load session s.rows now config.sessionTtl fresh) query secrets
    refine fair_update h hgrows rfl (fun q hq => Function.update_of_ne hq ..) ⟨⟨?_, ?_⟩, ?_⟩ q
    · intro csrf hcsrf
      rw [hstate] at hcsrf
      cases hcsrf
      exact ⟨_, List.mem_cons_self, (login_recordId _ _ _).symm, rfl, hnonce, hverifier⟩
    · intro uuid huuid
      rw [user_congr huser] at huuid
      rw [login_recordId]
      exact ((clean_load h).mono hgrows).user uuid huuid
    · rw [user_congr huser]
      simp [World.setRequest]
  | @took r now fresh secrets query flow session session' hfresh hr htake =>
    obtain ⟨hstate, huser⟩ := takeFlow_data htake
    have hid : session'.recordId = (session.load s.rows now config.sessionTtl fresh).recordId := by
      obtain ⟨-, -, -, rfl⟩ := takeFlow_eq_ok htake
      simp only [Session.remove_recordId]
    refine fair_update h hgrows rfl (fun q hq => Function.update_of_ne hq ..)
      ⟨⟨?_, hstate, ?_⟩, ?_, held_takeFlow htake⟩ q
    · rw [hid]
      exact clean_of_same ((clean_load h).mono hgrows) hstate huser
    · rw [user_congr huser]
      simp [World.setRequest]
    · rw [hid]
      exact flowOf_takeFlow htake ((clean_load h).mono hgrows)
  | @unread r now fresh secrets query session hfresh hr =>
    refine fair_update h hgrows rfl (fun q hq => Function.update_of_ne hq ..) ⟨?_, ?_⟩ q
    · exact (clean_load h).mono hgrows
    · simp [World.setRequest]
  | @saved r now draws query flow session saved hdraws hr hsave =>
    have hfair := h.requests r
    rw [hr] at hfair
    have hid := save_recordId hfiled (by rw [hr]; rfl) hsave
    exact fair_update h hgrows rfl (fun _ _ => rfl)
      ⟨(bare_saved hfair.1 hid hsave).mono hgrows rfl, hid ▸ hfair.2.1.mono hgrows⟩ q
  | @checked r query flow session request hr hrequest =>
    have hfair := h.requests r
    rw [hr] at hfair
    have hbare := hfair.1.mono hgrows rfl
    rcases hrequest with ⟨checked, hcheck, rfl⟩ | ⟨problem, -, rfl⟩
    · obtain ⟨hpasses, rfl⟩ := check_eq_ok hcheck
      refine fair_update h hgrows rfl (fun _ _ => rfl) ⟨hbare, ?_, ?_⟩ q
      · obtain ⟨l, hl, hid, hcsrf, hnonce, hverifier⟩ := hfair.2 checked.state rfl
        have hlogin : (⟨session.recordId, checked.secrets⟩ : Login) = l := by
          rw [Checked.secrets, Option.some.inj hnonce, Option.some.inj hverifier, ← hcsrf, ← hid]
          rfl
        exact hlogin ▸ hl
      · simp [World.setRequest, hpasses]
    · exact fair_update h hgrows rfl (fun _ _ => rfl) ⟨hbare.clean, hbare.user⟩ q
  | @signedIn r now checked session request hr hrequest =>
    have hfair := h.requests r
    rw [hr] at hfair
    have hbare := hfair.1.mono hgrows rfl
    rcases hrequest with ⟨user, hsign, rfl⟩ | ⟨problem, rfl⟩
    · exact fair_update h hgrows rfl (fun _ _ => rfl)
        ⟨hbare, hfair.2.mono hgrows, signIn_eq_ok hsign⟩ q
    · exact fair_update h hgrows rfl (fun _ _ => rfl) ⟨hbare.clean, hbare.user⟩ q
  | @cycled r fresh user checked session hfresh hr =>
    have hfair := h.requests r
    rw [hr] at hfair
    exact fair_update h hgrows rfl (fun _ _ => rfl)
      (@clean_signedIn s _ r ⟨fresh, user, session.recordId, checked⟩ session hfair.1
        List.mem_cons_self) q
  | @flushed r session hr =>
    have hfair := h.requests r
    rw [hr] at hfair
    refine fair_update h hgrows rfl (fun _ _ => rfl) ?_ q
    show (session.flush s.rows).2.data = .empty
    cases hrecord : session.record <;> simp [Session.flush, Session.data, Session.update, hrecord]
  | handedOut | unsaved | loggedOut | aborted =>
    exact fair_update h hgrows rfl (fun _ _ => rfl) trivial q
  | revoked | expired => exact (h.requests q).mono hgrows rfl

theorem honest_step (hfiled : Filed s) (h : Honest provider config s)
    (hstep : step provider config s a = some t) : Honest provider config t where
  rows id row hrow := by
    have hgrows := grows_step hstep
    rcases row_recorded hfiled hstep hrow with hold | ⟨r, session, hr, hid, hdata⟩
    · exact (h.rows id row hold).mono hgrows
    · have hclean := (h.requests r).clean hr
      exact hid ▸ hdata ▸ hclean.mono hgrows
  requests := fair_step hfiled h hstep
  grants := by
    have hgrows := grows_step hstep
    have hold : ∀ g ∈ s.grants, OfLogin t g.origin g.checked ∧
        Verified provider config g.checked g.user :=
      fun g hg => ⟨(h.grants g hg).1.mono hgrows, (h.grants g hg).2⟩
    cases takes_step hstep with
    | @cycled r fresh user checked session hfresh hr =>
      have hfair := h.requests r
      rw [hr] at hfair
      intro g hg
      rcases List.mem_cons.mp hg with rfl | hg
      · exact ⟨hfair.2.1.mono hgrows, hfair.2.2⟩
      · exact hold g hg
    | _ => exact hold
  passed := by
    have hgrows := grows_step hstep
    have hold : ∀ csrf ∈ s.passed, ∃ l ∈ t.logins, l.csrf = csrf := by
      intro csrf hcsrf
      obtain ⟨l, hl, heq⟩ := h.passed csrf hcsrf
      exact ⟨l, hgrows.logins l hl, heq⟩
    cases takes_step hstep with
    | @checked r query flow session request hr hrequest =>
      have hfair := h.requests r
      rw [hr] at hfair
      intro csrf hcsrf
      have hmem : csrf ∈ if passesStateCheck query flow then flow.expectedState.toList ++ s.passed
        else s.passed := hcsrf
      split at hmem
      · rcases List.mem_append.mp hmem with hmem | hmem
        · obtain ⟨l, hl, -, heq, -⟩ := hfair.2 csrf (Option.mem_toList.mp hmem)
          exact ⟨l, hl, heq⟩
        · exact hold csrf hmem
      · exact hold csrf hmem
    | _ => exact hold

theorem honest_init : Honest provider config World.init where
  rows id row hrow := by cases hrow
  requests r := trivial
  grants g hg := by cases hg
  passed csrf hcsrf := by cases hcsrf

end Auth
end Nyuka
