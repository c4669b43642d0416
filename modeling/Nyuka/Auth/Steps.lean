import Nyuka.Auth.Routes
import Nyuka.Foundation.Results

/-! What one step of a request does to the rows and to the requests, and which ids requests hold.
Every result below is derived from these lemmas. -/
namespace Nyuka
namespace Auth
open Api (Problem)

namespace Session

variable (session : Session) (key : String) (value : Value)

@[simp] theorem update_sessionId (data : Data) :
    (session.update data).sessionId = session.sessionId := rfl

@[simp] theorem update_recordId (data : Data) :
    (session.update data).recordId = session.recordId := by
  cases h : session.record <;> simp [recordId, update, h]

@[simp] theorem insert_sessionId : (session.insert key value).sessionId = session.sessionId := by
  unfold insert
  split <;> rfl

@[simp] theorem insert_recordId : (session.insert key value).recordId = session.recordId := by
  unfold insert
  split
  · rfl
  · exact update_recordId session _

@[simp] theorem remove_sessionId : (session.remove key).sessionId = session.sessionId := rfl

@[simp] theorem remove_recordId : (session.remove key).recordId = session.recordId :=
  update_recordId session _

theorem update_data (h : session.record.isSome = true) (data : Data) :
    (session.update data).data = data := by
  obtain ⟨record, hrecord⟩ := Option.isSome_iff_exists.mp h
  simp [Session.data, update, hrecord]

theorem insert_data (h : session.record.isSome = true) :
    (session.insert key value).data.get key = some value ∧
      ∀ other, other ≠ key →
        (session.insert key value).data.get other = session.data.get other := by
  unfold insert
  split
  · next hsame => exact ⟨hsame, fun _ _ => rfl⟩
  · have hdata : ({ session.update (session.data.insert key value) with
        isModified := true }).data = session.data.insert key value := update_data session h _
    rw [hdata]
    exact ⟨Data.get_insert_self _ _ _, fun other hother => Data.get_insert_of_ne _ _ hother⟩

theorem remove_data (h : session.record.isSome = true) :
    (session.remove key).data = session.data.remove key := update_data session h _

/-- A load finds the session's row, or begins a record under an id just drawn. -/
theorem load_cases (rows : SessionTable) (now : Time) (ttl : ℕ) (fresh : SessionId) :
    (∃ id row, session.sessionId = some id ∧ rows id = some row ∧
      session.load rows now ttl fresh =
        { session with record := some ⟨id, row.data, row.expiresAt⟩ }) ∨
      session.load rows now ttl fresh =
        { session with
          sessionId := none
          record := some ⟨fresh, .empty, now + Time.seconds ttl⟩ } := by
  unfold load
  split
  · next record hload =>
    obtain ⟨id, hid, hrecord⟩ := Option.bind_eq_some_iff.mp hload
    obtain ⟨row, hrow, rfl⟩ := Option.map_eq_some_iff.mp hrecord
    exact .inl ⟨id, row, hid, (Option.filter_eq_some_iff.mp hrow).1, rfl⟩
  · exact .inr rfl

private theorem create_cases {rows rows' : SessionTable} {now : Time} {n : ℕ}
    {draws : List SessionId}
    {record record' : Record} (h : Store.create rows now n draws record = some (rows', record')) :
    ∃ id, (id = record.id ∨ id ∈ draws ∧ (rows record.id).isSome = true) ∧
      record' = { record with id } ∧ rows' = Store.save rows record' := by
  induction n generalizing draws record with
  | zero => cases h
  | succ n ih =>
    simp only [Store.create] at h
    split at h
    · cases h
      exact ⟨_, .inl rfl, rfl, rfl⟩
    · next taken htaken =>
      cases draws with
      | nil => cases h
      | cons id draws =>
        have hrow : (rows record.id).isSome = true := by
          rw [(Option.filter_eq_some_iff.mp htaken).1]
          rfl
        obtain ⟨id', hid, hrecord, hrows⟩ := ih h
        refine ⟨id', .inr ⟨?_, hrow⟩, hrecord, hrows⟩
        rcases hid with rfl | ⟨hid, -⟩
        · exact List.mem_cons_self
        · exact List.mem_cons_of_mem id hid

/-- A session is saved under its own id; one that has none is saved under the id of its record or,
if a row has that, under one just drawn. -/
theorem save_cases {rows : SessionTable} {now : Time} {ttl : ℕ} {draws : List SessionId}
    {saved : SessionTable × Session} (h : session.save rows now ttl draws = some saved) :
    ∃ record id, session.record = some record ∧
      (id = record.id ∨ session.sessionId = none ∧ id ∈ draws ∧
        (rows record.id).isSome = true) ∧
      saved.1 = Store.save rows ⟨id, record.data, now + Time.seconds ttl⟩ ∧
      saved.2.sessionId = (session.sessionId <|> some id) ∧
      saved.2.record = some ⟨id, record.data, now + Time.seconds ttl⟩ := by
  obtain ⟨record, hrecord, hsave⟩ := Option.bind_eq_some_iff.mp h
  cases hid : session.sessionId with
  | some id =>
    rw [hid] at hsave
    cases hsave
    exact ⟨record, record.id, hrecord, .inl rfl, rfl, rfl, rfl⟩
  | none =>
    rw [hid] at hsave
    obtain ⟨⟨rows', record'⟩, hcreate, rfl⟩ := Option.map_eq_some_iff.mp hsave
    obtain ⟨id, hdrawn, rfl, hrows⟩ := create_cases hcreate
    exact ⟨record, id, hrecord, hdrawn.imp_right fun hmem => ⟨rfl, hmem⟩, hrows, rfl, rfl⟩

/-- What a logout leaves is empty, so the session layer does not save it. -/
@[simp] theorem isSaved_flush (rows : SessionTable) (status : ℕ) :
    (session.flush rows).2.isSaved status = false := by
  have hempty : (session.flush rows).2.isEmpty = true := by
    cases hrecord : session.record <;>
      simp [flush, isEmpty, Session.data, update, hrecord, Data.isEmpty, Data.empty]
  rw [isSaved, hempty, Bool.not_true, Bool.and_false, Bool.false_and]

end Session

/-! What the handlers make of a session. -/

@[simp] theorem login_sessionId (session : Session) (query : LoginQuery) (secrets : Secrets) :
    (login session query secrets).sessionId = session.sessionId := by simp [login]

@[simp] theorem login_recordId (session : Session) (query : LoginQuery) (secrets : Secrets) :
    (login session query secrets).recordId = session.recordId := by simp [login]

/-- What a callback takes is what the record has, and the record no longer has it. -/
theorem takeFlow_eq_ok {session session' : Session} {flow : Flow}
    (h : takeFlow session = .ok (flow, session')) :
    session.data.read stateKey = .ok flow.expectedState ∧
      session.data.read nonceKey = .ok flow.nonce ∧
      session.data.read pkceVerifierKey = .ok flow.verifier ∧
      session' = (((session.remove stateKey).remove nonceKey).remove pkceVerifierKey).remove
        returnToKey := by
  obtain ⟨state, hstate, h⟩ := Results.bind_eq_ok.mp h
  obtain ⟨nonce, hnonce, h⟩ := Results.bind_eq_ok.mp h
  obtain ⟨verifier, hverifier, h⟩ := Results.bind_eq_ok.mp h
  cases h
  exact ⟨hstate, hnonce, hverifier, rfl⟩

section Takes
variable (provider : Provider) (config : AuthConfig)

/-- What an action makes of the world, with what it presupposes. -/
inductive Takes (s : World) : Action → World → Prop where
  | arrived {r : ℕ} {handler : Handler} {cookie : Option SessionId}
      (hr : s.requests r = .idle) (hcookie : ∀ id ∈ cookie, id ∈ s.cookies) :
      Takes s (.arrive r handler cookie) (s.setRequest r (.arrived handler (.ofCookie cookie)))
  | loggingIn {r : ℕ} {now : Time} {fresh : SessionId} {secrets : Secrets} {query : LoginQuery}
      {session : Session} (hfresh : fresh ∉ s.drawn)
      (hr : s.requests r = .arrived (.login query) session)
      (hcsrf : secrets.csrf ∉ s.logins.map Login.csrf) :
      Takes s (.load r now fresh secrets) ({ s with
        drawn := fresh :: s.drawn
        logins := ⟨(session.load s.rows now config.sessionTtl fresh).recordId, secrets⟩ :: s.logins
        found := Function.update s.found r
          (session.load s.rows now config.sessionTtl fresh).data.user }.setRequest r
        (.answered 303
          (login (session.load s.rows now config.sessionTtl fresh) query secrets)))
  | took {r : ℕ} {now : Time} {fresh : SessionId} {secrets : Secrets} {query : CallbackQuery}
      {flow : Flow} {session session' : Session} (hfresh : fresh ∉ s.drawn)
      (hr : s.requests r = .arrived (.callback query) session)
      (htake : takeFlow (session.load s.rows now config.sessionTtl fresh) = .ok (flow, session')) :
      Takes s (.load r now fresh secrets) ({ s with
        drawn := fresh :: s.drawn
        found := Function.update s.found r
          (session.load s.rows now config.sessionTtl fresh).data.user }.setRequest r
        (.taken query flow session'))
  | unread {r : ℕ} {now : Time} {fresh : SessionId} {secrets : Secrets} {query : CallbackQuery}
      {session : Session} (hfresh : fresh ∉ s.drawn)
      (hr : s.requests r = .arrived (.callback query) session) :
      Takes s (.load r now fresh secrets) ({ s with
        drawn := fresh :: s.drawn
        found := Function.update s.found r
          (session.load s.rows now config.sessionTtl fresh).data.user }.setRequest r
        (.answered 500 (session.load s.rows now config.sessionTtl fresh)))
  | saved {r : ℕ} {now : Time} {draws : List SessionId} {query : CallbackQuery} {flow : Flow}
      {session : Session} {saved : SessionTable × Session} (hdraws : ∀ id ∈ draws, id ∉ s.drawn)
      (hr : s.requests r = .taken query flow session)
      (hsave : session.save s.rows now config.sessionTtl draws = some saved) :
      Takes s (.save r now draws)
        ({ s with rows := saved.1, drawn := draws ++ s.drawn }.setRequest r
          (.saved query flow saved.2))
  | checked {r : ℕ} {query : CallbackQuery} {flow : Flow} {session : Session} {request : Request}
      (hr : s.requests r = .saved query flow session)
      (hrequest : (∃ checked, check query flow = .ok checked ∧ request = .checked checked session) ∨
        ∃ problem, check query flow = .error problem ∧ request = .answered problem.status session) :
      Takes s (.check r) ({ s with
        passed := if passesStateCheck query flow then flow.expectedState.toList ++ s.passed
          else s.passed }.setRequest r request)
  | signedIn {r : ℕ} {now : Time} {checked : Checked} {session : Session} {request : Request}
      (hr : s.requests r = .checked checked session)
      (hrequest : (∃ user, signIn provider config now checked = .ok user ∧
          request = .granted user checked session) ∨
        ∃ problem : Problem, request = .answered problem.status session) :
      Takes s (.signIn r now) (s.setRequest r request)
  | cycled {r : ℕ} {fresh : SessionId} {user : UserId} {checked : Checked} {session : Session}
      (hfresh : fresh ∉ s.drawn) (hr : s.requests r = .granted user checked session) :
      Takes s (.cycle r fresh) ({ s with
        rows := (session.cycleId s.rows fresh).1
        drawn := fresh :: s.drawn
        grants := ⟨fresh, user, session.recordId, checked⟩ :: s.grants }.setRequest r
        (.signedIn ((session.cycleId s.rows fresh).2.insert userIdKey
          (.string user.uuid.hyphenated))))
  | flushed {r : ℕ} {session : Session} (hr : s.requests r = .arrived .logout session) :
      Takes s (.flush r) ({ s with
        rows := (session.flush s.rows).1
        deleted := session.sessionId.toList ++ s.deleted }.setRequest r
        (.flushed session.sessionId (session.flush s.rows).2))
  | handedOut {r : ℕ} {now : Time} {draws : List SessionId} {session : Session}
      {saved : SessionTable × Session} (hdraws : ∀ id ∈ draws, id ∉ s.drawn)
      (hr : (s.requests r).toSave = some session)
      (hsave : session.save s.rows now config.sessionTtl draws = some saved) :
      Takes s (.finish r now draws) ({ s with
        rows := saved.1
        drawn := draws ++ s.drawn
        cookies := saved.2.sessionId.toList ++ s.cookies }.setRequest r .idle)
  | unsaved {r : ℕ} {now : Time} {draws : List SessionId} (hr : (s.requests r).toSave = none) :
      Takes s (.finish r now draws) (s.setRequest r .idle)
  | loggedOut {r : ℕ} {now : Time} {draws : List SessionId} {id : Option SessionId}
      {session : Session} (hr : s.requests r = .flushed id session) :
      Takes s (.finish r now draws)
        ({ s with loggedOut := id.toList ++ s.loggedOut }.setRequest r .idle)
  | aborted {r : ℕ} : Takes s (.abort r) (s.setRequest r .idle)
  | revoked {user : Uuid} :
      Takes s (.deleteForUser user) { s with rows := s.rows.deleteForUser user }
  | expired {now : Time} : Takes s (.deleteExpired now) { s with rows := s.rows.deleteExpired now }

end Takes

variable {provider : Provider} {config : AuthConfig} {s t : World} {a : Action}

theorem takes_load {r : ℕ} {now : Time} {fresh : SessionId} {secrets : Secrets}
    (h : step provider config s (.load r now fresh secrets) = some t) :
    Takes provider config s (.load r now fresh secrets) t := by
  simp only [step] at h
  split at h
  · cases h
  next hfresh =>
  split at h
  · next query session hr =>
    split at h
    · cases h
    · next hcsrf =>
      cases h
      exact .loggingIn hfresh hr hcsrf
  · next query session hr =>
    split at h
    · next flow session' htake =>
      cases h
      exact .took hfresh hr htake
    · cases h
      exact .unread hfresh hr
  · cases h

theorem takes_finish {r : ℕ} {now : Time} {draws : List SessionId}
    (h : step provider config s (.finish r now draws) = some t) :
    Takes provider config s (.finish r now draws) t := by
  simp only [step] at h
  split at h
  · cases h
  next hdraws =>
  push Not at hdraws
  cases hsave : (s.requests r).toSave with
  | some session =>
    have hout : handOut config s r now draws session = some t := by
      split at h
      · rwa [hsave] at h
      · rwa [hsave] at h
      · next id session' hr =>
        rw [hr] at hsave
        cases hsave
      · cases h
    obtain ⟨saved, hsaved, rfl⟩ := Option.map_eq_some_iff.mp hout
    exact .handedOut hdraws hsave hsaved
  | none =>
    split at h
    · rw [hsave] at h
      cases h
      exact .unsaved hsave
    · rw [hsave] at h
      cases h
      exact .unsaved hsave
    · next id session hr =>
      cases h
      exact .loggedOut hr
    · cases h

private theorem takes_check {r : ℕ} (h : step provider config s (.check r) = some t) :
    Takes provider config s (.check r) t := by
  simp only [step] at h
  split at h
  · next query flow session hr =>
    have hpassed : (if passesStateCheck query flow then
        { s with passed := flow.expectedState.toList ++ s.passed } else s) =
        { s with passed := if passesStateCheck query flow then
          flow.expectedState.toList ++ s.passed else s.passed } := by
      split <;> rfl
    rw [hpassed] at h
    split at h
    · next checked hcheck =>
      cases h
      exact .checked hr (.inl ⟨checked, hcheck, rfl⟩)
    · next problem hcheck =>
      cases h
      exact .checked hr (.inr ⟨problem, hcheck, rfl⟩)
  · cases h

/-- A step is one of the cases above. -/
theorem takes_step (h : step provider config s a = some t) : Takes provider config s a t := by
  cases a with
  | load r now fresh secrets => exact takes_load h
  | finish r now draws => exact takes_finish h
  | check r => exact takes_check h
  | arrive r handler cookie =>
    simp only [step] at h
    split at h
    · next hr =>
      split at h
      · next hcookie =>
        cases h
        exact .arrived hr hcookie
      · cases h
    · cases h
  | save r now draws =>
    simp only [step] at h
    split at h
    · cases h
    next hdraws =>
    push Not at hdraws
    split at h
    · next query flow session hr =>
      obtain ⟨saved, hsave, rfl⟩ := Option.map_eq_some_iff.mp h
      exact .saved hdraws hr hsave
    · cases h
  | signIn r now =>
    simp only [step] at h
    split at h
    · next checked session hr =>
      split at h
      · next user hsign =>
        cases h
        exact .signedIn hr (.inl ⟨user, hsign, rfl⟩)
      · next problem hsign =>
        cases h
        exact .signedIn hr (.inr ⟨problem, rfl⟩)
    · cases h
  | cycle r fresh =>
    simp only [step] at h
    split at h
    · cases h
    next hfresh =>
    split at h
    · next user checked session hr =>
      cases h
      exact .cycled hfresh hr
    · cases h
  | flush r =>
    simp only [step] at h
    split at h
    · next session hr =>
      cases h
      exact .flushed hr
    · cases h
  | abort r =>
    cases h
    exact .aborted
  | deleteForUser user =>
    cases h
    exact .revoked
  | deleteExpired now =>
    cases h
    exact .expired

/-- What holds of the request that moves on, and of the others, holds of every one. -/
theorem each_request {r : ℕ} {new : Request} {P : ℕ → Request → Prop}
    (hrequests : t.requests = Function.update s.requests r new) (hnew : P r new)
    (hothers : ∀ q, q ≠ r → P q (s.requests q)) (q : ℕ) : P q (t.requests q) := by
  rw [hrequests]
  exact (Function.forall_update_iff s.requests P).mpr ⟨hnew, hothers⟩ q

theorem session_of_toSave {request : Request} {session : Session}
    (h : request.toSave = some session) : request.session? = some session := by
  unfold Request.toSave at h
  split at h
  · split at h <;> cases h
    rfl
  · split at h <;> cases h
    rfl
  · cases h

/-! What is written. -/

/-- The session an action saves. -/
def saving (s : World) : Action → Option Session
  | .save r _ _ =>
    match s.requests r with
    | .taken _ _ session => some session
    | _ => none
  | .finish r _ _ => (s.requests r).toSave
  | _ => none

/-- The ids an action draws for a session that has none. -/
def draws : Action → List SessionId
  | .save _ _ draws | .finish _ _ draws => draws
  | _ => []

/-- The row of an id is written with this data. -/
def Writes (s : World) (a : Action) (id : SessionId) (data : Data) : Prop :=
  ∃ r session record, saving s a = some session ∧ (s.requests r).session? = some session ∧
    session.record = some record ∧ record.data = data ∧ (∀ i ∈ draws a, i ∉ s.drawn) ∧
      (id = record.id ∨ session.sessionId = none ∧ id ∈ draws a ∧
        (s.rows record.id).isSome = true)

/-- A row is there from before, or it has just been written. -/
theorem row_step (h : step provider config s a = some t) {id : SessionId} {row : SessionRecord}
    (hrow : t.rows id = some row) : s.rows id = some row ∨ Writes s a id row.data := by
  have hdelete : ∀ other, s.rows.delete other id = some row → s.rows id = some row := by
    intro other hdeleted
    by_cases hid : id = other
    · rw [SessionTable.delete, hid, Function.update_self] at hdeleted
      cases hdeleted
    · rwa [SessionTable.delete, Function.update_of_ne hid] at hdeleted
  have hsaved : ∀ {now : Time} {draws : List SessionId} {session : Session}
      {saved : SessionTable × Session},
      session.save s.rows now config.sessionTtl draws = some saved → saved.1 id = some row →
      s.rows id = some row ∨ ∃ record, session.record = some record ∧ record.data = row.data ∧
        (id = record.id ∨ session.sessionId = none ∧ id ∈ draws ∧
          (s.rows record.id).isSome = true) := by
    intro now draws session saved hsave hwritten
    obtain ⟨record, id', hrecord, hid, hrows, -⟩ := session.save_cases hsave
    rw [hrows, Store.save, SessionTable.save] at hwritten
    by_cases heq : id = id'
    · subst heq
      rw [Function.update_self] at hwritten
      cases hwritten
      exact .inr ⟨record, hrecord, rfl, hid⟩
    · rw [Function.update_of_ne heq] at hwritten
      exact .inl hwritten
  cases takes_step h with
  | @saved r now draws query flow session saved hdraws hr hsave =>
    refine (hsaved hsave hrow).imp_right ?_
    rintro ⟨record, hrecord, hdata, hid⟩
    exact ⟨r, session, record, by simp only [saving, hr], by rw [hr]; rfl, hrecord, hdata, hdraws,
      hid⟩
  | @handedOut r now draws session saved hdraws hr hsave =>
    refine (hsaved hsave hrow).imp_right ?_
    rintro ⟨record, hrecord, hdata, hid⟩
    exact ⟨r, session, record, hr, session_of_toSave hr, hrecord, hdata, hdraws, hid⟩
  | @cycled r fresh user checked session hfresh hr =>
    refine .inl ?_
    cases hrecord : session.record with
    | none => simpa [Session.cycleId, hrecord] using hrow
    | some record =>
      apply hdelete record.id
      simpa [Session.cycleId, hrecord] using hrow
  | @flushed r session hr =>
    refine .inl ?_
    cases hid : session.sessionId with
    | none => simpa [Session.flush, hid] using hrow
    | some other =>
      apply hdelete other
      simpa [Session.flush, hid] using hrow
  | revoked | expired => exact .inl (Option.filter_eq_some_iff.mp hrow).1
  | _ => exact .inl hrow

/-! The ids that requests hold. -/

/-- The id of the stored session a request works on. -/
def Request.sid (request : Request) : Option SessionId := request.session?.bind Session.sessionId

/-- The id of the record a request has loaded. -/
def Request.rid (request : Request) : Option SessionId := request.session?.bind Session.recordId

/-- The session of a request that has not loaded its record. -/
def Request.waiting? : Request → Option Session
  | arrived _ session => some session
  | _ => none

/-- A record belongs to the stored session, or to a session that nobody has heard of. -/
structure Ids (s : World) : Prop where
  owned : ∀ r id id', (s.requests r).sid = some id → (s.requests r).rid = some id' → id' = id
  recorded : ∀ r id, (s.requests r).rid = some id → id ∈ s.drawn
  unknown : ∀ r id, (s.requests r).sid = none → (s.requests r).rid = some id → id ∉ s.cookies
  apart : ∀ r q id, q ≠ r → (s.requests r).sid = none → (s.requests r).rid = some id →
    (s.requests q).rid ≠ some id
  waiting : ∀ r session, (s.requests r).waiting? = some session →
    session.record = none ∧ ∀ id ∈ session.sessionId, id ∈ s.cookies
  cookies : ∀ id ∈ s.cookies, id ∈ s.drawn

/-- The ids a request may go on with: those of a stored session, or that of a record nobody has
heard of. -/
structure Fits (s t : World) (r : ℕ) (new : Request) : Prop where
  own : ∀ id', new.rid = some id' → id' ∈ t.drawn ∧ (∀ id, new.sid = some id → id' = id) ∧
    (new.sid = none → id' ∉ t.cookies ∧ ∀ q, q ≠ r → (s.requests q).rid ≠ some id')
  others : ∀ q id, q ≠ r → (s.requests q).sid = none → (s.requests q).rid = some id →
    new.rid ≠ some id ∧ id ∉ t.cookies
  waiting : ∀ session, new.waiting? = some session →
    session.record = none ∧ ∀ id ∈ session.sessionId, id ∈ t.cookies

theorem Ids.update {r : ℕ} {new : Request} (h : Ids s)
    (hrequests : t.requests = Function.update s.requests r new)
    (hdrawn : ∀ id ∈ s.drawn, id ∈ t.drawn) (hcookies : ∀ id ∈ s.cookies, id ∈ t.cookies)
    (hknown : ∀ id ∈ t.cookies, id ∈ t.drawn) (hfits : Fits s t r new) : Ids t where
  owned q id id' hsid hrid := by
    rw [hrequests] at hsid hrid
    by_cases hq : q = r
    · subst hq
      rw [Function.update_self] at hsid hrid
      exact (hfits.own id' hrid).2.1 id hsid
    · rw [Function.update_of_ne hq] at hsid hrid
      exact h.owned q id id' hsid hrid
  recorded q id hrid := by
    rw [hrequests] at hrid
    by_cases hq : q = r
    · subst hq
      rw [Function.update_self] at hrid
      exact (hfits.own id hrid).1
    · rw [Function.update_of_ne hq] at hrid
      exact hdrawn id (h.recorded q id hrid)
  unknown q id hsid hrid := by
    rw [hrequests] at hsid hrid
    by_cases hq : q = r
    · subst hq
      rw [Function.update_self] at hsid hrid
      exact ((hfits.own id hrid).2.2 hsid).1
    · rw [Function.update_of_ne hq] at hsid hrid
      exact (hfits.others q id hq hsid hrid).2
  apart q p id hne hsid hrid := by
    rw [hrequests] at hsid hrid ⊢
    by_cases hq : q = r
    · subst hq
      rw [Function.update_self] at hsid hrid
      rw [Function.update_of_ne hne]
      exact ((hfits.own id hrid).2.2 hsid).2 p hne
    · rw [Function.update_of_ne hq] at hsid hrid
      by_cases hp : p = r
      · subst hp
        rw [Function.update_self]
        exact (hfits.others q id hq hsid hrid).1
      · rw [Function.update_of_ne hp]
        exact h.apart q p id hne hsid hrid
  waiting q session hq := by
    rw [hrequests] at hq
    by_cases hqr : q = r
    · subst hqr
      rw [Function.update_self] at hq
      exact hfits.waiting session hq
    · rw [Function.update_of_ne hqr] at hq
      obtain ⟨hrecord, hcookie⟩ := h.waiting q session hq
      exact ⟨hrecord, fun id hid => hcookies id (hcookie id hid)⟩
  cookies := hknown

/-- Without a record there is nothing to clash with. -/
theorem fits_of_no_record {r : ℕ} {new : Request} (h : Ids s) (hcookies : t.cookies = s.cookies)
    (hrid : new.rid = none)
    (hwaiting : ∀ session, new.waiting? = some session →
      session.record = none ∧ ∀ id ∈ session.sessionId, id ∈ s.cookies) : Fits s t r new where
  own id' hid' := by
    rw [hrid] at hid'
    cases hid'
  others q id hq hsid hid := by
    rw [hrid, hcookies]
    exact ⟨nofun, h.unknown q id hsid hid⟩
  waiting := hcookies ▸ hwaiting

/-- A request that keeps its ids. -/
theorem fits_of_same {r : ℕ} {new : Request} (h : Ids s) (hdrawn : t.drawn = s.drawn)
    (hcookies : t.cookies = s.cookies) (hsession : new.session? = (s.requests r).session?)
    (hloaded : new.waiting? = none) : Fits s t r new := by
  have hsid : new.sid = (s.requests r).sid := congrArg (·.bind Session.sessionId) hsession
  have hrid : new.rid = (s.requests r).rid := congrArg (·.bind Session.recordId) hsession
  constructor
  · intro id' hid'
    rw [hrid] at hid'
    refine ⟨hdrawn ▸ h.recorded r id' hid', fun id hid => h.owned r id id' (hsid ▸ hid) hid', ?_⟩
    intro hnone
    rw [hsid] at hnone
    exact ⟨hcookies ▸ h.unknown r id' hnone hid', fun q hq => h.apart r q id' hq hnone hid'⟩
  · intro q id hq hsid' hid
    rw [hrid, hcookies]
    exact ⟨h.apart q r id hq.symm hsid' hid, h.unknown q id hsid' hid⟩
  · exact fun session hwaiting => absurd (hloaded.symm.trans hwaiting) nofun

/-- A request that has just got a new id for its record. -/
theorem fits_of_fresh {r : ℕ} {new : Request} {fresh : SessionId} (h : Ids s)
    (hfresh : fresh ∉ s.drawn) (hdrawn : t.drawn = fresh :: s.drawn)
    (hcookies : t.cookies = s.cookies) (hsid : new.sid = none) (hrid : new.rid = some fresh)
    (hloaded : new.waiting? = none) : Fits s t r new where
  own id' hid' := by
    rw [hrid] at hid'
    cases hid'
    refine ⟨by simp [hdrawn], fun id hid => absurd (hsid.symm.trans hid) nofun, fun _ => ?_⟩
    refine ⟨fun hmem => hfresh (h.cookies fresh (hcookies ▸ hmem)), fun q _ hq => ?_⟩
    exact hfresh (h.recorded q fresh hq)
  others q id hq hsid' hid := by
    refine ⟨fun heq => hfresh ?_, hcookies ▸ h.unknown q id hsid' hid⟩
    rw [hrid] at heq
    cases heq
    exact h.recorded q fresh hid
  waiting session hwaiting := absurd (hloaded.symm.trans hwaiting) nofun

/-- A request that has loaded the record of its session. -/
theorem fits_of_loaded {r : ℕ} {new : Request} {id fresh : SessionId} (h : Ids s)
    (hid : id ∈ s.cookies) (hdrawn : t.drawn = fresh :: s.drawn) (hcookies : t.cookies = s.cookies)
    (hsid : new.sid = some id) (hrid : new.rid = some id)
    (hloaded : new.waiting? = none) : Fits s t r new where
  own id' hid' := by
    rw [hrid] at hid'
    cases hid'
    refine ⟨?_, fun other hother => ?_, fun hnone => absurd (hsid.symm.trans hnone) nofun⟩
    · rw [hdrawn]
      exact List.mem_cons_of_mem _ (h.cookies id hid)
    · rw [hsid] at hother
      exact Option.some.inj hother
  others q other hq hsid' hother := by
    have hunknown := h.unknown q other hsid' hother
    refine ⟨fun heq => hunknown ?_, hcookies ▸ hunknown⟩
    rw [hrid] at heq
    cases heq
    exact hid
  waiting session hwaiting := absurd (hloaded.symm.trans hwaiting) nofun

/-- What a request has after it loaded: the session of its cookie, or a record of its own. -/
theorem load_ids {r : ℕ} {handler : Handler} {session : Session} (h : Ids s)
    (hr : s.requests r = .arrived handler session) (now : Time) (ttl : ℕ) (fresh : SessionId) :
    (∃ id ∈ s.cookies, (session.load s.rows now ttl fresh).sessionId = some id ∧
      (session.load s.rows now ttl fresh).recordId = some id) ∨
      (session.load s.rows now ttl fresh).sessionId = none ∧
        (session.load s.rows now ttl fresh).recordId = some fresh := by
  rcases session.load_cases s.rows now ttl fresh with ⟨id, row, hid, -, hload⟩ | hload
  · exact .inl ⟨id, (h.waiting r session (by rw [hr]; rfl)).2 id hid, by rw [hload]; exact hid,
      by rw [hload]; rfl⟩
  · exact .inr ⟨by rw [hload], by rw [hload]; rfl⟩

/-- Whatever a loaded session is made of in memory, its ids are those it was loaded with. -/
theorem fits_of_load {r : ℕ} {handler : Handler} {session : Session} {now : Time} {ttl : ℕ}
    {fresh : SessionId} {new : Request} (h : Ids s) (hr : s.requests r = .arrived handler session)
    (hfresh : fresh ∉ s.drawn) (hdrawn : t.drawn = fresh :: s.drawn)
    (hcookies : t.cookies = s.cookies)
    (hsid : new.sid = (session.load s.rows now ttl fresh).sessionId)
    (hrid : new.rid = (session.load s.rows now ttl fresh).recordId)
    (hloaded : new.waiting? = none) : Fits s t r new := by
  rcases load_ids h hr now ttl fresh with ⟨id, hid, hsession, hrecord⟩ | ⟨hsession, hrecord⟩
  · exact fits_of_loaded h hid hdrawn hcookies (hsid.trans hsession)
      (hrid.trans hrecord) hloaded
  · exact fits_of_fresh h hfresh hdrawn hcookies (hsid.trans hsession) (hrid.trans hrecord) hloaded

/-- A request that is saved has one id from then on: the one its record had, or one just drawn. -/
theorem save_ids {r : ℕ} {now : Time} {ttl : ℕ} {draws : List SessionId} {session : Session}
    {saved : SessionTable × Session} (h : Ids s) (hr : (s.requests r).session? = some session)
    (hsave : session.save s.rows now ttl draws = some saved) :
    ∃ id, saved.2.sessionId = some id ∧ saved.2.recordId = some id ∧
      ((s.requests r).rid = some id ∨ (s.requests r).sid = none ∧ id ∈ draws) := by
  obtain ⟨record, id, hrecord, hid, -, hsession, hnew⟩ := session.save_cases hsave
  have hsid : (s.requests r).sid = session.sessionId := by rw [Request.sid, hr]; rfl
  have hrid : (s.requests r).rid = some record.id := by
    rw [Request.rid, hr, Option.bind_some, Session.recordId, hrecord]
    rfl
  refine ⟨id, ?_, by rw [Session.recordId, hnew]; rfl, ?_⟩
  · rw [hsession]
    cases hold : session.sessionId with
    | none => rfl
    | some i =>
      have howned := h.owned r i record.id (hsid.trans hold) hrid
      rcases hid with rfl | ⟨hnone, -⟩
      · rw [howned]
        rfl
      · rw [hnone] at hold
        cases hold
  · rcases hid with rfl | ⟨hnone, hdrawn, -⟩
    · exact .inl hrid
    · exact .inr ⟨hsid.trans hnone, hdrawn⟩

/-- The id a request is saved under is nobody else's. -/
theorem saved_apart {r q : ℕ} {draws : List SessionId} {id other : SessionId} (h : Ids s)
    (hdraws : ∀ i ∈ draws, i ∉ s.drawn)
    (hid : (s.requests r).rid = some id ∨ (s.requests r).sid = none ∧ id ∈ draws) (hq : q ≠ r)
    (hsid : (s.requests q).sid = none) (hrid : (s.requests q).rid = some other) : id ≠ other := by
  rintro rfl
  rcases hid with hown | ⟨-, hdrawn⟩
  · exact h.apart q r id hq.symm hsid hrid hown
  · exact hdraws id hdrawn (h.recorded q id hrid)

/-- A request that was saved. -/
theorem fits_of_saved {r : ℕ} {new : Request} {draws : List SessionId} {id : SessionId} (h : Ids s)
    (hdraws : ∀ i ∈ draws, i ∉ s.drawn)
    (hid : (s.requests r).rid = some id ∨ (s.requests r).sid = none ∧ id ∈ draws)
    (hdrawn : t.drawn = draws ++ s.drawn)
    (hcookies : ∀ i ∈ t.cookies, i = id ∨ i ∈ s.cookies)
    (hnew : new = .idle ∨ new.sid = some id ∧ new.rid = some id)
    (hloaded : new.waiting? = none) : Fits s t r new where
  own id' hid' := by
    rcases hnew with rfl | ⟨hsid, hrid⟩
    · cases hid'
    · rw [hrid] at hid'
      cases hid'
      refine ⟨?_, fun i hi => Option.some.inj (hsid.symm.trans hi), fun hnone =>
        absurd (hsid.symm.trans hnone) nofun⟩
      rw [hdrawn, List.mem_append]
      exact hid.symm.imp And.right (h.recorded r id)
  others q other hq hsid' hother := by
    have hne : id ≠ other := saved_apart h hdraws hid hq hsid' hother
    constructor
    · rcases hnew with rfl | ⟨-, hrid⟩
      · exact nofun
      · rw [hrid]
        exact fun heq => hne (Option.some.inj heq)
    · intro hmem
      rcases hcookies other hmem with rfl | hold
      · exact hne rfl
      · exact h.unknown q other hsid' hother hold
  waiting session hwaiting := absurd (hloaded.symm.trans hwaiting) nofun

theorem ids_init : Ids World.init where
  owned r id id' hsid := by cases hsid
  recorded r id hrid := by cases hrid
  unknown r id _ hrid := by cases hrid
  apart r q id _ _ hrid := by cases hrid
  waiting r session hr := by cases hr
  cookies id hid := by cases hid

theorem ids_step (h : Ids s) (hstep : step provider config s a = some t) : Ids t := by
  -- a load draws an id, whatever it is used for
  have hdrawn : ∀ {fresh : SessionId}, ∀ id ∈ s.cookies, id ∈ fresh :: s.drawn :=
    fun id hid => List.mem_cons_of_mem _ (h.cookies id hid)
  cases takes_step hstep with
  | arrived hr hcookie =>
    refine h.update rfl (fun _ h => h) (fun _ h => h) h.cookies
      (fits_of_no_record h rfl rfl ?_)
    rintro session heq
    cases heq
    exact ⟨rfl, hcookie⟩
  | loggingIn hfresh hr _ =>
    exact h.update rfl (fun _ => List.mem_cons_of_mem _) (fun _ h => h) hdrawn
      (fits_of_load h hr hfresh rfl rfl (login_sessionId _ _ _) (login_recordId _ _ _) rfl)
  | took hfresh hr htake =>
    obtain ⟨-, -, -, rfl⟩ := takeFlow_eq_ok htake
    refine h.update rfl (fun _ => List.mem_cons_of_mem _) (fun _ h => h) hdrawn
      (fits_of_load h hr hfresh rfl rfl rfl ?_ rfl)
    simp only [Request.rid, Request.session?, Option.bind_some, Session.remove_recordId]
  | unread hfresh hr =>
    exact h.update rfl (fun _ => List.mem_cons_of_mem _) (fun _ h => h) hdrawn
      (fits_of_load h hr hfresh rfl rfl rfl rfl rfl)
  | @saved r now draws query flow session saved hdraws hr hsave =>
    obtain ⟨id, hsession, hrecord, hid⟩ := save_ids h (by rw [hr]; rfl) hsave
    exact h.update rfl (fun _ => List.mem_append_right _) (fun _ h => h)
      (fun id hid => List.mem_append_right _ (h.cookies id hid))
      (fits_of_saved h hdraws hid rfl (fun _ => .inr) (.inr ⟨hsession, hrecord⟩) rfl)
  | checked hr hrequest =>
    refine h.update rfl (fun _ h => h) (fun _ h => h) h.cookies
      (fits_of_same h rfl rfl ?_ ?_)
    · rw [hr]
      rcases hrequest with ⟨checked, -, rfl⟩ | ⟨problem, -, rfl⟩ <;> rfl
    · rcases hrequest with ⟨checked, -, rfl⟩ | ⟨problem, -, rfl⟩ <;> rfl
  | signedIn hr hrequest =>
    refine h.update rfl (fun _ h => h) (fun _ h => h) h.cookies
      (fits_of_same h rfl rfl ?_ ?_)
    · rw [hr]
      rcases hrequest with ⟨user, -, rfl⟩ | ⟨problem, rfl⟩ <;> rfl
    · rcases hrequest with ⟨user, -, rfl⟩ | ⟨problem, rfl⟩ <;> rfl
  | @cycled r fresh user checked session hfresh hr =>
    refine h.update rfl (fun _ => List.mem_cons_of_mem _) (fun _ h => h) hdrawn ?_
    have hsid : ∀ inserted : Session, (Request.signedIn inserted).sid = inserted.sessionId :=
      fun _ => rfl
    have hrid : ∀ inserted : Session, (Request.signedIn inserted).rid = inserted.recordId :=
      fun _ => rfl
    cases hrecord : session.record with
    | none =>
      refine fits_of_no_record h rfl ?_ nofun
      rw [hrid, Session.insert_recordId]
      simp [Session.cycleId, hrecord, Session.recordId]
    | some record =>
      refine fits_of_fresh h hfresh rfl rfl ?_ ?_ rfl
      · rw [hsid, Session.insert_sessionId]
        simp [Session.cycleId, hrecord]
      · rw [hrid, Session.insert_recordId]
        simp [Session.cycleId, hrecord, Session.recordId]
  | @flushed r session hr =>
    have hrecord := (h.waiting r session (by rw [hr]; rfl)).1
    refine h.update rfl (fun _ h => h) (fun _ h => h) h.cookies
      (fits_of_no_record h rfl ?_ nofun)
    simp [Request.rid, Request.session?, Session.flush, Session.recordId, Session.update, hrecord]
  | @handedOut r now draws session saved hdraws hr hsave =>
    obtain ⟨id, hsaved, -, hid⟩ := save_ids h (session_of_toSave hr) hsave
    have hcookies : ∀ i ∈ saved.2.sessionId.toList ++ s.cookies, i = id ∨ i ∈ s.cookies := by
      intro i hi
      rw [hsaved] at hi
      exact List.mem_cons.mp hi
    refine h.update rfl (fun _ => List.mem_append_right _) (fun _ => List.mem_append_right _)
      (fun i hi => List.mem_append.mpr ?_)
      (fits_of_saved h hdraws hid rfl hcookies (.inl rfl) rfl)
    rcases hcookies i hi with rfl | hold
    · exact hid.symm.imp And.right (h.recorded r i)
    · exact .inr (h.cookies i hold)
  | unsaved _ | loggedOut _ | aborted =>
    exact h.update rfl (fun _ h => h) (fun _ h => h) h.cookies
      (fits_of_no_record h rfl rfl nofun)
  | revoked | expired => exact ⟨h.owned, h.recorded, h.unknown, h.apart, h.waiting, h.cookies⟩

/-! Where a record is stored. -/

/-- No row has the id of a record that is new to the store. -/
def Filed (s : World) : Prop :=
  ∀ id, (s.rows id).isSome = true → id ∈ s.drawn ∧
    ∀ r, (s.requests r).sid = none → (s.requests r).rid ≠ some id

theorem drawn_step (h : step provider config s a = some t) : ∀ id ∈ s.drawn, id ∈ t.drawn := by
  cases takes_step h with
  | loggingIn | took | unread | cycled => exact fun _ => List.mem_cons_of_mem _
  | saved | handedOut => exact fun _ => List.mem_append_right _
  | _ => exact fun _ hid => hid

/-- A record that is new to the store was so before, or its id was just drawn. -/
theorem unsaved_step (h : Ids s) (hstep : step provider config s a = some t) (q : ℕ)
    {id : SessionId} (hsid : (t.requests q).sid = none) (hrid : (t.requests q).rid = some id) :
    ((s.requests q).sid = none ∧ (s.requests q).rid = some id) ∨ id ∉ s.drawn := by
  -- the request that moves on is the only one to look at
  have hmoves : ∀ {r : ℕ} {new : Request}, t.requests = Function.update s.requests r new →
      (new.sid = none → new.rid = some id →
        ((s.requests r).sid = none ∧ (s.requests r).rid = some id) ∨ id ∉ s.drawn) →
      ((s.requests q).sid = none ∧ (s.requests q).rid = some id) ∨ id ∉ s.drawn := by
    intro r new hrequests hnew
    apply each_request (P := fun q request => request.sid = none → request.rid = some id →
      ((s.requests q).sid = none ∧ (s.requests q).rid = some id) ∨ id ∉ s.drawn) hrequests hnew
      (fun q _ hsid hrid => .inl ⟨hsid, hrid⟩) q hsid hrid
  have hloads : ∀ {r : ℕ} {handler : Handler} {session : Session} {now : Time} {fresh : SessionId}
      {new : Request}, fresh ∉ s.drawn → s.requests r = .arrived handler session →
      t.requests = Function.update s.requests r new →
      new.sid = (session.load s.rows now config.sessionTtl fresh).sessionId →
      new.rid = (session.load s.rows now config.sessionTtl fresh).recordId →
      ((s.requests q).sid = none ∧ (s.requests q).rid = some id) ∨ id ∉ s.drawn := by
    intro r handler session now fresh new hfresh hr hrequests hnewsid hnewrid
    apply hmoves hrequests
    intro hnone hsome
    rcases load_ids h hr now config.sessionTtl fresh with ⟨other, -, hsession, -⟩ | ⟨-, hrecord⟩
    · rw [hnewsid, hsession] at hnone
      cases hnone
    · rw [hnewrid, hrecord] at hsome
      cases hsome
      exact .inr hfresh
  cases takes_step hstep with
  | loggingIn hfresh hr _ =>
    exact hloads hfresh hr rfl (login_sessionId _ _ _) (login_recordId _ _ _)
  | took hfresh hr htake =>
    obtain ⟨-, -, -, rfl⟩ := takeFlow_eq_ok htake
    apply hloads hfresh hr rfl rfl
    simp only [Request.rid, Request.session?, Option.bind_some, Session.remove_recordId]
  | unread hfresh hr => exact hloads hfresh hr rfl rfl rfl
  | @saved r now draws query flow session saved hdraws hr hsave =>
    obtain ⟨other, hsession, -, -⟩ := save_ids h (by rw [hr]; rfl) hsave
    apply hmoves rfl
    intro hnone
    cases hsession.symm.trans hnone
  | checked hr hrequest =>
    apply hmoves rfl
    rw [hr]
    rcases hrequest with ⟨checked, -, rfl⟩ | ⟨problem, -, rfl⟩ <;>
      exact fun hsid hrid => .inl ⟨hsid, hrid⟩
  | signedIn hr hrequest =>
    apply hmoves rfl
    rw [hr]
    rcases hrequest with ⟨user, -, rfl⟩ | ⟨problem, rfl⟩ <;>
      exact fun hsid hrid => .inl ⟨hsid, hrid⟩
  | @cycled r fresh user checked session hfresh hr =>
    apply hmoves rfl
    intro _ hsome
    have hrecord : ((session.cycleId s.rows fresh).2.insert userIdKey
        (.string user.uuid.hyphenated)).recordId = some id := hsome
    rw [Session.insert_recordId] at hrecord
    cases hloaded : session.record with
    | none => simp [Session.cycleId, hloaded, Session.recordId] at hrecord
    | some record =>
      simp only [Session.cycleId, hloaded, Session.recordId, Option.map_some,
        Option.some.injEq] at hrecord
      exact .inr (hrecord ▸ hfresh)
  | @flushed r session hr =>
    apply hmoves rfl
    intro _ hsome
    have hnone := (h.waiting r session (by rw [hr]; rfl)).1
    simp [Request.rid, Request.session?, Session.flush, Session.recordId, Session.update,
      hnone] at hsome
  | arrived => exact hmoves rfl fun _ hsome => nomatch hsome
  | handedOut | unsaved | loggedOut | aborted => exact hmoves rfl fun _ hsome => nomatch hsome
  | revoked | expired => exact .inl ⟨hsid, hrid⟩

/-- A row that has just been written is that of the request from then on, or of a cookie. -/
theorem row_known (h : Ids s) (hstep : step provider config s a = some t) {id : SessionId}
    {row : SessionRecord} (hrow : t.rows id = some row) :
    s.rows id = some row ∨ id ∈ t.cookies ∨
      ∃ q, (t.requests q).sid = some id ∧ (t.requests q).rid = some id := by
  rcases row_step hstep hrow with hold | ⟨r, session, record, hsaving, -⟩
  · exact .inl hold
  -- only the row under the saved session's id is written
  have hwritten : ∀ {now : Time} {draws : List SessionId} {session : Session}
      {saved : SessionTable × Session},
      session.save s.rows now config.sessionTtl draws = some saved → saved.1 id = some row →
      s.rows id = some row ∨ saved.2.recordId = some id := by
    intro now draws session saved hsave hwritten
    obtain ⟨record, other, -, -, hrows, -, hnew⟩ := session.save_cases hsave
    by_cases heq : id = other
    · rw [Session.recordId, hnew, heq]
      exact .inr rfl
    · rw [hrows, Store.save, SessionTable.save, Function.update_of_ne heq] at hwritten
      exact .inl hwritten
  cases takes_step hstep with
  | @saved r now draws query flow session saved hdraws hr hsave =>
    obtain ⟨other, hsession, hrecord, -⟩ := save_ids h (by rw [hr]; rfl) hsave
    rcases hwritten hsave hrow with hold | hid
    · exact .inl hold
    · cases hrecord.symm.trans hid
      refine .inr (.inr ⟨r, ?_⟩)
      rw [show (World.setRequest _ r _).requests r = _ from Function.update_self ..]
      exact ⟨hsession, hrecord⟩
  | @handedOut r now draws session saved hdraws hr hsave =>
    obtain ⟨other, hsession, hrecord, -⟩ := save_ids h (session_of_toSave hr) hsave
    rcases hwritten hsave hrow with hold | hid
    · exact .inl hold
    · cases hrecord.symm.trans hid
      refine .inr (.inl (List.mem_append_left _ ?_))
      rw [hsession]
      exact List.mem_singleton_self _
  | unsaved | loggedOut => exact .inl hrow
  | _ => cases hsaving

theorem filed_init : Filed World.init := by
  intro id hrow
  cases hrow

theorem filed_step (hids : Ids s) (h : Filed s) (hstep : step provider config s a = some t) :
    Filed t := by
  have hids' := ids_step hids hstep
  intro id hsome
  obtain ⟨row, hrow⟩ := Option.isSome_iff_exists.mp hsome
  rcases row_known hids hstep hrow with hold | hcookie | ⟨q, hsid, hrid⟩
  · obtain ⟨hdrawn, hunsaved⟩ := h id (by rw [hold]; rfl)
    refine ⟨drawn_step hstep id hdrawn, fun r hsid hrid => ?_⟩
    rcases unsaved_step hids hstep r hsid hrid with ⟨hsid', hrid'⟩ | hnew
    · exact hunsaved r hsid' hrid'
    · exact hnew hdrawn
  · exact ⟨hids'.cookies id hcookie, fun r hnone hsame => hids'.unknown r id hnone hsame hcookie⟩
  · refine ⟨hids'.recorded q id hrid, fun r hnone hsame => ?_⟩
    by_cases hqr : q = r
    · subst hqr
      cases hsid.symm.trans hnone
    · exact hids'.apart r q id hqr hnone hsame hrid

/-- A record whose id no row has is not saved under another. -/
theorem not_redrawn (h : Filed s) {r : ℕ} {session : Session} {record : Record}
    (hr : (s.requests r).session? = some session) (hrecord : session.record = some record)
    (hsession : session.sessionId = none) : (s.rows record.id).isSome = false := by
  rw [Bool.eq_false_iff]
  intro hsome
  apply (h record.id hsome).2 r
  · rw [Request.sid, hr]
    exact hsession
  · rw [Request.rid, hr, Option.bind_some, Session.recordId, hrecord]
    rfl

/-- A request saves its session under the id of its record. -/
theorem save_recordId (h : Filed s) {r : ℕ} {session : Session} {now : Time} {ttl : ℕ}
    {draws : List SessionId} {saved : SessionTable × Session}
    (hr : (s.requests r).session? = some session)
    (hsave : session.save s.rows now ttl draws = some saved) :
    saved.2.recordId = session.recordId := by
  obtain ⟨record, id, hrecord, hid, -, -, hnew⟩ := session.save_cases hsave
  rw [Session.recordId, hnew, Session.recordId, hrecord]
  rcases hid with rfl | ⟨hnone, -, hrow⟩
  · rfl
  · cases (not_redrawn h hr hrecord hnone).symm.trans hrow

/-- A row is there from before, or it is now that of a request's record. -/
theorem row_recorded (h : Filed s) (hstep : step provider config s a = some t) {id : SessionId}
    {row : SessionRecord} (hrow : t.rows id = some row) : s.rows id = some row ∨
      ∃ r session, (s.requests r).session? = some session ∧ session.recordId = some id ∧
        session.data = row.data := by
  rcases row_step hstep hrow with hold | ⟨r, session, record, -, hr, hrecord, hdata, -, hown⟩
  · exact .inl hold
  · have hid : id = record.id := by
      rcases hown with rfl | ⟨hnone, -, hsome⟩
      · rfl
      · cases (not_redrawn h hr hrecord hnone).symm.trans hsome
    refine .inr ⟨r, session, hr, ?_, ?_⟩
    · rw [Session.recordId, hrecord, hid]
      rfl
    · rw [Session.data, hrecord]
      exact hdata

end Auth
end Nyuka
