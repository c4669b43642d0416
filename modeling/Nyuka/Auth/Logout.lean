import Nyuka.Auth.Steps

/-! Whether a logout is final. The row is deleted at once, but rows are saved by their id alone: a
request that has loaded the record before saves it as if nothing had happened. -/
namespace Nyuka
namespace Auth
open Runs

/-- A request that presents this id is let in. -/
def Authenticates (s : World) (id : SessionId) (now : Time) : Prop :=
  ∃ record user, Store.load s.rows id now = some record ∧ resolveSessionUser record.data = .ok user

/-- Nobody is let in with the id of a session whose logout was answered. -/
def Final (s : World) : Prop := ∀ id ∈ s.loggedOut, ∀ now, ¬ Authenticates s id now

/-- No record that names a user is saved under the id it was loaded from when a logout has deleted
the session since. -/
def Punctual (s : World) (a : Action) : Prop :=
  ∀ session ∈ saving s a, ∀ record ∈ session.record, session.sessionId.isSome = true →
    record.id ∈ s.deleted → record.data.user = none

variable {provider : Provider} {config : AuthConfig} {s t : World} {a : Action}

/-- The session a logout has deleted and not yet answered for. -/
def Request.flushed? : Request → Option SessionId
  | flushed id _ => id
  | _ => none

/-- What every run keeps of the sessions that were deleted. -/
structure Deleted (s : World) : Prop where
  ids : Ids s
  known : ∀ id ∈ s.deleted, id ∈ s.cookies
  flushed : ∀ r id, (s.requests r).flushed? = some id → id ∈ s.deleted
  loggedOut : ∀ id ∈ s.loggedOut, id ∈ s.deleted

/-- No deleted session has come back with a user. -/
def Gone (s : World) : Prop :=
  ∀ id ∈ s.deleted, ∀ row, s.rows id = some row → row.data.user = none

theorem final_of_gone (hdeleted : Deleted s) (h : Gone s) : Final s := by
  rintro id hid now ⟨record, user, hload, huser⟩
  obtain ⟨row, hrow, rfl⟩ := Option.map_eq_some_iff.mp hload
  have hnone := h id (hdeleted.loggedOut id hid) row (Option.filter_eq_some_iff.mp hrow).1
  rw [resolveSessionUser_eq_ok] at huser
  exact absurd (hnone.symm.trans huser) nofun

/-- What a step adds to the sessions that were deleted. -/
theorem deleted_cases (h : step provider config s a = some t) {id : SessionId}
    (hid : id ∈ t.deleted) : id ∈ s.deleted ∨ ∃ r session, a = .flush r ∧
      s.requests r = .arrived .logout session ∧ session.sessionId = some id ∧ t.rows id = none := by
  cases takes_step h with
  | @flushed r session hr =>
    rcases List.mem_append.mp hid with hid | hid
    · have hsession := Option.mem_toList.mp hid
      refine .inr ⟨r, session, rfl, hr, hsession, ?_⟩
      show (session.flush s.rows).1 id = none
      rw [Session.flush, hsession]
      exact Function.update_self id none s.rows
    · exact .inl hid
  | _ => exact .inl hid

theorem deleted_step (hs : Deleted s) (h : step provider config s a = some t) : Deleted t := by
  have hcookies : ∀ id ∈ s.cookies, id ∈ t.cookies := by
    cases takes_step h with
    | handedOut => exact fun _ => List.mem_append_right _
    | _ => exact fun _ hid => hid
  have hgrows : ∀ id ∈ s.deleted, id ∈ t.deleted := by
    cases takes_step h with
    | flushed => exact fun _ => List.mem_append_right _
    | _ => exact fun _ hid => hid
  refine ⟨ids_step hs.ids h, fun id hid => ?_, fun q id hq => ?_, fun id hid => ?_⟩
  · rcases deleted_cases h hid with hid | ⟨r, session, -, hr, hsession, -⟩
    · exact hcookies id (hs.known id hid)
    · exact hcookies id ((hs.ids.waiting r session (by rw [hr]; rfl)).2 id hsession)
  · -- only a flush makes a request one that has deleted something
    have hother : ∀ {r : ℕ} {new : Request}, t.requests = Function.update s.requests r new →
        new.flushed? = none → id ∈ t.deleted := by
      intro r new hrequests hnew
      apply each_request (P := fun _ request => request.flushed? = some id → id ∈ t.deleted)
        hrequests _ (fun q _ hq => hgrows id (hs.flushed q id hq)) q hq
      intro hnone
      cases hnew.symm.trans hnone
    cases takes_step h with
    | @flushed r session hr =>
      by_cases hqr : q = r
      · subst hqr
        rw [show (World.setRequest _ q _).requests q = _ from Function.update_self ..] at hq
        exact List.mem_append_left _ (Option.mem_toList.mpr hq)
      · exact hgrows id (hs.flushed q id (by rwa [show (World.setRequest _ r _).requests q = _
          from Function.update_of_ne hqr ..] at hq))
    | checked hr hrequest =>
      rcases hrequest with ⟨checked, -, rfl⟩ | ⟨problem, -, rfl⟩ <;> exact hother rfl rfl
    | signedIn hr hrequest =>
      rcases hrequest with ⟨user, -, rfl⟩ | ⟨problem, rfl⟩ <;> exact hother rfl rfl
    | revoked | expired => exact hs.flushed q id hq
    | _ => exact hother rfl rfl
  · cases takes_step h with
    | @loggedOut r now draws flushed session hr =>
      rcases List.mem_append.mp hid with hid | hid
      · exact hs.flushed r id (by rw [hr]; exact Option.mem_toList.mp hid)
      · exact hs.loggedOut id hid
    | _ => exact hgrows id (hs.loggedOut id hid)

theorem gone_step (hs : Deleted s) (hgone : Gone s) (hpunctual : Punctual s a)
    (h : step provider config s a = some t) : Gone t := by
  intro id hid row hrow
  rcases deleted_cases h hid with hid | ⟨r, session, -, -, -, hnone⟩
  · rcases row_step h hrow with hold |
      ⟨r, session, record, hsaving, hr, hrecord, hdata, hdraws, hown⟩
    · exact hgone id hid row hold
    · rw [← hdata]
      have hsid : (s.requests r).sid = session.sessionId := by rw [Request.sid, hr]; rfl
      have hrid : (s.requests r).rid = some record.id := by
        rw [Request.rid, hr, Option.bind_some, Session.recordId, hrecord]
        rfl
      cases hsession : session.sessionId with
      | some i =>
        rcases hown with rfl | ⟨hnone, -⟩
        · exact hpunctual session hsaving record hrecord (by rw [hsession]; rfl) hid
        · rw [hnone] at hsession
          cases hsession
      | none =>
        -- a session that is new to the store is nobody's, and was not logged out
        have hknown := hs.known id hid
        rcases hown with rfl | ⟨-, hdrawn⟩
        · exact absurd hknown (hs.ids.unknown r record.id (hsid.trans hsession) hrid)
        · exact absurd (hs.ids.cookies id hknown) (hdraws id hdrawn.1)
  · rw [hnone] at hrow
    cases hrow

private theorem deleted_init : Deleted World.init where
  ids := ids_init
  known id hid := by cases hid
  flushed r id hr := by cases hr
  loggedOut id hid := by cases hid

/-- In a run in which no request saves a signed-in record after a logout has deleted its session,
every logout is final. -/
theorem logout_final {actions : List Action}
    (h : Each (step provider config) Punctual World.init actions) :
    Always (step provider config) Final World.init actions := by
  have hrun : Always (step provider config) (fun s => Deleted s ∧ Gone s) World.init actions := by
    refine Always.of_each (fun s a t hs hpunctual hstep => ?_)
      ⟨deleted_init, fun id hid => by cases hid⟩ h
    exact ⟨deleted_step hs.1 hstep, gone_step hs.1 hs.2 hpunctual hstep⟩
  exact hrun.imp fun s hs => final_of_gone hs.1 hs.2

/-- Whoever saves a record that names a user under the id of a session whose logout was answered
has it let in again. -/
theorem not_final_of_late (h : step provider config s a = some t) {session : Session}
    {record : Record} (hsaving : saving s a = some session) (hrecord : session.record = some record)
    (hsession : session.sessionId.isSome = true) (hlogged : record.id ∈ s.loggedOut)
    (huser : record.data.user ≠ none) : ¬ Final t := by
  have hrow : ∃ now : ℤ,
      t.rows record.id = some ⟨record.id, record.data.user, record.data, now⟩ := by
    have hwritten : ∀ {now : Time} {draws : List SessionId} {saved : SessionTable × Session},
        session.save s.rows now config.sessionTtl draws = some saved →
        ∃ now : ℤ, saved.1 record.id = some ⟨record.id, record.data.user, record.data, now⟩ := by
      intro now draws saved hsave
      obtain ⟨record', id, hrecord', hid, hrows, -⟩ := session.save_cases hsave
      cases hrecord.symm.trans hrecord'
      rcases hid with rfl | ⟨hnone, -⟩
      · exact ⟨_, by rw [hrows]; exact Function.update_self ..⟩
      · rw [hnone] at hsession
        cases hsession
    cases takes_step h with
    | saved hdraws hr hsave =>
      simp only [saving, hr, Option.some.injEq] at hsaving
      subst hsaving
      exact hwritten hsave
    | handedOut hdraws hr hsave =>
      cases hr.symm.trans hsaving
      exact hwritten hsave
    | unsaved hr => cases hr.symm.trans hsaving
    | loggedOut hr => simp [saving, hr, Request.toSave] at hsaving
    | _ => cases hsaving
  have hlogged' : record.id ∈ t.loggedOut := by
    cases takes_step h with
    | loggedOut => exact List.mem_append_right _ hlogged
    | _ => exact hlogged
  obtain ⟨expiry, hrow⟩ := hrow
  obtain ⟨uuid, huuid⟩ := Option.ne_none_iff_exists'.mp huser
  intro hfinal
  refine hfinal record.id hlogged' (expiry - 1)
    ⟨⟨record.id, record.data, expiry⟩, ⟨uuid⟩, ?_, resolveSessionUser_eq_ok.mpr huuid⟩
  have hvalid : decide (expiry - 1 < expiry) = true := decide_eq_true (by omega)
  rw [Store.load, SessionTable.load, hrow, Option.filter_some, hvalid]
  rfl

/-- The user signs out while two other tabs begin to sign in again: one saves its record before the
session is deleted, and the other loads it after that. -/
def signOutRun : List Action := signInRun ++ [
  .arrive 2 (.login ⟨none⟩) (some ⟨3⟩),
  .load 2 0 ⟨4⟩ ⟨"another state", "nonce", "verifier"⟩,
  .arrive 3 .logout (some ⟨3⟩),
  .finish 2 0 [],
  .arrive 4 (.login ⟨none⟩) (some ⟨3⟩),
  .flush 3,
  .load 4 0 ⟨5⟩ ⟨"a third state", "nonce", "verifier"⟩,
  .finish 4 0 [],
  .finish 3 0 []]

/-- A test for runs in which nothing is saved too late. -/
def punctual (s : World) (a : Action) : Bool :=
  (saving s a).all fun session => session.record.all fun record =>
    !(session.sessionId.isSome && s.deleted.contains record.id) || record.data.user.isNone

private theorem punctual_of_test (s : World) (a : Action) (h : punctual s a = true) :
    Punctual s a := by
  intro session hsession record hrecord hsome hdeleted
  simp only [punctual, Option.all_eq_true] at h
  have htest := h session hsession record hrecord
  rw [hsome, List.contains_iff_mem.mpr hdeleted] at htest
  simpa using htest

theorem signOutRun_final :
    ((exec (step exampleProvider exampleConfig) World.init signOutRun).any fun s =>
        s.loggedOut = [⟨3⟩] && (s.rows ⟨5⟩).isSome) = true ∧
      Always (step exampleProvider exampleConfig) Final World.init signOutRun :=
  ⟨by decide, logout_final (Each.of_check punctual_of_test (by decide))⟩

/-- Another tab has begun to sign in again when the user signs out. -/
def overtakenRun : List Action := signInRun ++ [
  .arrive 2 (.login ⟨none⟩) (some ⟨3⟩),
  .load 2 0 ⟨4⟩ ⟨"another state", "nonce", "verifier"⟩,
  .arrive 3 .logout (some ⟨3⟩),
  .flush 3,
  .finish 3 0 [],
  .finish 2 0 []]

/-- The login saves the record it had loaded, user and all, where the logout has deleted it. -/
theorem overtakenRun_lets_in : ¬ ∀ (provider : Provider) (config : AuthConfig)
    (actions : List Action), Always (step provider config) Final World.init actions := by
  intro h
  obtain ⟨t, ht, htest⟩ := @exists_exec _ _ (step exampleProvider exampleConfig) World.init
    overtakenRun (fun t => t.loggedOut.contains ⟨3⟩ &&
      (Store.load t.rows ⟨3⟩ 0).any fun record => record.data.user.isSome) (by decide)
  rw [Bool.and_eq_true, List.contains_iff_mem, Option.any_eq_true] at htest
  obtain ⟨hlogged, record, hload, huser⟩ := htest
  obtain ⟨uuid, huuid⟩ := Option.isSome_iff_exists.mp huser
  refine not_always_of_exec ht (fun hfinal => ?_) (h _ _ overtakenRun)
  exact hfinal ⟨3⟩ hlogged 0 ⟨record, ⟨uuid⟩, hload, resolveSessionUser_eq_ok.mpr huuid⟩

end Auth
end Nyuka
