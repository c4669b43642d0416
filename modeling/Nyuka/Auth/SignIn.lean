import Nyuka.Auth.Flows

/-! Whether a sign-in flow is used once. A callback takes the flow's secrets out of the record and
saves it before it checks anything; but it has loaded the record before, and so may have another. -/
namespace Nyuka
namespace Auth
open Runs

/-! Where the state of a login can be. -/

def RowHas (s : World) (id : SessionId) (csrf : String) : Prop :=
  ∃ row, s.rows id = some row ∧ row.data.get stateKey = some (.string csrf)

namespace Request

/-- The session that is going to be saved carries the state. -/
def Pending (csrf : String) (request : Request) : Prop :=
  ∃ session, request.toSave = some session ∧ session.data.get stateKey = some (.string csrf)

/-- A callback has taken the state out of its session, and has not saved that. -/
def Took (csrf : String) (request : Request) (session : Session) : Prop :=
  ∃ query flow, request = .taken query flow session ∧ flow.expectedState = some csrf

/-- A callback has saved its session without the state. -/
def Stored (csrf : String) (request : Request) : Prop :=
  ∃ query flow session, request = .saved query flow session ∧ flow.expectedState = some csrf

/-- A callback that has the state is going to pass the state check. -/
def Potent (csrf : String) (request : Request) : Prop :=
  ∃ query flow session,
    (request = .taken query flow session ∨ request = .saved query flow session) ∧
      flow.expectedState = some csrf ∧ passesStateCheck query flow = true

/-- The request has nothing to do with the state. -/
structure Inert (csrf : String) (request : Request) : Prop where
  pending : ¬ Pending csrf request
  took : ∀ session, ¬ Took csrf request session
  stored : ¬ Stored csrf request

theorem Potent.cases {csrf : String} {request : Request} (h : Potent csrf request) :
    (∃ session, Took csrf request session) ∨ Stored csrf request := by
  obtain ⟨query, flow, session, hrequest, hstate, -⟩ := h
  rcases hrequest with hrequest | hrequest
  · exact .inl ⟨session, query, flow, hrequest, hstate⟩
  · exact .inr ⟨query, flow, session, hrequest, hstate⟩

theorem Inert.not_potent {csrf : String} {request : Request} (h : Inert csrf request) :
    ¬ Potent csrf request := by
  intro hpotent
  rcases hpotent.cases with ⟨session, htook⟩ | hstored
  · exact h.took session htook
  · exact h.stored hstored

/-- What a request has taken out of its record. -/
def flow? : Request → Option Flow
  | taken _ flow _ | saved _ flow _ => some flow
  | _ => none

/-- Only a request whose session carries the state, or that has taken it, is not inert. -/
theorem inert_of_session {csrf : String} {request : Request}
    (hsession : ∀ session, request.toSave = some session →
      session.data.get stateKey ≠ some (.string csrf))
    (hflow : ∀ flow, request.flow? = some flow → flow.expectedState ≠ some csrf) :
    Inert csrf request where
  pending := by
    rintro ⟨session, hsave, hstate⟩
    exact hsession session hsave hstate
  took := by
    rintro session ⟨query, flow, rfl, hstate⟩
    exact hflow flow rfl hstate
  stored := by
    rintro ⟨query, flow, session, rfl, hstate⟩
    exact hflow flow rfl hstate

theorem inert_of_quiet {csrf : String} {request : Request} (hsave : request.toSave = none)
    (hflow : request.flow? = none) : Inert csrf request := by
  apply inert_of_session
  · intro session hsession
    cases hsave.symm.trans hsession
  · intro flow hsome
    cases hflow.symm.trans hsome

end Request

open Request

/-- A state moves from its login into one row, from there to callbacks of which one can pass, and
then nowhere. -/
structure Ticket (s : World) (csrf : String) : Prop where
  row : ∀ id id', RowHas s id csrf → RowHas s id' csrf → id = id'
  pending : ∀ r, Pending csrf (s.requests r) → (∀ id, ¬ RowHas s id csrf) ∧ csrf ∉ s.passed ∧
    ∀ q, q ≠ r → Inert csrf (s.requests q)
  took : ∀ r id session, Took csrf (s.requests r) session → RowHas s id csrf →
    session.sessionId = some id
  stored : ∀ r, Stored csrf (s.requests r) → ∀ id, ¬ RowHas s id csrf
  passed : csrf ∈ s.passed → (∀ id, ¬ RowHas s id csrf) ∧ ∀ r, ¬ Potent csrf (s.requests r)
  single : ∀ r q, Potent csrf (s.requests r) → Potent csrf (s.requests q) → r = q
  once : s.passed.count csrf ≤ 1

variable {provider : Provider} {config : AuthConfig} {s t : World} {a : Action} {csrf : String}

theorem rowHas_of_rows (h : t.rows = s.rows) (id : SessionId) (hid : RowHas t id csrf) :
    RowHas s id csrf := by rwa [RowHas, h] at hid

/-- A step that only takes the state away from somewhere. -/
theorem Ticket.shrink (h : Ticket s csrf) (hrow : ∀ id, RowHas t id csrf → RowHas s id csrf)
    (hrequests : ∀ r, t.requests r = s.requests r ∨ Inert csrf (t.requests r))
    (hpassed : t.passed.count csrf = s.passed.count csrf) : Ticket t csrf := by
  have hmem : csrf ∈ t.passed ↔ csrf ∈ s.passed := by
    rw [← List.count_pos_iff, hpassed, List.count_pos_iff]
  have hpotent : ∀ r, Potent csrf (t.requests r) → Potent csrf (s.requests r) := by
    intro r hr
    rcases hrequests r with hsame | hinert
    · exact hsame ▸ hr
    · exact absurd hr hinert.not_potent
  refine ⟨fun id id' hid hid' => h.row id id' (hrow id hid) (hrow id' hid'), fun r hr => ?_,
    fun r id session hr hid => ?_, fun r hr id hid => ?_, fun hpass => ?_,
    fun r q hr hq => h.single r q (hpotent r hr) (hpotent q hq), hpassed ▸ h.once⟩
  · rcases hrequests r with hsame | hinert
    · obtain ⟨hnorow, hnopass, hothers⟩ := h.pending r (hsame ▸ hr)
      refine ⟨fun id hid => hnorow id (hrow id hid), fun hpass => hnopass (hmem.mp hpass), ?_⟩
      intro q hq
      rcases hrequests q with hsame | hinert
      · exact hsame ▸ hothers q hq
      · exact hinert
    · exact absurd hr hinert.pending
  · rcases hrequests r with hsame | hinert
    · exact h.took r id session (hsame ▸ hr) (hrow id hid)
    · exact absurd hr (hinert.took session)
  · rcases hrequests r with hsame | hinert
    · exact h.stored r (hsame ▸ hr) id (hrow id hid)
    · exact absurd hr hinert.stored
  · obtain ⟨hnorow, hnone⟩ := h.passed (hmem.mp hpass)
    exact ⟨fun id hid => hnorow id (hrow id hid), fun r hr => hnone r (hpotent r hr)⟩

/-- The state has just been drawn: only its login has it. -/
theorem ticket_drawn {r : ℕ} (hrow : ∀ id, ¬ RowHas t id csrf) (hpassed : csrf ∉ t.passed)
    (hothers : ∀ q, q ≠ r → Inert csrf (t.requests q))
    (hflow : (∀ session, ¬ Took csrf (t.requests r) session) ∧ ¬ Stored csrf (t.requests r)) :
    Ticket t csrf := by
  have hnotook : ∀ q session, ¬ Took csrf (t.requests q) session := by
    intro q session
    by_cases hq : q = r
    · exact hq ▸ hflow.1 session
    · exact (hothers q hq).took session
  have hnostored : ∀ q, ¬ Stored csrf (t.requests q) := by
    intro q
    by_cases hq : q = r
    · exact hq ▸ hflow.2
    · exact (hothers q hq).stored
  refine ⟨fun id _ hid => absurd hid (hrow id), fun q hq => ⟨hrow, hpassed, fun p hp => ?_⟩,
    fun q _ session hq => absurd hq (hnotook q session), fun q hq => absurd hq (hnostored q),
    fun hpass => absurd hpass hpassed, fun q _ hq => ?_, ?_⟩
  · have hqr : q = r := by
      by_contra hne
      exact (hothers q hne).pending hq
    exact hothers p (hqr ▸ hp)
  · rcases hq.cases with ⟨session, htook⟩ | hstored
    · exact absurd htook (hnotook q session)
    · exact absurd hstored (hnostored q)
  · rw [List.count_eq_zero_of_not_mem hpassed]
    exact Nat.zero_le 1

/-- The state is in one row, and nobody has taken it. -/
theorem ticket_filed (hrow : ∀ id id', RowHas t id csrf → RowHas t id' csrf → id = id')
    (hinert : ∀ r, Inert csrf (t.requests r)) (hpassed : csrf ∉ t.passed) : Ticket t csrf where
  row := hrow
  pending r hr := absurd hr (hinert r).pending
  took r _ session hr := absurd hr ((hinert r).took session)
  stored r hr := absurd hr (hinert r).stored
  passed hpass := absurd hpass hpassed
  single r _ hr := absurd hr (hinert r).not_potent
  once := by
    rw [List.count_eq_zero_of_not_mem hpassed]
    exact Nat.zero_le 1

/-- What one request at most had, one at most has, where the others had it not if the one that
moves on has. -/
theorem unique_request {P : Request → Prop} {r : ℕ} {new : Request}
    (hrequests : t.requests = Function.update s.requests r new)
    (hunique : ∀ p q, P (s.requests p) → P (s.requests q) → p = q)
    (hnew : P new → ∀ q, q ≠ r → ¬ P (s.requests q)) (p q : ℕ) (hp : P (t.requests p))
    (hq : P (t.requests q)) : p = q := by
  rw [hrequests] at hp hq
  by_cases hpr : p = r
  · by_cases hqr : q = r
    · rw [hpr, hqr]
    · rw [hpr, Function.update_self] at hp
      rw [Function.update_of_ne hqr] at hq
      exact absurd hq (hnew hp q hqr)
  · rw [Function.update_of_ne hpr] at hp
    by_cases hqr : q = r
    · rw [hqr, Function.update_self] at hq
      exact absurd hp (hnew hq p hpr)
    · rw [Function.update_of_ne hqr] at hq
      exact hunique p q hp hq

/-- A callback takes the state from its row. Nobody who would pass with it may have it too. -/
theorem ticket_took {r : ℕ} {query : CallbackQuery} {flow : Flow} {session : Session}
    {id : SessionId} (h : Ticket s csrf) (hrows : t.rows = s.rows) (hpassed : t.passed = s.passed)
    (hrequests : t.requests = Function.update s.requests r (.taken query flow session))
    (hid : RowHas s id csrf) (hsession : session.sessionId = some id)
    (halone : passesStateCheck query flow = true → ∀ q query' flow' session',
      s.requests q = .taken query' flow' session' → passesStateCheck query' flow' = true →
        flow'.expectedState ≠ some csrf) : Ticket t csrf := by
  have hrow : ∀ id', RowHas t id' csrf → RowHas s id' csrf := rowHas_of_rows hrows
  -- the row is there, so nobody has saved without the state yet
  have hunstored : ∀ q, ¬ Stored csrf (t.requests q) := by
    apply each_request (P := fun _ request => ¬ Stored csrf request) hrequests
    · rintro ⟨_, _, _, heq, -⟩
      cases heq
    · exact fun q _ hq => h.stored q hq id hid
  have hunsaved : ∀ q, ¬ Pending csrf (t.requests q) := by
    apply each_request (P := fun _ request => ¬ Pending csrf request) hrequests
    · rintro ⟨_, hsave, -⟩
      cases hsave
    · exact fun q _ hq => (h.pending q hq).1 id hid
  have htook : ∀ q i session', Took csrf (t.requests q) session' → RowHas t i csrf →
      session'.sessionId = some i := by
    apply each_request (P := fun _ request => ∀ i session', Took csrf request session' →
      RowHas t i csrf → session'.sessionId = some i) hrequests
    · rintro i session' ⟨_, _, heq, -⟩ hi
      cases heq
      rw [hsession, h.row i id (hrow i hi) hid]
    · exact fun q _ i session' hq hi => h.took q i session' hq (hrow i hi)
  have hunique : Potent csrf (.taken query flow session) → ∀ q, q ≠ r →
      ¬ Potent csrf (s.requests q) := by
    rintro ⟨_, _, _, heq, -, hpasses⟩ q hqr hq
    have hpasses : passesStateCheck query flow = true := by
      rcases heq with heq | heq <;> cases heq
      exact hpasses
    obtain ⟨query', flow', session', heq', hstate', hpasses'⟩ := hq
    rcases heq' with heq' | heq'
    · exact halone hpasses q query' flow' session' heq' hpasses' hstate'
    · exact h.stored q ⟨query', flow', session', heq', hstate'⟩ id hid
  exact ⟨fun i i' hi hi' => h.row i i' (hrow i hi) (hrow i' hi'),
    fun q hq => absurd hq (hunsaved q), htook, fun q hq => absurd hq (hunstored q),
    fun hpass => absurd hid ((h.passed (hpassed ▸ hpass)).1 id),
    unique_request hrequests h.single hunique, hpassed ▸ h.once⟩

/-- A callback that has taken the state saves its record without it: the state is in no row now. -/
theorem ticket_stored {r : ℕ} {query : CallbackQuery} {flow : Flow} {session session' : Session}
    (h : Ticket s csrf) (hpassed : t.passed = s.passed)
    (hr : s.requests r = .taken query flow session) (hstate : flow.expectedState = some csrf)
    (hrequests : t.requests = Function.update s.requests r (.saved query flow session'))
    (hrow : ∀ id, ¬ RowHas t id csrf) : Ticket t csrf := by
  have hpotent : ∀ q, Potent csrf (t.requests q) → Potent csrf (s.requests q) := by
    apply each_request (P := fun q request => Potent csrf request → Potent csrf (s.requests q))
      hrequests
    · rintro ⟨query', flow', session'', heq, hstate', hpasses⟩
      rcases heq with heq | heq <;> cases heq
      exact ⟨query, flow, session, .inl hr, hstate', hpasses⟩
    · exact fun q _ hq => hq
  -- a login that still has the state to save would be the only one that has it
  have hunsaved : ∀ q, ¬ Pending csrf (t.requests q) := by
    apply each_request (P := fun _ request => ¬ Pending csrf request) hrequests
    · rintro ⟨_, hsave, -⟩
      cases hsave
    · intro q hqr hq
      exact ((h.pending q hq).2.2 r (Ne.symm hqr)).took session ⟨query, flow, hr, hstate⟩
  refine ⟨fun id _ hid => absurd hid (hrow id), fun q hq => absurd hq (hunsaved q),
    fun q id _ _ hid => absurd hid (hrow id), fun _ _ => hrow, fun hpass => ⟨hrow, fun q hq => ?_⟩,
    fun p q hp hq => h.single p q (hpotent p hp) (hpotent q hq), hpassed ▸ h.once⟩
  exact (h.passed (hpassed ▸ hpass)).2 q (hpotent q hq)

/-- A callback passes the check with the state, which is nowhere then. -/
theorem ticket_passed {r : ℕ} {query : CallbackQuery} {flow : Flow} {session : Session}
    {new : Request} (h : Ticket s csrf) (hr : s.requests r = .saved query flow session)
    (hstate : flow.expectedState = some csrf) (hpasses : passesStateCheck query flow = true)
    (hrows : t.rows = s.rows) (hpassed : t.passed = csrf :: s.passed)
    (hrequests : t.requests = Function.update s.requests r new) (hnew : Inert csrf new) :
    Ticket t csrf := by
  have hstored : Stored csrf (s.requests r) := ⟨query, flow, session, hr, hstate⟩
  have hpotent : Potent csrf (s.requests r) := ⟨query, flow, session, .inr hr, hstate, hpasses⟩
  have hfirst : csrf ∉ s.passed := fun hpass => (h.passed hpass).2 r hpotent
  have hrow : ∀ id, ¬ RowHas t id csrf := fun id hid =>
    h.stored r hstored id (rowHas_of_rows hrows id hid)
  have hnone : ∀ q, ¬ Potent csrf (t.requests q) := by
    apply each_request (P := fun _ request => ¬ Potent csrf request) hrequests hnew.not_potent
    exact fun q hqr hq => hqr (h.single q r hq hpotent)
  have hunsaved : ∀ q, ¬ Pending csrf (t.requests q) := by
    apply each_request (P := fun _ request => ¬ Pending csrf request) hrequests hnew.pending
    exact fun q hqr hq => ((h.pending q hq).2.2 r (Ne.symm hqr)).stored hstored
  refine ⟨fun id _ hid => absurd hid (hrow id), fun q hq => absurd hq (hunsaved q),
    fun q id _ _ hid => absurd hid (hrow id), fun _ _ => hrow, fun _ => ⟨hrow, hnone⟩,
    fun p _ hp => absurd hp (hnone p), ?_⟩
  rw [hpassed, List.count_cons_self, List.count_eq_zero_of_not_mem hfirst]

/-! The steps. -/

/-- A callback that has taken its flow does not put the state back. -/
theorem inert_of_bare {r status : ℕ} {session : Session} (h : Bare s r session) :
    Inert csrf (.answered status session) := by
  apply inert_of_session
  · intro session' hsave hstate
    cases session_of_toSave hsave
    exact absurd (h.state.symm.trans hstate) nofun
  · intro flow hflow
    cases hflow

/-- A step that changes one request, to one that has nothing to do with the state. -/
theorem Ticket.shrink_request {r : ℕ} {new : Request} (h : Ticket s csrf)
    (hrow : ∀ id, RowHas t id csrf → RowHas s id csrf)
    (hrequests : t.requests = Function.update s.requests r new) (hnew : Inert csrf new)
    (hpassed : t.passed.count csrf = s.passed.count csrf) : Ticket t csrf := by
  apply h.shrink hrow _ hpassed
  exact each_request (P := fun q request => request = s.requests q ∨ Inert csrf request) hrequests
    (.inr hnew) fun _ _ => .inl rfl

theorem Fair.flowOf {r : ℕ} {request : Request} {flow : Flow}
    (h : Fair provider config s r request) (hflow : request.flow? = some flow) :
    ∃ id, FlowOf s id flow := by
  cases request with
  | taken _ _ _ =>
    cases hflow
    exact ⟨_, h.2.1⟩
  | saved _ _ _ =>
    cases hflow
    exact ⟨_, h.2⟩
  | _ => cases hflow

/-- A state that no login has drawn is nowhere. -/
theorem nowhere (h : Honest provider config s) (hcsrf : csrf ∉ s.logins.map Login.csrf) :
    (∀ id, ¬ RowHas s id csrf) ∧ (∀ r, Inert csrf (s.requests r)) ∧ csrf ∉ s.passed := by
  have hno : ¬ ∃ l ∈ s.logins, l.csrf = csrf := by
    simpa only [List.mem_map] using hcsrf
  refine ⟨?_, fun r => ?_, fun hpass => hno (h.passed csrf hpass)⟩
  · rintro id ⟨row, hrow, hstate⟩
    obtain ⟨l, hl, -, heq, -⟩ := (h.rows id row hrow).flow csrf hstate
    exact hno ⟨l, hl, heq⟩
  · have hfair := h.requests r
    apply inert_of_session
    · intro session hsave hstate
      obtain ⟨l, hl, -, heq, -⟩ := (hfair.clean (session_of_toSave hsave)).flow csrf hstate
      exact hno ⟨l, hl, heq⟩
    · intro flow hflow hstate
      obtain ⟨_, hflowOf⟩ := hfair.flowOf hflow
      obtain ⟨l, hl, -, heq, -⟩ := hflowOf csrf hstate
      exact hno ⟨l, hl, heq⟩

/-- A row has the state from before, or from the session that is saved. -/
theorem rowHas_step (h : step provider config s a = some t) {id : SessionId}
    (hrow : RowHas t id csrf) : RowHas s id csrf ∨ ∃ session, saving s a = some session ∧
      session.data.get stateKey = some (.string csrf) := by
  obtain ⟨row, hrow, hstate⟩ := hrow
  rcases row_step h hrow with hold | ⟨r, session, record, hsaving, -, hrecord, hdata, -⟩
  · exact .inl ⟨row, hold, hstate⟩
  · refine .inr ⟨session, hsaving, ?_⟩
    rw [Session.data, hrecord]
    show record.data.get stateKey = _
    rwa [hdata]

/-- While a callback that is going to pass has taken its flow and not saved that, no other that is
going to pass with the same state loads the record. -/
def Alone (config : AuthConfig) (s : World) : Action → Prop
  | .load r now fresh _ => ∀ query session flow session',
    s.requests r = .arrived (.callback query) session →
    takeFlow (session.load s.rows now config.sessionTtl fresh) = .ok (flow, session') →
    passesStateCheck query flow = true →
    ∀ q query' flow' session'', s.requests q = .taken query' flow' session'' →
      passesStateCheck query' flow' = true → flow'.expectedState ≠ flow.expectedState
  | _ => True

/-- A login puts its own state into its session, in the place of any other. -/
theorem ticket_login {r : ℕ} {now : Time} {fresh : SessionId} {secrets : Secrets}
    {query : LoginQuery} {session : Session} (hhonest : Honest provider config s)
    (h : Ticket s csrf) (hcsrf : secrets.csrf ∉ s.logins.map Login.csrf)
    (hrows : t.rows = s.rows) (hpassed : t.passed = s.passed)
    (hrequests : t.requests = Function.update s.requests r (.answered 303
      (login (session.load s.rows now config.sessionTtl fresh) query secrets))) :
    Ticket t csrf := by
  have hrow : ∀ id, RowHas t id csrf → RowHas s id csrf := rowHas_of_rows hrows
  by_cases heq : csrf = secrets.csrf
  · obtain ⟨hnorow, hinert, hnopass⟩ := nowhere hhonest (heq ▸ hcsrf)
    have hself : (t.requests r).flow? = none := by
      rw [hrequests, Function.update_self]
      rfl
    apply ticket_drawn (r := r)
    · exact fun id hid => hnorow id (hrow id hid)
    · rwa [hpassed]
    · intro q hq
      rw [hrequests, Function.update_of_ne hq]
      exact hinert q
    · constructor
      · rintro session' ⟨query', flow, htaken, -⟩
        rw [htaken] at hself
        cases hself
      · rintro ⟨query', flow, session', hsaved, -⟩
        rw [hsaved] at hself
        cases hself
  · apply h.shrink_request hrow hrequests _ (by rw [hpassed])
    apply inert_of_session
    · intro session' hsave hstate
      cases session_of_toSave hsave
      obtain ⟨hlogin, -⟩ := login_data
        (isSome_load session s.rows now config.sessionTtl fresh) query secrets
      rw [hlogin] at hstate
      cases hstate
      exact heq rfl
    · intro flow hflow
      cases hflow

/-- A callback takes the state out of its record, which a row still has. -/
theorem ticket_take {r : ℕ} {now : Time} {fresh : SessionId} {secrets : Secrets}
    {query : CallbackQuery} {flow : Flow} {session session' : Session} (h : Ticket s csrf)
    (halone : Alone config s (.load r now fresh secrets))
    (hr : s.requests r = .arrived (.callback query) session)
    (htake : takeFlow (session.load s.rows now config.sessionTtl fresh) = .ok (flow, session'))
    (hrows : t.rows = s.rows) (hpassed : t.passed = s.passed)
    (hrequests : t.requests = Function.update s.requests r (.taken query flow session')) :
    Ticket t csrf := by
  by_cases hstate : flow.expectedState = some csrf
  · obtain ⟨hread, -, -, hsession⟩ := takeFlow_eq_ok htake
    rw [hstate] at hread
    have hget := read_eq_some hread
    rcases load_data session s.rows now config.sessionTtl fresh with
      ⟨id, row, -, hrow, hid, -, hdata⟩ | hempty
    · have hsame : session'.sessionId = some id := by
        simp only [hsession, Session.remove_sessionId, hid]
      apply ticket_took h hrows hpassed hrequests ⟨row, hrow, hdata ▸ hget⟩ hsame
      intro hpasses q query' flow' session'' hq hpasses' hstate'
      exact halone query session flow session' hr htake hpasses q query' flow' session'' hq hpasses'
        (hstate'.trans hstate.symm)
    · rw [hempty] at hget
      cases hget
  · apply h.shrink_request (rowHas_of_rows hrows) hrequests _ (by rw [hpassed])
    apply inert_of_session
    · intro _ hsave
      cases hsave
    · intro flow' hflow
      cases hflow
      exact hstate

/-- A callback saves its record, in which there is no state. -/
theorem ticket_save {r : ℕ} {now : Time} {draws : List SessionId} {query : CallbackQuery}
    {flow : Flow} {session : Session} {saved : SessionTable × Session} (hids : Ids s)
    (hhonest : Honest provider config s) (h : Ticket s csrf)
    (hstep : step provider config s (.save r now draws) = some t)
    (hr : s.requests r = .taken query flow session)
    (hsave : session.save s.rows now config.sessionTtl draws = some saved)
    (hrows : t.rows = saved.1) (hpassed : t.passed = s.passed)
    (hrequests : t.requests = Function.update s.requests r (.saved query flow saved.2)) :
    Ticket t csrf := by
  have hfair := hhonest.requests r
  rw [hr] at hfair
  have hrow : ∀ id, RowHas t id csrf → RowHas s id csrf := by
    intro id hid
    rcases rowHas_step hstep hid with hold | ⟨session', hsaving, hget⟩
    · exact hold
    · simp only [saving, hr, Option.some.injEq] at hsaving
      rw [← hsaving, hfair.1.state] at hget
      cases hget
  by_cases hstate : flow.expectedState = some csrf
  · apply ticket_stored h hpassed hr hstate hrequests
    intro id hid
    -- the row that has the state is the one that is written
    have hsession := h.took r id session ⟨query, flow, hr, hstate⟩ (hrow id hid)
    obtain ⟨record, id', hrecord, hown, hwrite, -⟩ := session.save_cases hsave
    have hrecorded : record.id = id := by
      apply hids.owned r id record.id
      · rw [hr]
        exact hsession
      · rw [hr]
        exact congrArg (Option.map Record.id) hrecord
    have hid' : id' = id := by
      rcases hown with hown | ⟨hnone, -⟩
      · exact hown.trans hrecorded
      · rw [hnone] at hsession
        cases hsession
    obtain ⟨row, hwritten, hget⟩ := hid
    rw [hrows, hwrite, hid', Store.save, SessionTable.save, Function.update_self] at hwritten
    cases hwritten
    have hnone := hfair.1.state
    rw [Session.data, hrecord] at hnone
    cases hnone.symm.trans hget
  · apply h.shrink_request hrow hrequests _ (by rw [hpassed])
    apply inert_of_session
    · intro _ hsave
      cases hsave
    · intro flow' hflow
      cases hflow
      exact hstate

/-- A callback checks what it has taken. -/
theorem ticket_check {r : ℕ} {query : CallbackQuery} {flow : Flow} {session : Session}
    {request : Request} (hhonest : Honest provider config s) (h : Ticket s csrf)
    (hr : s.requests r = .saved query flow session)
    (hrequest : (∃ checked, check query flow = .ok checked ∧ request = .checked checked session) ∨
      ∃ problem, check query flow = .error problem ∧ request = .answered problem.status session)
    (hrows : t.rows = s.rows)
    (hpassed : t.passed = if passesStateCheck query flow then
      flow.expectedState.toList ++ s.passed else s.passed)
    (hrequests : t.requests = Function.update s.requests r request) : Ticket t csrf := by
  have hfair := hhonest.requests r
  rw [hr] at hfair
  have hinert : Inert csrf request := by
    rcases hrequest with ⟨checked, -, rfl⟩ | ⟨problem, -, rfl⟩
    · exact inert_of_quiet rfl rfl
    · exact inert_of_bare hfair.1
  by_cases hpasses : passesStateCheck query flow = true
  · rw [if_pos hpasses] at hpassed
    by_cases hstate : flow.expectedState = some csrf
    · rw [hstate] at hpassed
      exact ticket_passed h hr hstate hpasses hrows hpassed hrequests hinert
    · apply h.shrink_request (rowHas_of_rows hrows) hrequests hinert
      rw [hpassed, List.count_append, List.count_eq_zero_of_not_mem, Nat.zero_add]
      exact fun hmem => hstate (Option.mem_toList.mp hmem)
  · rw [if_neg hpasses] at hpassed
    exact h.shrink_request (rowHas_of_rows hrows) hrequests hinert (by rw [hpassed])

/-- The session of a login is saved, and its state is in one row. -/
theorem ticket_handOut {r : ℕ} {now : Time} {draws : List SessionId} {session : Session}
    {saved : SessionTable × Session} (h : Ticket s csrf)
    (hstep : step provider config s (.finish r now draws) = some t)
    (hr : (s.requests r).toSave = some session)
    (hsave : session.save s.rows now config.sessionTtl draws = some saved)
    (hrows : t.rows = saved.1) (hpassed : t.passed = s.passed)
    (hrequests : t.requests = Function.update s.requests r .idle) : Ticket t csrf := by
  by_cases hstate : session.data.get stateKey = some (.string csrf)
  · obtain ⟨hnorow, hnopass, hothers⟩ := h.pending r ⟨session, hr, hstate⟩
    obtain ⟨record, id, -, -, hwrite, -⟩ := session.save_cases hsave
    have hwritten : ∀ id', RowHas t id' csrf → id' = id := by
      rintro id' ⟨row, hrow, hget⟩
      by_contra hne
      rw [hrows, hwrite, Store.save, SessionTable.save, Function.update_of_ne hne] at hrow
      exact hnorow id' ⟨row, hrow, hget⟩
    apply ticket_filed
    · intro i i' hi hi'
      rw [hwritten i hi, hwritten i' hi']
    · exact each_request (P := fun _ => Inert csrf) hrequests (inert_of_quiet rfl rfl) hothers
    · rwa [hpassed]
  · apply h.shrink_request _ hrequests (inert_of_quiet rfl rfl) (by rw [hpassed])
    intro id hid
    rcases rowHas_step hstep hid with hold | ⟨session', hsaving, hget⟩
    · exact hold
    · cases hr.symm.trans hsaving
      exact absurd hget hstate

theorem ticket_step (hids : Ids s) (hfiled : Filed s) (hhonest : Honest provider config s)
    (h : Ticket s csrf) (halone : Alone config s a)
    (hstep : step provider config s a = some t) : Ticket t csrf := by
  have hrow : saving s a = none → ∀ id, RowHas t id csrf → RowHas s id csrf := by
    intro hnone id hid
    rcases rowHas_step hstep hid with hold | ⟨session, hsaving, -⟩
    · exact hold
    · cases hnone.symm.trans hsaving
  cases takes_step hstep with
  | loggingIn hfresh hr hcsrf => exact ticket_login hhonest h hcsrf rfl rfl rfl
  | took hfresh hr htake => exact ticket_take h halone hr htake rfl rfl rfl
  | saved hdraws hr hsave => exact ticket_save hids hhonest h hstep hr hsave rfl rfl rfl
  | checked hr hrequest => exact ticket_check hhonest h hr hrequest rfl rfl rfl
  | handedOut hdraws hr hsave => exact ticket_handOut h hstep hr hsave rfl rfl rfl
  | unread hfresh hr =>
    apply h.shrink_request (hrow rfl) rfl _ rfl
    apply inert_of_quiet _ rfl
    rw [toSave, if_neg]
    simp [Session.isSaved]
  | @signedIn r now checked session request hr hrequest =>
    apply h.shrink_request (hrow rfl) rfl _ rfl
    have hfair := hhonest.requests r
    rw [hr] at hfair
    rcases hrequest with ⟨user, -, rfl⟩ | ⟨problem, rfl⟩
    · exact inert_of_quiet rfl rfl
    · exact inert_of_bare hfair.1
  | @cycled r fresh user checked session hfresh hr =>
    apply h.shrink_request (hrow rfl) rfl _ rfl
    have hfair := (honest_step hfiled hhonest hstep).requests r
    rw [show (World.setRequest _ r _).requests r = _ from Function.update_self ..] at hfair
    apply inert_of_session
    · intro session' hsave hstate
      cases session_of_toSave hsave
      cases hfair.2.symm.trans hstate
    · intro flow hflow
      cases hflow
  | unsaved hr => exact h.shrink_request (hrow hr) rfl (inert_of_quiet rfl rfl) rfl
  | loggedOut hr =>
    apply h.shrink_request (hrow _) rfl (inert_of_quiet rfl rfl) rfl
    rw [saving, hr]
    rfl
  | arrived | flushed | aborted =>
    exact h.shrink_request (hrow rfl) rfl (inert_of_quiet rfl rfl) rfl
  | revoked | expired => exact h.shrink (hrow rfl) (fun _ => .inl rfl) rfl

/-! The runs. -/

/-- The session of a request that has loaded its record and signs nobody in. -/
def Request.unsigned? : Request → Option Session
  | taken _ _ session | saved _ _ session | checked _ session | granted _ _ session
  | answered _ session => some session
  | _ => none

/-- A state is the state of one login, and one callback passes the check with it. Each session is
granted to one user at most, with the state, nonce and verifier of a login that were in the session
the callback had loaded, and a token that was verified with them and names whom the policy permits;
it is stored with that user or with none. Any other request leaves the user of its session as it has
loaded it. -/
structure Sound (provider : Provider) (config : AuthConfig) (s : World) : Prop where
  logins : (s.logins.map Login.csrf).Nodup
  once : ∀ l ∈ s.logins, s.passed.count l.csrf ≤ 1
  granted : (s.grants.map Grant.session).Nodup
  grants : ∀ g ∈ s.grants, OfLogin s g.origin g.checked ∧ Verified provider config g.checked g.user
  users : ∀ id row uuid, s.rows id = some row → row.data.user = some uuid →
    ∃ g ∈ s.grants, g.session = id ∧ g.user.uuid = uuid
  others : ∀ r session, (s.requests r).unsigned? = some session → session.data.user = s.found r

theorem Fair.unsigned {r : ℕ} {request : Request} {session : Session}
    (h : Fair provider config s r request) (hsession : request.unsigned? = some session) :
    session.data.user = s.found r := by
  cases request with
  | taken _ _ _ | saved _ _ _ | checked _ _ | granted _ _ _ =>
    cases hsession
    exact h.1.user
  | answered _ _ =>
    cases hsession
    exact h.2
  | _ => cases hsession

theorem logins_step (h : (s.logins.map Login.csrf).Nodup)
    (hstep : step provider config s a = some t) : (t.logins.map Login.csrf).Nodup := by
  cases takes_step hstep with
  | loggingIn hfresh hr hcsrf => exact List.nodup_cons.mpr ⟨hcsrf, h⟩
  | _ => exact h

/-- Each session is granted under an id of its own. -/
def Granted (s : World) : Prop :=
  (s.grants.map Grant.session).Nodup ∧ ∀ g ∈ s.grants, g.session ∈ s.drawn

private theorem granted_step (h : Granted s) (hstep : step provider config s a = some t) :
    Granted t := by
  have hdrawn := drawn_step hstep
  have hold : ∀ g ∈ s.grants, g.session ∈ t.drawn := fun g hg => hdrawn _ (h.2 g hg)
  cases takes_step hstep with
  | @cycled r fresh user checked session hfresh hr =>
    refine ⟨List.nodup_cons.mpr ⟨fun hmem => ?_, h.1⟩, fun g hg => ?_⟩
    · obtain ⟨g, hg, hsame⟩ := List.mem_map.mp hmem
      have hsame : g.session = fresh := hsame
      exact hfresh (hsame ▸ h.2 g hg)
    · rcases List.mem_cons.mp hg with rfl | hg
      · exact List.mem_cons_self
      · exact hold g hg
  | _ => exact ⟨h.1, hold⟩

/-- In a run in which no two callbacks that are going to pass hold the same flow unsaved, a flow is
used once, and nobody is signed in but by it. -/
theorem sound_of_alone {actions : List Action}
    (h : Each (step provider config) (Alone config) World.init actions) :
    Always (step provider config) (Sound provider config) World.init actions := by
  have hrun : Always (step provider config) (fun s => (s.logins.map Login.csrf).Nodup ∧ Granted s ∧
      Ids s ∧ Filed s ∧ Honest provider config s ∧ ∀ csrf, Ticket s csrf) World.init actions := by
    apply Always.of_each _ _ h
    · rintro s a t ⟨hlogins, hgranted, hids, hfiled, hhonest, htickets⟩ halone hstep
      exact ⟨logins_step hlogins hstep, granted_step hgranted hstep, ids_step hids hstep,
        filed_step hids hfiled hstep, honest_step hfiled hhonest hstep,
        fun csrf => ticket_step hids hfiled hhonest (htickets csrf) halone hstep⟩
    · refine ⟨List.nodup_nil, ⟨List.nodup_nil, fun g hg => by cases hg⟩, ids_init, filed_init,
        honest_init, fun csrf => ?_⟩
      apply ticket_filed
      · rintro id id' ⟨row, hrow, -⟩
        cases hrow
      · exact fun r => inert_of_quiet rfl rfl
      · exact List.not_mem_nil
  apply hrun.imp
  rintro s ⟨hlogins, hgranted, -, -, hhonest, htickets⟩
  refine ⟨hlogins, fun l _ => (htickets l.csrf).once, hgranted.1, hhonest.grants, ?_, ?_⟩
  · intro id row uuid hrow huser
    obtain ⟨g, hg, hid, hsame⟩ := (hhonest.rows id row hrow).user uuid huser
    exact ⟨g, hg, Option.some.inj hid, hsame⟩
  · intro r session hsession
    exact (hhonest.requests r).unsigned hsession

/-- A callback other than this one does not load its record. -/
def OneCallback (r : ℕ) (s : World) : Action → Prop
  | .load q _ _ _ => q ≠ r → ∀ query session, s.requests q ≠ .arrived (.callback query) session
  | _ => True

/-- With one callback there is nothing to share a flow with. -/
theorem alone_of_one {actions : List Action} (r : ℕ)
    (h : Each (step provider config) (OneCallback r) World.init actions) :
    Each (step provider config) (Alone config) World.init actions := by
  have hrun : Always (step provider config) (fun s => ∀ q, q ≠ r → (s.requests q).flow? = none)
      World.init actions := by
    apply Always.of_each _ _ h
    · intro s a t hflows hone hstep q hq
      have hother : ∀ {p : ℕ} {new : Request}, t.requests = Function.update s.requests p new →
          (p ≠ r → new.flow? = none) → (t.requests q).flow? = none := fun hrequests hnew =>
        each_request (P := fun q request => q ≠ r → request.flow? = none) hrequests hnew
          (fun q _ => hflows q) q hq
      cases takes_step hstep with
      | took hfresh hr htake => exact hother rfl fun hp => absurd hr (hone hp _ _)
      | @saved p now draws query flow session saved hdraws hr hsave =>
        apply hother rfl
        intro hp
        have hnone := hflows p hp
        rw [hr] at hnone
        cases hnone
      | checked hr hrequest =>
        rcases hrequest with ⟨checked, -, rfl⟩ | ⟨problem, -, rfl⟩ <;> exact hother rfl fun _ => rfl
      | signedIn hr hrequest =>
        rcases hrequest with ⟨user, -, rfl⟩ | ⟨problem, rfl⟩ <;> exact hother rfl fun _ => rfl
      | revoked | expired => exact hflows q hq
      | _ => exact hother rfl fun _ => rfl
    · exact fun q _ => rfl
  apply Each.of_always _ hrun h
  intro s a t hflows hone hstep
  cases a with
  | load p now fresh secrets =>
    intro query session flow session' hr htake hpasses q query' flow' session'' hq
    have hqr : q = r := by
      by_contra hne
      have hnone := hflows q hne
      rw [hq] at hnone
      cases hnone
    have hpr : p = r := by
      by_contra hne
      exact hone hne query session hr
    rw [hqr, ← hpr, hr] at hq
    cases hq
  | _ => trivial

/-- A test for runs with one callback. -/
def oneCallback (r : ℕ) (s : World) : Action → Bool
  | .load q _ _ _ => q == r || match s.requests q with
    | .arrived (.callback _) _ => false
    | _ => true
  | _ => true

private theorem oneCallback_of_test (r : ℕ) (s : World) (a : Action)
    (h : oneCallback r s a = true) :
    OneCallback r s a := by
  cases a with
  | load q now fresh secrets =>
    intro hq query session hr
    simp only [oneCallback, hr, Bool.or_false, beq_iff_eq] at h
    exact hq h
  | _ => trivial

/-- The session that had the login's state is the one that the grant comes from. -/
theorem signInRun_sound :
    ((exec (step exampleProvider exampleConfig) World.init signInRun).any fun s =>
        s.grants.map (fun g => (g.session, g.user, g.origin)) = [(⟨3⟩, ⟨7⟩, some ⟨1⟩)] &&
          (s.rows ⟨3⟩).any fun row => row.data.user = some 7) = true ∧
      Always (step exampleProvider exampleConfig) (Sound exampleProvider exampleConfig) World.init
        signInRun :=
  ⟨by decide,
    sound_of_alone (alone_of_one 1 (Each.of_check (oneCallback_of_test 1) (by decide)))⟩

/-- A callback saves its record when it comes to it. -/
theorem saves_taken (provider : Provider) (config : AuthConfig) {r : ℕ} {query : CallbackQuery}
    {flow : Flow} {session : Session} (hr : s.requests r = .taken query flow session)
    (hheld : Held flow session) (hflow : flow.expectedState.isSome = true) :
    ∃ t session', step provider config s (.save r 0 []) = some t ∧ t.passed = s.passed ∧
      t.requests = Function.update s.requests r (.saved query flow session') := by
  obtain ⟨hid, hrecord⟩ := hheld hflow
  obtain ⟨id, hid⟩ := Option.isSome_iff_exists.mp hid
  obtain ⟨record, hrecord⟩ := Option.isSome_iff_exists.mp hrecord
  simp only [step, hr, Session.save, hrecord, hid, List.not_mem_nil, false_and, exists_false,
    if_false, Option.bind_some, Option.map_some]
  exact ⟨_, _, rfl, rfl, rfl⟩

/-- A callback that is going to pass passes when it comes to it. -/
theorem passes_saved (provider : Provider) (config : AuthConfig) {r : ℕ} {query : CallbackQuery}
    {flow : Flow} {session : Session} (hr : s.requests r = .saved query flow session)
    (hpasses : passesStateCheck query flow = true) (hstate : flow.expectedState = some csrf) :
    ∃ t new, step provider config s (.check r) = some t ∧ t.passed = csrf :: s.passed ∧
      t.requests = Function.update s.requests r new := by
  simp only [step, hr, hpasses, if_true, hstate]
  cases check query flow with
  | ok checked => exact ⟨_, _, rfl, rfl, rfl⟩
  | error problem => exact ⟨_, _, rfl, rfl, rfl⟩

/-- Two callbacks that are going to pass with one state, and both have it, can both pass. -/
theorem passes_twice {r q : ℕ} {query query' : CallbackQuery} {flow flow' : Flow}
    {session session' : Session} (h : Honest provider config s) (hne : q ≠ r)
    (hr : s.requests r = .taken query flow session)
    (hq : s.requests q = .taken query' flow' session')
    (hpasses : passesStateCheck query flow = true)
    (hpasses' : passesStateCheck query' flow' = true)
    (hsame : flow'.expectedState = flow.expectedState) :
    ∃ t csrf, exec (step provider config) s
      [.save r 0 [], .save q 0 [], .check r, .check q] = some t ∧ 2 ≤ t.passed.count csrf := by
  have hfair := h.requests r
  have hfair' := h.requests q
  rw [hr] at hfair
  rw [hq] at hfair'
  obtain ⟨-, csrf, _, _, hflow, -⟩ := passesStateCheck_iff.mp hpasses
  have hstate : flow.expectedState = some csrf := by rw [hflow]
  have hstate' := hsame.trans hstate
  obtain ⟨s₁, session₁, hstep₁, hpassed₁, hrequests₁⟩ :=
    saves_taken provider config hr hfair.2.2 (by rw [hstate]; rfl)
  have hq₁ : s₁.requests q = .taken query' flow' session' := by
    rw [hrequests₁, Function.update_of_ne hne, hq]
  obtain ⟨s₂, session₂, hstep₂, hpassed₂, hrequests₂⟩ :=
    saves_taken provider config hq₁ hfair'.2.2 (by rw [hstate']; rfl)
  have hr₂ : s₂.requests r = .saved query flow session₁ := by
    rw [hrequests₂, Function.update_of_ne hne.symm, hrequests₁, Function.update_self]
  obtain ⟨s₃, new, hstep₃, hpassed₃, hrequests₃⟩ :=
    passes_saved provider config hr₂ hpasses hstate
  have hq₃ : s₃.requests q = .saved query' flow' session₂ := by
    rw [hrequests₃, Function.update_of_ne hne, hrequests₂, Function.update_self]
  obtain ⟨s₄, new', hstep₄, hpassed₄, -⟩ :=
    passes_saved provider config hq₃ hpasses' hstate'
  refine ⟨s₄, csrf, ?_, ?_⟩
  · simp only [exec_cons, exec_nil, hstep₁, hstep₂, hstep₃, hstep₄, Option.bind_some]
  · rw [hpassed₄, hpassed₃, List.count_cons_self, List.count_cons_self]
    omega

/-- Where a callback loads a flow that another holds unsaved, the run can go on so that both
pass. -/
theorem passes_twice_of_not_alone (hfiled : Filed s) (h : Honest provider config s)
    (hstep : step provider config s a = some t) (hshared : ¬ Alone config s a) :
    ∃ actions u csrf, exec (step provider config) t actions = some u ∧
      2 ≤ u.passed.count csrf := by
  cases a with
  | load r now fresh secrets =>
    simp only [Alone, not_forall, not_not] at hshared
    obtain ⟨query, session, flow, session', hr, htake, hpasses, q, query', flow', session'', hq,
      hpasses', hsame⟩ := hshared
    have hne : q ≠ r := by
      rintro rfl
      rw [hr] at hq
      cases hq
    have hrequests : t.requests = Function.update s.requests r (.taken query flow session') := by
      simp only [step, hr, htake] at hstep
      split at hstep
      · cases hstep
      · cases hstep
        rfl
    obtain ⟨u, csrf, hexec, htwice⟩ := passes_twice (honest_step hfiled h hstep) hne
      (by rw [hrequests, Function.update_self])
      (by rw [hrequests, Function.update_of_ne hne, hq]) hpasses hpasses' hsame
    exact ⟨_, u, csrf, hexec, htwice⟩
  | _ => exact absurd trivial hshared

/-- The browser comes back twice. -/
def comesBack : CallbackQuery := ⟨some "code", some "state", none, none⟩

def replayedRun : List Action := [
  .arrive 0 (.login ⟨none⟩) none,
  .load 0 0 ⟨1⟩ ⟨"state", "nonce", "verifier"⟩,
  .finish 0 0 [],
  .arrive 1 (.callback comesBack) (some ⟨1⟩),
  .arrive 2 (.callback comesBack) (some ⟨1⟩),
  .load 1 0 ⟨2⟩ ⟨"", "", ""⟩,
  .load 2 0 ⟨3⟩ ⟨"", "", ""⟩,
  .save 1 0 [],
  .save 2 0 [],
  .check 1,
  .check 2]

/-- Both callbacks have loaded the record before either saves it, and both pass. -/
theorem replayedRun_passes_twice : ¬ ∀ (provider : Provider) (config : AuthConfig)
    (actions : List Action),
    Always (step provider config) (Sound provider config) World.init actions := by
  intro h
  obtain ⟨t, ht, htest⟩ := @exists_exec _ _ (step exampleProvider exampleConfig) World.init
    replayedRun (fun t => t.logins.any fun l => 1 < t.passed.count l.csrf) (by decide)
  obtain ⟨l, hl, htwice⟩ := List.any_eq_true.mp htest
  apply not_always_of_exec ht _ (h _ _ replayedRun)
  intro hsound
  have honce := hsound.once l hl
  have htwice := of_decide_eq_true htwice
  omega

end Auth
end Nyuka
