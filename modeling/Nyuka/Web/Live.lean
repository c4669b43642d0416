import Nyuka.Jobs.Reports
import Nyuka.Web.Progress

/-! A browser tab on the event stream. The server publishes to a channel that drops the oldest
events of a receiver that falls behind, the stream may break at any time, and nothing is replayed:
what the tab shows is what has reached it. -/
namespace Nyuka
namespace Web
open Engine Runs

variable {pool : ℕ}

/-- How many events a slow client may fall behind before it is dropped. -/
def eventCapacity : ℕ := 256

/-- The server with one tab. `channel` is what was sent since the tab's receiver has received, and
`wire` what the receiver has written to the stream and the tab has not read. -/
structure Live (pool : ℕ) where
  server : Observed pool
  subscribed : Bool
  channel : List JobEvent
  wire : List Message
  client : Client

def Live.init (repos : List SourceRepoId) : Live pool := ⟨.init repos, false, [], [], .empty⟩

inductive Move (pool : ℕ) where
  | observe (o : Observation pool)
  /-- A handler publishes an event of its own. -/
  | emit (w : Fin pool) (e : JobEvent)
  /-- The receiver writes what it gets from the channel to the stream. -/
  | recv
  /-- The tab reads a message from the stream. -/
  | deliver (now : ℤ)
  /-- The stream breaks; `kept` messages of it still reach the tab. -/
  | disconnect (kept : ℕ)
  | connect
  /-- The page is loaded anew. -/
  | reload

/-- The events a handler publishes while it works on a job. -/
def emits (job : Job) : JobEvent → Bool
  | .jobProgress id _ _ _ => id = job.id && job.kind = .downloadChapter
  | .chapterDownloaded _ _ => job.kind = .downloadChapter
  | .chapterNew _ _ => job.kind = .checkFollow || job.kind = .refreshMetadata
  | _ => false

/-- The states that were published between two states of the server. -/
def news (s t : Observed pool) : List JobEvent :=
  (t.reports.take (t.reports.length - s.reports.length)).map fun r => .jobState r.job r.state

namespace Live

def publish (s : Live pool) (events : List JobEvent) : Live pool :=
  if s.subscribed then { s with channel := s.channel ++ events } else s

/-- A process that ends takes the channel with it. -/
def begin (s : Live pool) : Observation pool → Live pool
  | .act .restart => { s with subscribed := false, channel := [] }
  | _ => s

/-- What the channel still holds for the receiver. -/
def queue (s : Live pool) : List JobEvent := s.channel.drop (s.channel.length - eventCapacity)

end Live

def step (s : Live pool) : Move pool → Option (Live pool)
  | .observe o => (observe s.server o).map fun server =>
      { (s.begin o).publish (news s.server server) with server }
  | .emit w e =>
    match s.server.world.workers w with
    | .handling job _ => if emits job e then some (s.publish [e]) else none
    | _ => none
  | .recv =>
    if eventCapacity < s.channel.length then
      let missed := s.channel.length - eventCapacity
      some { s with channel := s.queue, wire := s.wire ++ [.lagged missed] }
    else match s.channel with
      | [] => none
      | e :: rest => some { s with channel := rest, wire := s.wire ++ [.event e] }
  | .deliver now =>
    match s.wire with
    | [] => none
    | m :: rest => some { s with wire := rest, client := s.client.receive now m }
  | .disconnect kept =>
    some { s with subscribed := false, channel := [], wire := s.wire.take kept }
  | .connect =>
    -- the tab opens a stream when it has read the last one to its end
    if s.subscribed = false ∧ s.wire = [] then some { s with subscribed := true } else none
  | .reload => some { s with subscribed := false, channel := [], wire := [], client := .empty }

/-- The stored state of the job is running. -/
def Running (s : Observed pool) (job : JobId) : Prop :=
  ∃ r ∈ s.world.jobs.rows, r.id = job ∧ r.state = .running

/-- The tab is connected and has applied all that was sent to it. -/
def Settled (s : Live pool) : Prop := s.subscribed = true ∧ s.channel = [] ∧ s.wire = []

/-- The progress store holds entries only for running jobs. -/
def OnlyRunning (s : Live pool) : Prop :=
  ∀ job, (s.client.progress job).isSome = true → Running s.server job

/-- The move brings the tab up to date. -/
def Move.CatchesUp : Move pool → Prop
  | .recv | .deliver _ | .connect => True
  | _ => False

/-- However the tab is brought up to date, it then shows only running jobs. -/
def Truthful (s : Live pool) : Prop :=
  ∀ moves t, (∀ a ∈ moves, a.CatchesUp) → exec step s moves = some t → Settled t → OnlyRunning t

namespace Live

def arriving (s : Live pool) : List JobEvent := s.wire.filterMap Message.event?

/-- What the tab will apply if nothing more happens. -/
def upcoming (s : Live pool) : List JobEvent := s.arriving ++ s.queue

/-- Whether the job has an entry once these events are applied. -/
def shown (s : Live pool) (events : List JobEvent) (job : JobId) : Bool :=
  events.foldl (stands job) (s.client.progress job).isSome

/-- What a move sends to the tab's receiver. -/
def told (s : Live pool) : Move pool → List JobEvent
  | .observe o => if s.subscribed then (observe s.server o).elim [] (news s.server) else []
  | .emit _ e => if s.subscribed then [e] else []
  | _ => []

/-- How many events fall out of the channel with a move. -/
def overflow (s : Live pool) (a : Move pool) : ℕ :=
  s.queue.length + (s.told a).length - eventCapacity

/-- The events on their way to the tab that a move loses. -/
def lost (s : Live pool) : Move pool → List JobEvent
  | .observe (.act .restart) => s.queue
  | .disconnect kept => (s.wire.drop kept).filterMap Message.event? ++ s.queue
  | a => s.queue.take (s.overflow a)

/-- The events on their way to the tab that a move leaves there. -/
def kept (s : Live pool) : Move pool → List JobEvent
  | .observe (.act .restart) => s.arriving
  | .disconnect kept => (s.wire.take kept).filterMap Message.event?
  | a => s.arriving ++ s.queue.drop (s.overflow a)

end Live

/-- Progress is sent only for running jobs; a job whose entry is left ends only with an event that
says so; and no event that ended a job is lost while an entry of the job is left, unless the job
runs. -/
structure Kept (s : Live pool) (a : Move pool) : Prop where
  live : ∀ job, (∃ e ∈ s.told a, Tells job e) → Running s.server job
  ended : ∀ o server, a = .observe o → observe s.server o = some server → ∀ job,
    s.shown (s.kept a) job = true → Running s.server job → ¬ Running server job →
      ∃ e ∈ s.told a, Ends job e
  unlost : ∀ job, (∃ e ∈ s.lost a, Ends job e) → s.shown (s.kept a ++ s.told a) job = true →
    Running s.server job

/-- What the tab is going to show are running jobs. -/
def InSync (s : Live pool) : Prop := ∀ job, s.shown s.upcoming job = true → Running s.server job

variable {s t : Live pool} {a : Move pool}

/-! What a move does to the events on their way. -/

theorem queue_length_le (s : Live pool) : s.queue.length ≤ eventCapacity := by
  rw [Live.queue, List.length_drop]
  omega

theorem overflow_of_told_nil (h : s.told a = []) : s.overflow a = 0 := by
  have := queue_length_le s
  rw [Live.overflow, h, List.length_nil]
  omega

/-- The channel after some events more. -/
theorem queue_append {channel events : List JobEvent} (hfew : events.length ≤ eventCapacity) :
    (channel ++ events).drop ((channel ++ events).length - eventCapacity) =
      (channel.drop (channel.length - eventCapacity)).drop
        ((channel.drop (channel.length - eventCapacity)).length + events.length - eventCapacity) ++
        events := by
  have hsum : channel.length - eventCapacity + (channel.length - (channel.length - eventCapacity) +
      events.length - eventCapacity) = channel.length + events.length - eventCapacity := by
    omega
  rw [List.drop_drop, List.length_drop, hsum, List.length_append,
    List.drop_append_of_le_length (by omega)]

/-- An observation publishes one state at most, and no progress. -/
theorem news_cases {server server' : Observed pool} {o : Observation pool}
    (h : observe server o = some server') :
    news server server' = [] ∨ ∃ job state, news server server' = [.jobState job state] := by
  rcases observe_cases h with ⟨-, -, hreports⟩ | ⟨a, told, hadvance, -⟩
  · exact .inl (by simp [news, hreports])
  · have hreports := (advance_eq_some hadvance).2
    cases told with
    | none => exact .inl (by simp [news, hreports])
    | some r => exact .inr ⟨r.job, r.state, by simp [news, hreports]⟩

theorem told_of_observe {o : Observation pool} {server : Observed pool}
    (h : observe s.server o = some server) :
    s.told (.observe o) = if s.subscribed then news s.server server else [] := by
  simp [Live.told, h]

theorem told_cases (h : step s a = some t) : s.told a = [] ∨ ∃ e, s.told a = [e] := by
  cases a with
  | observe o =>
    obtain ⟨server, hserver, -⟩ := Option.map_eq_some_iff.mp h
    rw [told_of_observe hserver]
    rcases news_cases hserver with hnews | ⟨job, state, hnews⟩
    · exact .inl (by simp [hnews])
    · by_cases hsub : s.subscribed = true
      · exact .inr ⟨_, by rw [if_pos hsub, hnews]⟩
      · exact .inl (if_neg hsub)
  | emit w e =>
    by_cases hsub : s.subscribed = true
    · exact .inr ⟨e, if_pos hsub⟩
    · exact .inl (if_neg hsub)
  | _ => exact .inl rfl

/-- Only handlers tell progress. -/
theorem not_tells_of_observe {o : Observation pool} {server : Observed pool} {job : JobId}
    (h : observe s.server o = some server) : ∀ e ∈ s.told (.observe o), ¬ Tells job e := by
  intro e he htells
  rw [told_of_observe h] at he
  split at he
  · rcases news_cases h with hnews | ⟨id, state, hnews⟩
    · rw [hnews] at he
      cases he
    · rw [hnews, List.mem_singleton] at he
      subst he
      obtain ⟨done, total, bytes, heq⟩ := htells
      cases heq
  · cases he

theorem upcoming_publish {events : List JobEvent} (hfew : events.length ≤ eventCapacity)
    (hsub : s.subscribed = true) :
    (s.publish events).upcoming = s.arriving ++
      (s.queue.drop (s.queue.length + events.length - eventCapacity) ++ events) := by
  simp only [Live.upcoming, Live.publish, hsub, if_true, Live.queue, queue_append hfew]
  rfl

/-- A new process has told nothing. -/
@[simp] theorem told_restart (s : Live pool) : s.told (.observe (.act .restart)) = [] := by
  have hserver : observe s.server (.act .restart) =
      some { s.server with
        world := { s.server.world with workers := fun _ => .idle, requests := fun _ => .idle }
        window := .empty } := rfl
  rw [told_of_observe hserver]
  simp [news]

theorem drop_of_fits {channel : List JobEvent} (h : channel.length ≤ eventCapacity) :
    channel.drop (channel.length - eventCapacity) = channel := by
  rw [Nat.sub_eq_zero_of_le h, List.drop_zero]

/-- A move that neither sends nor loses nor reads anything. -/
theorem shown_silent (htold : s.told a = [])
    (hkept : s.kept a = s.arriving ++ s.queue.drop (s.overflow a)) (hclient : t.client = s.client)
    (hupcoming : t.upcoming = s.upcoming) (job : JobId) :
    t.shown t.upcoming job = s.shown (s.kept a ++ s.told a) job := by
  rw [htold, hkept, overflow_of_told_nil htold, hupcoming, Live.shown, hclient, List.drop_zero,
    List.append_nil]
  rfl

/-- A move that sends something. -/
theorem shown_sent {events : List JobEvent} (htold : s.told a = if s.subscribed then events else [])
    (hfew : events.length ≤ 1) (hkept : s.kept a = s.arriving ++ s.queue.drop (s.overflow a))
    (hclient : t.client = s.client) (hupcoming : t.upcoming = (s.publish events).upcoming)
    (job : JobId) : t.shown t.upcoming job = s.shown (s.kept a ++ s.told a) job := by
  by_cases hsub : s.subscribed = true
  · rw [if_pos hsub] at htold
    rw [hupcoming, upcoming_publish (le_trans hfew (by decide)) hsub, hkept, Live.overflow, htold,
      Live.shown, hclient, List.append_assoc]
    rfl
  · rw [if_neg hsub] at htold
    refine shown_silent htold hkept hclient ?_ job
    rw [hupcoming, Live.publish, if_neg hsub]

@[simp] theorem publish_client (s : Live pool) (events : List JobEvent) :
    (s.publish events).client = s.client := by
  unfold Live.publish
  split <;> rfl

/-- The tab applies the message that was the next one on its way. -/
theorem shown_deliver {m : Message} {rest : List Message} (hwire : s.wire = m :: rest) (now : ℤ)
    (job : JobId) :
    Live.shown { s with wire := rest, client := s.client.receive now m }
      (Live.upcoming { s with wire := rest, client := s.client.receive now m }) job =
      s.shown s.upcoming job := by
  have harriving : s.arriving = m.event?.toList ++ rest.filterMap Message.event? := by
    rw [Live.arriving, hwire, List.filterMap_cons]
    cases m.event? <;> rfl
  have hupcoming : s.upcoming =
      m.event?.toList ++ (rest.filterMap Message.event? ++ s.queue) := by
    rw [Live.upcoming, harriving, List.append_assoc]
  rw [Live.shown, Live.shown, hupcoming, List.foldl_append, receive_isSome]
  rfl

/-- A step of the server sends what it publishes; a new process begins without the channel. -/
theorem shown_observe {o : Observation pool} (h : step s (.observe o) = some t) (job : JobId) :
    t.shown t.upcoming job = s.shown (s.kept (.observe o) ++ s.told (.observe o)) job := by
  obtain ⟨server, hserver, rfl⟩ := Option.map_eq_some_iff.mp h
  by_cases hrestart : o = .act .restart
  · subst hrestart
    rw [told_restart, List.append_nil]
    simp [Live.shown, Live.upcoming, Live.kept, Live.begin, Live.publish, Live.arriving,
      Live.queue]
  · have hbegin : s.begin o = s := by
      unfold Live.begin
      split
      · exact absurd rfl hrestart
      · rfl
    have hfew : (news s.server server).length ≤ 1 := by
      rcases news_cases hserver with hnews | ⟨id, state, hnews⟩ <;> simp [hnews]
    apply shown_sent (told_of_observe hserver) hfew
    · unfold Live.kept
      split <;> simp_all
    · rw [hbegin]
      exact publish_client s _
    · rw [hbegin]
      rfl

/-- The stream takes the next event out of the channel, or hears that it has fallen behind: what has
fallen out of the channel was lost before. -/
theorem shown_recv (h : step s .recv = some t) (job : JobId) :
    t.shown t.upcoming job = s.shown (s.kept .recv ++ s.told .recv) job := by
  simp only [step] at h
  split at h
  · cases h
    apply shown_silent
    · rfl
    · rfl
    · rfl
    · have hfits : (s.channel.drop (s.channel.length - eventCapacity)).length ≤ eventCapacity :=
        queue_length_le s
      simp only [Live.upcoming, Live.arriving, Live.queue, drop_of_fits hfits,
        List.filterMap_append, List.filterMap_cons, List.filterMap_nil, Message.event?,
        List.append_nil]
  · next hfits =>
    split at h
    · cases h
    · next e rest hchannel =>
      cases h
      have hqueue : s.queue = e :: rest :=
        (drop_of_fits (Nat.le_of_not_lt hfits)).trans hchannel
      have hrest : rest.drop (rest.length - eventCapacity) = rest := by
        rw [hchannel, List.length_cons] at hfits
        exact drop_of_fits (by omega)
      apply shown_silent
      · rfl
      · rfl
      · rfl
      · rw [Live.upcoming, Live.upcoming, hqueue, Live.queue, hrest, Live.arriving,
          List.filterMap_append, List.append_assoc]
        rfl

/-- Whatever the move, what the tab is going to show is what the events make of it that the move
leaves and sends. -/
theorem shown_step (h : step s a = some t) (ha : a ≠ .reload) (job : JobId) :
    t.shown t.upcoming job = s.shown (s.kept a ++ s.told a) job := by
  cases a with
  | observe o => exact shown_observe h job
  | recv => exact shown_recv h job
  | emit w e =>
    simp only [step] at h
    split at h
    · split at h
      · cases h
        apply shown_sent
        · exact (rfl : s.told (.emit w e) = if s.subscribed then [e] else [])
        · exact le_refl _
        · rfl
        · exact publish_client s [e]
        · rfl
      · cases h
    · cases h
  | deliver now =>
    simp only [step] at h
    split at h
    · cases h
    · next m rest hwire =>
      cases h
      rw [shown_deliver hwire now job]
      exact shown_silent (a := .deliver now) rfl rfl rfl rfl job
  | disconnect kept =>
    cases h
    simp [Live.shown, Live.upcoming, Live.kept, Live.told, Live.arriving, Live.queue]
  | connect =>
    simp only [step] at h
    split at h
    · cases h
      exact shown_silent (a := .connect) rfl rfl rfl rfl job
    · cases h
  | reload => exact absurd rfl ha

/-! What a move does to the jobs. -/

/-- Only a claim makes a job run. -/
theorem running_step {w w' : World pool} {a : Action pool} (h : Engine.step w a = some w')
    {job : JobId} (hrunning : ∃ r ∈ w'.jobs.rows, r.id = job ∧ r.state = .running) :
    (∃ r ∈ w.jobs.rows, r.id = job ∧ r.state = .running) ∨
      ∃ v now locked delivered, a = .claim v now locked delivered := by
  obtain ⟨r', hr', hid, hstate⟩ := hrunning
  rcases (step_rows h r').mp hr' with hadds | ⟨r, -, hchange⟩ | ⟨hr, -, -⟩
  · rw [hadds.queued] at hstate
    cases hstate
  · cases hchange with
    | claimed => exact .inr ⟨_, _, _, _, rfl⟩
    | _ => cases hstate
  · exact .inl ⟨r', hr, hid, hstate⟩

/-- No job begins to run while a state is published. -/
theorem running_of_news {server server' : Observed pool} {o : Observation pool} {job : JobId}
    (h : observe server o = some server') (hnews : news server server' ≠ [])
    (hrunning : Running server' job) : Running server job := by
  have hadvance : ∀ {a : Action pool} {told : Option Report},
      server.advance a told = some server' →
      (∀ v now locked delivered, a ≠ .claim v now locked delivered) → Running server job := by
    intro a told hadvance hclaim
    rcases running_step (advance_eq_some hadvance).1 hrunning with hbefore | ⟨_, _, _, _, rfl⟩
    · exact hbefore
    · exact absurd rfl (hclaim _ _ _ _)
  cases o with
  | act a =>
    cases a with
    | reportLost w => cases h
    | claim w now locked delivered =>
      have hreports : server'.reports = server.reports := (advance_eq_some h).2
      exact absurd (by simp [news, hreports]) hnews
    | _ => exact hadvance h (by intros; simp)
  | finishRefused w result | writeRefused w | writeUnanswered w now =>
    simp only [observe] at h
    split at h
    · exact hadvance h (by intros; simp)
    · cases h
  | take =>
    cases h
    exact hrunning

theorem server_step (h : step s a = some t) (ha : ∀ o, a ≠ .observe o) : t.server = s.server := by
  cases a with
  | observe o => exact absurd rfl (ha o)
  | emit w e =>
    simp only [step] at h
    split at h
    · split at h <;> cases h
      unfold Live.publish
      split <;> rfl
    · cases h
  | recv =>
    simp only [step] at h
    split at h
    · cases h
      rfl
    · split at h <;> cases h
      rfl
  | deliver now =>
    simp only [step] at h
    split at h <;> cases h
    rfl
  | connect =>
    simp only [step] at h
    split at h <;> cases h
    rfl
  | disconnect _ | reload =>
    cases h
    rfl

/-! Losses. -/

/-- What is lost is taken from one place. -/
theorem upcoming_split (s : Live pool) (a : Move pool) :
    ∃ pre post, s.kept a = pre ++ post ∧ s.upcoming = pre ++ (s.lost a ++ post) := by
  have hfall : ∀ n, s.upcoming = s.arriving ++ (s.queue.take n ++ s.queue.drop n) := fun n => by
    rw [List.take_append_drop]
    rfl
  unfold Live.kept Live.lost
  split
  · exact ⟨s.arriving, [], by simp, by simp [Live.upcoming]⟩
  · next kept =>
    refine ⟨(s.wire.take kept).filterMap Message.event?, [], by simp, ?_⟩
    rw [List.append_nil, ← List.append_assoc, ← List.filterMap_append, List.take_append_drop]
    rfl
  · exact ⟨s.arriving, _, rfl, hfall _⟩

/-- Where no end is lost, an entry that is left would have been left anyway. -/
theorem shown_upcoming {job : JobId} (hlost : ∀ e ∈ s.lost a, ¬ Ends job e)
    (h : s.shown (s.kept a) job = true) : s.shown s.upcoming job = true := by
  obtain ⟨pre, post, hkept, hupcoming⟩ := upcoming_split s a
  rw [Live.shown, hkept] at h
  rw [Live.shown, hupcoming]
  exact foldl_stands_insert hlost h

/-- A move that loses something sends something, or breaks the stream. -/
theorem told_of_lost {e : JobEvent} (he : e ∈ s.lost a) :
    s.told a ≠ [] ∨ a = .observe (.act .restart) ∨ ∃ kept, a = .disconnect kept := by
  by_cases htold : s.told a = []
  · unfold Live.lost at he
    split at he
    · exact .inr (.inl rfl)
    · exact .inr (.inr ⟨_, rfl⟩)
    · rw [overflow_of_told_nil htold] at he
      cases he
  · exact .inl htold

@[simp] theorem shown_append (s : Live pool) (events more : List JobEvent) (job : JobId) :
    s.shown (events ++ more) job = more.foldl (stands job) (s.shown events job) :=
  List.foldl_append

/-- A move that is kept leaves the tab in step with the jobs. -/
theorem inSync_of_kept (hsync : InSync s) (h : step s a = some t) (hkept : Kept s a) :
    InSync t := by
  intro job hshown
  by_cases hreload : a = .reload
  · subst hreload
    cases h
    simp [Live.shown, Live.upcoming, Live.arriving, Live.queue, Client.empty] at hshown
  rw [shown_step h hreload] at hshown
  have hbefore : Running s.server job := by
    by_cases htells : ∃ e ∈ s.told a, Tells job e
    · exact hkept.live job htells
    by_cases hends : ∃ e ∈ s.lost a, Ends job e
    · exact hkept.unlost job hends hshown
    · push Not at htells hends
      rw [shown_append] at hshown
      exact hsync job (shown_upcoming hends (standing_of_foldl htells hshown))
  by_cases hobserve : ∀ o, a ≠ .observe o
  · rw [server_step h hobserve]
    exact hbefore
  · push Not at hobserve
    obtain ⟨o, rfl⟩ := hobserve
    obtain ⟨server, hserver, rfl⟩ := Option.map_eq_some_iff.mp h
    by_contra hafter
    rw [shown_append] at hshown
    have hleft := standing_of_foldl (not_tells_of_observe hserver) hshown
    obtain ⟨e, he, hends⟩ := hkept.ended o server rfl hserver job hleft hbefore hafter
    rcases told_cases h with hnone | ⟨only, hone⟩
    · rw [hnone] at he
      cases he
    · rw [hone, List.mem_singleton] at he
      subst he
      rw [hone, List.foldl_cons, stands_of_ends hends] at hshown
      cases hshown

/-- A move after which the tab is in step with the jobs was kept. -/
theorem kept_of_inSync (h : step s a = some t) (hsync : InSync t) : Kept s a where
  live := by
    rintro job ⟨e, he, htells⟩
    cases a with
    | observe o =>
      obtain ⟨server, hserver, -⟩ := Option.map_eq_some_iff.mp h
      exact absurd htells (not_tells_of_observe hserver e he)
    | emit w e' =>
      rw [← server_step h (by simp)]
      apply hsync job
      rw [shown_step h (by simp), shown_append]
      rcases told_cases h with hnone | ⟨only, hone⟩
      · rw [hnone] at he
        cases he
      · rw [hone, List.mem_singleton] at he
        rw [hone, ← he, List.foldl_cons, stands_of_tells htells]
        rfl
    | _ => cases he
  ended := by
    rintro o server rfl hserver job hleft - hafter
    by_contra hends
    push Not at hends
    apply hafter
    obtain ⟨server', hserver', rfl⟩ := Option.map_eq_some_iff.mp h
    cases hserver.symm.trans hserver'
    apply hsync job
    rw [shown_step h (by simp), shown_append, hleft]
    exact foldl_stands_of_not_ends hends
  unlost := by
    rintro job ⟨e, he, -⟩ hshown
    by_cases hreload : a = .reload
    · subst hreload
      rcases told_of_lost he with htold | hrestart | ⟨kept, hkept⟩
      · exact absurd rfl htold
      · cases hrestart
      · cases hkept
    have hafter : Running t.server job := by
      apply hsync job
      rw [shown_step h hreload]
      exact hshown
    by_cases hobserve : ∀ o, a ≠ .observe o
    · rw [← server_step h hobserve]
      exact hafter
    · push Not at hobserve
      obtain ⟨o, rfl⟩ := hobserve
      obtain ⟨server, hserver, rfl⟩ := Option.map_eq_some_iff.mp h
      rcases told_of_lost he with htold | hrestart | ⟨kept, hkept⟩
      · refine running_of_news hserver (fun hnews => htold ?_) hafter
        rw [told_of_observe hserver, hnews]
        split <;> rfl
      · cases hrestart
        cases hserver
        exact hafter
      · cases hkept

theorem inSync_step_iff (hsync : InSync s) (h : step s a = some t) : InSync t ↔ Kept s a :=
  ⟨kept_of_inSync h, inSync_of_kept hsync h⟩

/-! Bringing the tab up to date. -/

/-- To catch up changes neither the jobs nor what the tab is going to show. -/
theorem catchUp_step (hcatch : a.CatchesUp) (h : step s a = some t) :
    t.server = s.server ∧ ∀ job, t.shown t.upcoming job = s.shown s.upcoming job := by
  have hsilent : s.told a = [] ∧ s.kept a = s.arriving ++ s.queue.drop (s.overflow a) := by
    cases a with
    | recv | deliver _ | connect => exact ⟨rfl, rfl⟩
    | _ => exact hcatch.elim
  refine ⟨server_step h ?_, fun job => ?_⟩
  · rintro o rfl
    exact hcatch
  · have hreload : a ≠ .reload := by
      rintro rfl
      exact hcatch
    rw [shown_step h hreload, hsilent.1, hsilent.2, overflow_of_told_nil hsilent.1,
      List.drop_zero, List.append_nil]
    rfl

theorem catchUp_exec {moves : List (Move pool)} (hcatch : ∀ a ∈ moves, a.CatchesUp)
    (h : exec step s moves = some t) :
    t.server = s.server ∧ ∀ job, t.shown t.upcoming job = s.shown s.upcoming job := by
  induction moves generalizing s with
  | nil =>
    cases h
    exact ⟨rfl, fun _ => rfl⟩
  | cons a moves ih =>
    obtain ⟨u, hu, hut⟩ := Option.bind_eq_some_iff.mp h
    have hfirst := catchUp_step (hcatch a List.mem_cons_self) hu
    have hrest := ih (fun b hb => hcatch b (List.mem_cons_of_mem a hb)) hut
    exact ⟨hrest.1.trans hfirst.1, fun job => (hrest.2 job).trans (hfirst.2 job)⟩

/-- The tab can be brought to a state that this one leads to by catching up. -/
def Leads (s t : Live pool) : Prop :=
  ∃ moves, (∀ a ∈ moves, a.CatchesUp) ∧ exec step s moves = some t

theorem Leads.refl (s : Live pool) : Leads s s := ⟨[], by simp, rfl⟩

theorem Leads.head {u : Live pool} (hcatch : a.CatchesUp) (h : step s a = some t)
    (hrest : Leads t u) : Leads s u := by
  obtain ⟨moves, hmoves, hexec⟩ := hrest
  refine ⟨a :: moves, ?_, ?_⟩
  · simpa [hcatch] using hmoves
  · rw [exec_cons, h]
    exact hexec

theorem Leads.trans {u : Live pool} (h : Leads s t) (hrest : Leads t u) : Leads s u := by
  obtain ⟨moves, hmoves, hexec⟩ := h
  obtain ⟨more, hmore, hexec'⟩ := hrest
  refine ⟨moves ++ more, ?_, ?_⟩
  · intro a ha
    rcases List.mem_append.mp ha with ha | ha
    · exact hmoves a ha
    · exact hmore a ha
  · rw [exec_append, hexec]
    exact hexec'

private theorem recv_shrinks (h : s.channel ≠ []) :
    ∃ t, step s .recv = some t ∧ t.channel.length < s.channel.length := by
  by_cases hlagged : eventCapacity < s.channel.length
  · refine ⟨_, if_pos hlagged, ?_⟩
    dsimp only
    exact lt_of_le_of_lt (queue_length_le s) hlagged
  · obtain ⟨e, rest, hchannel⟩ := List.exists_cons_of_ne_nil h
    refine ⟨{ s with channel := rest, wire := s.wire ++ [.event e] }, ?_, ?_⟩
    · simp only [step]
      rw [if_neg hlagged, hchannel]
    · rw [hchannel, List.length_cons]
      exact Nat.lt_succ_self _

/-- The receiver can write out all that the channel holds. -/
theorem leads_received (n : ℕ) (s : Live pool) (hn : s.channel.length ≤ n) :
    ∃ t, Leads s t ∧ t.channel = [] := by
  induction n generalizing s with
  | zero => exact ⟨s, .refl s, List.length_eq_zero_iff.mp (Nat.le_zero.mp hn)⟩
  | succ n ih =>
    by_cases hchannel : s.channel = []
    · exact ⟨s, .refl s, hchannel⟩
    · obtain ⟨u, hu, hshorter⟩ := recv_shrinks hchannel
      obtain ⟨t, ht, hnil⟩ := ih u (by omega)
      exact ⟨t, .head (a := .recv) trivial hu ht, hnil⟩

/-- The tab can read the stream to its end. -/
theorem leads_delivered (wire : List Message) (s : Live pool) (hwire : s.wire = wire) :
    ∃ t, Leads s t ∧ t.channel = s.channel ∧ t.wire = [] := by
  induction wire generalizing s with
  | nil => exact ⟨s, .refl s, rfl, hwire⟩
  | cons m rest ih =>
    obtain ⟨t, ht, hchannel, hnil⟩ := ih { s with
      wire := rest, client := s.client.receive 0 m } rfl
    refine ⟨t, .head (a := .deliver 0) trivial ?_ ht, hchannel, hnil⟩
    simp only [step]
    rw [hwire]

theorem leads_settled (s : Live pool) : ∃ t, Leads s t ∧ Settled t := by
  obtain ⟨u, hu, hchannel⟩ := leads_received _ s (le_refl _)
  obtain ⟨v, hv, hkept, hwire⟩ := leads_delivered _ u rfl
  rw [hchannel] at hkept
  cases hsub : v.subscribed with
  | true => exact ⟨v, hu.trans hv, hsub, hkept, hwire⟩
  | false =>
    refine ⟨{ v with subscribed := true }, hu.trans (hv.trans ?_), rfl, hkept, hwire⟩
    exact .head (a := .connect) trivial (if_pos ⟨hsub, hwire⟩) (.refl _)

private theorem shown_of_settled (h : Settled s) (job : JobId) :
    s.shown s.upcoming job = (s.client.progress job).isSome := by
  obtain ⟨-, hchannel, hwire⟩ := h
  simp [Live.shown, Live.upcoming, Live.arriving, Live.queue, hchannel, hwire]

/-- What a tab that catches up shows are running jobs exactly when it is in step with them. -/
theorem truthful_iff (s : Live pool) : Truthful s ↔ InSync s := by
  constructor
  · intro htruthful job hshown
    obtain ⟨t, ⟨moves, hmoves, hexec⟩, hsettled⟩ := leads_settled s
    obtain ⟨hserver, hsame⟩ := catchUp_exec hmoves hexec
    rw [← hserver]
    apply htruthful moves t hmoves hexec hsettled job
    rw [← shown_of_settled hsettled, hsame]
    exact hshown
  · intro hsync moves t hmoves hexec hsettled job hentry
    obtain ⟨hserver, hsame⟩ := catchUp_exec hmoves hexec
    rw [hserver]
    apply hsync job
    rw [← hsame, shown_of_settled hsettled]
    exact hentry

theorem inSync_init (repos : List SourceRepoId) : InSync (Live.init repos : Live pool) := by
  intro job hshown
  simp [Live.init, Live.shown, Live.upcoming, Live.arriving, Live.queue, Client.empty] at hshown

/-- Throughout a run, a tab that catches up shows only running jobs exactly when every move of the
run is kept. -/
theorem truthful_run_iff (repos : List SourceRepoId) (moves : List (Move pool)) :
    Always step Truthful (.init repos) moves ↔ Each step Kept (.init repos) moves := by
  have hrun : Always step InSync (.init repos) moves ↔ Each step Kept (.init repos) moves :=
    always_iff_each (fun _ _ _ _ _ => trivial) (fun _ _ _ _ => inSync_step_iff) moves
      (I := fun _ => True) trivial (inSync_init repos)
  rw [← hrun]
  exact ⟨Always.imp fun s => (truthful_iff s).mp, Always.imp fun s => (truthful_iff s).mpr⟩

/-- A page of a chapter has arrived when the stream breaks; before it is there again, the download
is done. -/
def brokenStream : List (Move 1) := [
  .connect,
  .observe (.act (.enqueue (.request ⟨7⟩ none) ⟨1⟩ 0)),
  .observe (.act (.claim 0 0 [] true)),
  .emit 0 (.jobProgress ⟨1⟩ 1 9 4096),
  .recv,
  .deliver 0,
  .disconnect 0,
  .observe (.act (.complete 0 0)),
  .connect]

/-- The tab is told nothing about the time it was away, and keeps the bar of a finished job. -/
theorem brokenStream_outlives : ¬ ∀ {pool : ℕ} (repos : List SourceRepoId)
    (moves : List (Move pool)),
    Always step (fun s => Settled s → OnlyRunning s) (.init repos) moves := by
  intro h
  obtain ⟨t, ht, htest⟩ := @exists_exec _ _ step (.init []) brokenStream
    (fun t => t.subscribed && t.channel.isEmpty && t.wire.isEmpty &&
      (t.client.progress ⟨1⟩).isSome && t.server.world.jobs.rows.all fun r => r.state ≠ .running)
    (by decide)
  simp only [Bool.and_eq_true, List.isEmpty_iff, List.all_eq_true, decide_eq_true_eq] at htest
  obtain ⟨⟨⟨⟨hsub, hchannel⟩, hwire⟩, hentry⟩, hrows⟩ := htest
  refine not_always_of_exec ht (fun honly => ?_) (h [] brokenStream)
  obtain ⟨r, hr, -, hstate⟩ := honly ⟨hsub, hchannel, hwire⟩ ⟨1⟩ hentry
  exact hrows r hr hstate

end Web
end Nyuka
