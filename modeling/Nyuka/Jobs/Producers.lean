import Nyuka.Jobs.Queue

/-! Everything that enqueues a job: the HTTP handlers, the follow sweep and the scheduler, with
the arguments and the idempotency key each of them passes. -/
namespace Nyuka
namespace Queue

/-- A visible ASCII byte or a tab, all that `HeaderValue::to_str` accepts. -/
def visibleAscii (b : UInt8) : Bool := (32 ≤ b && b < 127) || b = 9

def headerToStr (value : List UInt8) : Option String :=
  if value.all visibleAscii then some (String.ofList (value.map fun b => Char.ofNat b.toNat))
  else none

/-- The client's key when it sent a usable one, the chapter otherwise. -/
def downloadKey (chapter : ChapterId) (idempotencyKey : Option (List UInt8)) : String :=
  match (idempotencyKey.bind headerToStr).filter fun k => !k.isEmpty && k.utf8ByteSize ≤ 200 with
  | some k => s!"download:{chapter.uuid.hyphenated}:{k}"
  | none => s!"download:{chapter.uuid.hyphenated}"

/-- `as i64` of a `u64`. -/
def asI64 (n : ℕ) : ℤ := if n < 2 ^ 63 then n else n - 2 ^ 64

/-- The number of the period an instant falls in. -/
def periodBucket (everySecs : ℕ) (now : Time) : ℤ := now.timestamp / asI64 (max everySecs 1)

/-- Names the period an instant falls in. -/
def periodKey (keyPrefix : String) (everySecs : ℕ) (now : Time) : String :=
  s!"{keyPrefix}:{periodBucket everySecs now}"

/-- The minute a manual request falls in, rounded toward zero. -/
def minuteBucket (now : Time) : ℤ := now.timestamp.tdiv 60

/-- The job kinds an operator may queue by hand. -/
def triggerable : List JobKind := [.updateSources, .pruneJobs, .pruneSessions, .reconcileLibrary]

/-- A job kind the scheduler enqueues on a fixed period. -/
structure Periodic where
  kind : JobKind
  everySecs : ℕ
  priority : ℤ
  maxAttempts : ℤ
deriving DecidableEq

def day : ℕ := 24 * 60 * 60
def hour : ℕ := 60 * 60

def defaultSchedule : List Periodic := [
  { kind := .updateSources, everySecs := day, priority := 10, maxAttempts := 3 },
  { kind := .pruneJobs, everySecs := day, priority := 20, maxAttempts := 1 },
  { kind := .pruneSessions, everySecs := hour, priority := 20, maxAttempts := 1 },
  { kind := .reconcileLibrary, everySecs := day, priority := 20, maxAttempts := 1 }]

/-- The callers of `enqueue` other than a retry, each with what it was asked for. -/
inductive Producer where
  | request (chapter : ChapterId) (idempotencyKey : Option (List UInt8))
  | followDownload (chapter : ChapterId)
  | checkNow (follow : FollowId)
  | refreshRepo (repo : SourceRepoId)
  | trigger (kind : JobKind) (allowed : kind ∈ triggerable)
  | periodic (schedule : Periodic) (scheduled : schedule ∈ defaultSchedule)
  | dueFollow (follow : FollowId) (checkIntervalSecs : ℤ)

/-- The idempotency key a producer passes at an instant. -/
def Producer.key (now : Time) : Producer → String
  | request chapter idempotencyKey => downloadKey chapter idempotencyKey
  | followDownload chapter => s!"download:{chapter.uuid.hyphenated}"
  | checkNow follow => s!"check_follow:manual:{follow.uuid.hyphenated}:{minuteBucket now}"
  | refreshRepo _ => s!"update_sources:manual:{minuteBucket now}"
  | trigger kind _ => s!"{kindToStr kind}:manual:{minuteBucket now}"
  | periodic schedule _ => periodKey (kindToStr schedule.kind) schedule.everySecs now
  | dueFollow follow checkIntervalSecs =>
    periodKey s!"check_follow:{follow.uuid.hyphenated}" (max checkIntervalSecs 1).toNat now

def Producer.enqueue (now : Time) (p : Producer) : Enqueue :=
  match p with
  | request chapter _ => {
      kind := .downloadChapter, payload := .about "chapter_id" chapter.uuid, runAt := none
      idempotencyKey := some (p.key now), priority := 0, maxAttempts := 5 }
  | followDownload chapter => {
      kind := .downloadChapter, payload := .about "chapter_id" chapter.uuid, runAt := none
      idempotencyKey := some (p.key now), priority := 5, maxAttempts := 5 }
  | checkNow follow => {
      kind := .checkFollow, payload := .about "follow_id" follow.uuid, runAt := none
      idempotencyKey := some (p.key now), priority := 0, maxAttempts := 3 }
  | refreshRepo repo => {
      kind := .updateSources, payload := .about "repo_id" repo.uuid, runAt := none
      idempotencyKey := some (p.key now), priority := 0, maxAttempts := 3 }
  | trigger kind _ => {
      kind, payload := .object [], runAt := none
      idempotencyKey := some (p.key now), priority := 0, maxAttempts := 1 }
  | periodic schedule _ => {
      kind := schedule.kind, payload := .object [], runAt := none
      idempotencyKey := some (p.key now)
      priority := schedule.priority, maxAttempts := schedule.maxAttempts }
  | dueFollow follow _ => {
      kind := .checkFollow, payload := .about "follow_id" follow.uuid, runAt := none
      idempotencyKey := some (p.key now), priority := 5, maxAttempts := 3 }

/-- A fresh job with the kind and the payload of the one that is retried. -/
def retryOf (job : Job) : Enqueue where
  kind := job.kind
  payload := job.payload
  runAt := none
  idempotencyKey := some s!"retry:{job.id.uuid.hyphenated}"
  priority := job.priority
  maxAttempts := job.maxAttempts

/-- The key of a job's retries. It is drawn up from the original alone. -/
def retryKey (id : JobId) : String := s!"retry:{id.uuid.hyphenated}"

@[simp] theorem retryOf_idempotencyKey (job : Job) :
    (retryOf job).idempotencyKey = some (retryKey job.id) := rfl

theorem retryKey_inj {a b : JobId} (h : retryKey a = retryKey b) : a = b := by
  obtain ⟨a⟩ := a
  obtain ⟨b⟩ := b
  have htext : a.hyphenated = b.hyphenated := by
    simpa [retryKey, ← String.toList_inj, String.toList_append] using h
  rw [Uuid.hyphenated_inj htext]

/-- What a producer wants done. -/
inductive Subject where
  | chapter (id : ChapterId)
  | follow (id : FollowId)
  | sweep (kind : JobKind) (allowed : kind ∈ triggerable)

theorem mem_triggerable_of_scheduled {schedule : Periodic} (h : schedule ∈ defaultSchedule) :
    schedule.kind ∈ triggerable := by
  have : ∀ p ∈ defaultSchedule, p.kind ∈ triggerable := by decide
  exact this _ h

def Producer.subject : Producer → Subject
  | request chapter _ => .chapter chapter
  | followDownload chapter => .chapter chapter
  | checkNow follow => .follow follow
  | refreshRepo _ => .sweep .updateSources (by decide)
  | trigger kind allowed => .sweep kind allowed
  | periodic schedule scheduled => .sweep schedule.kind (mem_triggerable_of_scheduled scheduled)
  | dueFollow follow _ => .follow follow

/-- The row is a job that does what the subject asks for. -/
def Subject.CoveredBy (row : JobRow) : Subject → Prop
  | chapter id =>
    row.kind = kindToStr .downloadChapter ∧ row.payload.Names "chapter_id" id.uuid
  | follow id => row.kind = kindToStr .checkFollow ∧ row.payload.Names "follow_id" id.uuid
  | sweep kind _ => row.kind = kindToStr kind

instance (row : JobRow) (subject : Subject) : Decidable (subject.CoveredBy row) := by
  cases subject <;> unfold Subject.CoveredBy <;> infer_instance

theorem Subject.CoveredBy.congr {r r' : JobRow} (hkind : r'.kind = r.kind)
    (hpayload : r'.payload = r.payload) {subject : Subject} (h : subject.CoveredBy r) :
    subject.CoveredBy r' := by
  cases subject <;> simpa only [CoveredBy, hkind, hpayload] using h

@[simp] theorem Producer.enqueue_idempotencyKey (p : Producer) (now : Time) :
    (p.enqueue now).idempotencyKey = some (p.key now) := by cases p <;> rfl

/-- The row a producer adds does what the producer wants done. -/
theorem Producer.covered (p : Producer) (id : JobId) (now : Time) :
    p.subject.CoveredBy ((p.enqueue now).row id now) := by
  cases p <;> simp [subject, Subject.CoveredBy, enqueue, Enqueue.row]

/-- A producer's row checks a follow only if that is what the producer wants done. -/
@[simp]
theorem Producer.follow_covered_iff (p : Producer) {follow : FollowId} {id : JobId} {now : Time} :
    (Subject.follow follow).CoveredBy ((p.enqueue now).row id now) ↔
      p.subject = .follow follow := by
  constructor
  · intro h
    have hsweep : ∀ kind ∈ triggerable, kindToStr kind ≠ kindToStr .checkFollow := by decide
    have hdownload : kindToStr .downloadChapter ≠ kindToStr .checkFollow := by decide
    obtain ⟨hkind, hnames⟩ := h
    cases p with
    | request _ _ | followDownload _ => exact absurd hkind hdownload
    | refreshRepo _ => exact absurd hkind (hsweep .updateSources (by decide))
    | trigger kind allowed => exact absurd hkind (hsweep kind allowed)
    | periodic schedule scheduled =>
      exact absurd hkind (hsweep _ (mem_triggerable_of_scheduled scheduled))
    | checkNow other | dueFollow other _ =>
      obtain ⟨other⟩ := other
      obtain ⟨follow⟩ := follow
      obtain rfl : other = follow := JsonValue.names_about.1 hnames
      rfl
  · exact fun hsubject => hsubject ▸ p.covered id now

theorem Producer.one_le_maxAttempts (p : Producer) (now : Time) :
    1 ≤ (p.enqueue now).maxAttempts := by
  have hschedule : ∀ q ∈ defaultSchedule, 1 ≤ q.maxAttempts := by decide
  cases p with
  | periodic schedule scheduled => exact hschedule schedule scheduled
  | _ => simp [enqueue]

/-- A subject as the fields of a key tell it. -/
def Subject.fields : Subject → String × String
  | chapter id => ("download", id.uuid.hyphenated)
  | follow id => ("check_follow", id.uuid.hyphenated)
  | sweep kind _ => (kindToStr kind, "")

/-- Reads the subject back from the fields of a key. -/
def readKey (fields : List String) : String × String :=
  let kind := fields.headD ""
  let subject := fields.tail.headD ""
  if kind = "download" ∨ kind = "retry" then (kind, subject)
  else if kind = "check_follow" then
    (kind, if subject = "manual" then fields.tail.tail.headD "" else subject)
  else (kind, "")

private theorem hyphenated_ne_manual (u : Uuid) : u.hyphenated ≠ "manual" := by
  intro h
  have hplain := Uuid.plain_hyphenated (c := 'm') (by decide) (by decide) u
  rw [h] at hplain
  exact absurd hplain (by decide)

theorem Subject.fields_inj {a b : Subject} (h : a.fields = b.fields) : a = b := by
  have hsweep : ∀ kind ∈ triggerable, kindToStr kind ≠ "download" ∧
      kindToStr kind ≠ "check_follow" := by decide
  cases a with
  | chapter c =>
    cases b with
    | chapter d =>
      obtain ⟨c⟩ := c
      obtain ⟨d⟩ := d
      simp only [fields, Prod.mk.injEq, true_and] at h
      rw [Uuid.hyphenated_inj h]
    | follow g => simp [fields] at h
    | sweep kind allowed =>
      simp only [fields, Prod.mk.injEq] at h
      exact absurd h.1.symm (hsweep kind allowed).1
  | follow f =>
    cases b with
    | chapter d => simp [fields] at h
    | follow g =>
      obtain ⟨f⟩ := f
      obtain ⟨g⟩ := g
      simp only [fields, Prod.mk.injEq, true_and] at h
      rw [Uuid.hyphenated_inj h]
    | sweep kind allowed =>
      simp only [fields, Prod.mk.injEq] at h
      exact absurd h.1.symm (hsweep kind allowed).2
  | sweep kind allowed =>
    cases b with
    | chapter d =>
      simp only [fields, Prod.mk.injEq] at h
      exact absurd h.1 (hsweep kind allowed).1
    | follow g =>
      simp only [fields, Prod.mk.injEq] at h
      exact absurd h.1 (hsweep kind allowed).2
    | sweep kind' allowed' =>
      simp only [fields, Prod.mk.injEq, kindToStr_inj, and_true] at h
      subst h
      rfl

private theorem plain_uuid (u : Uuid) : Text.Plain ':' u.hyphenated :=
  Uuid.plain_hyphenated (by decide) (by decide) u

private theorem plain_integer (n : ℤ) : Text.Plain ':' (toString n) :=
  Text.plain_int n (by decide) (by decide)

theorem fields_downloadKey (chapter : ChapterId) (header : Option (List UInt8)) :
    ∃ rest, Text.fields ':' (downloadKey chapter header) =
      "download" :: chapter.uuid.hyphenated :: rest := by
  unfold downloadKey
  split
  next k _ =>
    refine ⟨Text.fields ':' k, ?_⟩
    rw [Text.fields_cons (a := "download") (b := s!"{chapter.uuid.hyphenated}:{k}") (by decide)
        (by simp [String.toList_append]),
      Text.fields_cons (a := chapter.uuid.hyphenated) (b := k) (plain_uuid _)
        (by simp [String.toList_append])]
  next =>
    refine ⟨[], ?_⟩
    rw [Text.fields_cons (a := "download") (b := chapter.uuid.hyphenated) (by decide)
        (by simp [String.toList_append]), Text.fields_of_plain (plain_uuid _)]

theorem fields_periodKey {stem : String} (hstem : Text.Plain ':' stem) (everySecs : ℕ)
    (now : Time) : ∃ bucket, Text.fields ':' (periodKey stem everySecs now) = [stem, bucket] := by
  refine ⟨toString (periodBucket everySecs now), ?_⟩
  rw [periodKey, Text.fields_cons (a := stem) (b := toString (periodBucket everySecs now)) hstem
      (by simp [String.toList_append]),
    Text.fields_of_plain (plain_integer (periodBucket everySecs now))]

theorem fields_manual {α : Type} [ToString α] {kind : String} (hkind : Text.Plain ':' kind)
    (rest : α) : Text.fields ':' s!"{kind}:manual:{rest}" =
      kind :: "manual" :: Text.fields ':' (toString rest) := by
  rw [Text.fields_cons (a := kind) (b := s!"manual:{rest}") hkind
      (by simp [String.toList_append]),
    Text.fields_cons (a := "manual") (b := toString rest) (by decide)
      (by simp [String.toList_append])]

private theorem readKey_sweep {kind : JobKind} (h : kind ∈ triggerable) (rest : List String) :
    readKey (kindToStr kind :: rest) = (kindToStr kind, "") := by
  have hkind : ∀ k ∈ triggerable, kindToStr k ≠ "download" ∧ kindToStr k ≠ "retry" ∧
      kindToStr k ≠ "check_follow" := by decide
  simp [readKey, hkind kind h]

theorem fields_checkNow (follow : FollowId) (now : Time) :
    Text.fields ':' ((Producer.checkNow follow).key now) =
      ["check_follow", "manual", follow.uuid.hyphenated, toString (minuteBucket now)] := by
  have hkey : (Producer.checkNow follow).key now =
      s!"check_follow:manual:{follow.uuid.hyphenated}:{minuteBucket now}" := rfl
  rw [hkey, Text.fields_cons (a := "check_follow")
      (b := s!"manual:{follow.uuid.hyphenated}:{minuteBucket now}") (by decide)
      (by simp [String.toList_append]),
    Text.fields_cons (a := "manual") (b := s!"{follow.uuid.hyphenated}:{minuteBucket now}")
      (by decide) (by simp [String.toList_append]),
    Text.fields_cons (a := follow.uuid.hyphenated) (b := toString (minuteBucket now))
      (plain_uuid _) (by simp [String.toList_append]),
    Text.fields_of_plain (plain_integer _)]

theorem fields_trigger {kind : JobKind} (allowed : kind ∈ triggerable) (now : Time) :
    Text.fields ':' ((Producer.trigger kind allowed).key now) =
      [kindToStr kind, "manual", toString (minuteBucket now)] := by
  have hkey : (Producer.trigger kind allowed).key now =
      s!"{kindToStr kind}:manual:{minuteBucket now}" := rfl
  rw [hkey, fields_manual (plain_kindToStr kind), Text.fields_of_plain (plain_integer _)]

/-- A refresh is keyed like a trigger of the sources' update. -/
theorem refreshRepo_key (repo : SourceRepoId) (now : Time) :
    (Producer.refreshRepo repo).key now =
      (Producer.trigger .updateSources (by decide)).key now := rfl

theorem fields_dueFollow (follow : FollowId) (interval : ℤ) (now : Time) :
    ∃ bucket, Text.fields ':' ((Producer.dueFollow follow interval).key now) =
      ["check_follow", follow.uuid.hyphenated, bucket] := by
  obtain ⟨bucket, hfields⟩ := fields_periodKey (plain_uuid follow.uuid) (max interval 1).toNat now
  have hkey : (Producer.dueFollow follow interval).key now =
      periodKey s!"check_follow:{follow.uuid.hyphenated}" (max interval 1).toNat now := rfl
  refine ⟨bucket, ?_⟩
  rw [hkey, Text.fields_cons (a := "check_follow") (by decide)
    (b := periodKey follow.uuid.hyphenated (max interval 1).toNat now)
    (by simp [periodKey, String.toList_append]), hfields]

/-- Every key tells what its producer wants done. -/
@[simp] theorem readKey_key (p : Producer) (now : Time) :
    readKey (Text.fields ':' (p.key now)) = p.subject.fields := by
  cases p with
  | request chapter header =>
    obtain ⟨rest, hfields⟩ := fields_downloadKey chapter header
    have hkey : (Producer.request chapter header).key now = downloadKey chapter header := rfl
    rw [hkey, hfields]
    simp [readKey, Producer.subject, Subject.fields]
  | followDownload chapter =>
    obtain ⟨rest, hfields⟩ := fields_downloadKey chapter none
    have hkey : (Producer.followDownload chapter).key now = downloadKey chapter none := rfl
    rw [hkey, hfields]
    simp [readKey, Producer.subject, Subject.fields]
  | checkNow follow =>
    rw [fields_checkNow]
    simp [readKey, Producer.subject, Subject.fields]
  | refreshRepo repo =>
    rw [refreshRepo_key, fields_trigger]
    exact readKey_sweep (by decide) _
  | trigger kind allowed =>
    rw [fields_trigger]
    exact readKey_sweep allowed _
  | periodic schedule scheduled =>
    obtain ⟨bucket, hfields⟩ :=
      fields_periodKey (plain_kindToStr schedule.kind) schedule.everySecs now
    have hkey : (Producer.periodic schedule scheduled).key now =
        periodKey (kindToStr schedule.kind) schedule.everySecs now := rfl
    rw [hkey, hfields]
    exact readKey_sweep (mem_triggerable_of_scheduled scheduled) _
  | dueFollow follow interval =>
    obtain ⟨bucket, hfields⟩ := fields_dueFollow follow interval now
    rw [hfields]
    simp [readKey, hyphenated_ne_manual, Producer.subject, Subject.fields]

/-- Producers that share a key want the same thing done. -/
theorem subject_eq_of_key {p q : Producer} {now then_ : Time} (h : p.key now = q.key then_) :
    p.subject = q.subject := by
  apply Subject.fields_inj
  rw [← readKey_key p now, ← readKey_key q then_, h]

theorem retry_key_ne (id : JobId) (p : Producer) (now : Time) : retryKey id ≠ p.key now := by
  intro h
  have hread := readKey_key p now
  rw [← h, Text.fields_cons (a := "retry") (b := id.uuid.hyphenated) (by decide)
    (by simp [retryKey, String.toList_append])] at hread
  have hkind : p.subject.fields.1 = "retry" := by
    rw [← hread]
    simp [readKey]
  have hsweep : ∀ kind ∈ triggerable, kindToStr kind ≠ "retry" := by decide
  cases hsubject : p.subject with
  | chapter c => simp [hsubject, Subject.fields] at hkind
  | follow f => simp [hsubject, Subject.fields] at hkind
  | sweep kind allowed =>
    rw [hsubject] at hkind
    exact hsweep kind allowed hkind

/-- The scheduler's fixed periods call, not a person or a follow. -/
def Producer.Scheduled : Producer → Prop
  | periodic _ _ => True
  | _ => False

instance (p : Producer) : Decidable p.Scheduled := by
  cases p <;> unfold Producer.Scheduled <;> infer_instance

theorem fields_kindKey (kind : JobKind) (everySecs : ℕ) (now : Time) :
    ∃ bucket, Text.fields ':' (periodKey (kindToStr kind) everySecs now) =
      [kindToStr kind, bucket] := fields_periodKey (plain_kindToStr kind) everySecs now

/-- The key of a kind's period has two fields, of which the first is the kind. -/
theorem kind_of_key {kind other : JobKind} {everySecs otherSecs : ℕ} {now later : Time}
    (h : periodKey (kindToStr kind) everySecs now = periodKey (kindToStr other) otherSecs later) :
    kind = other := by
  obtain ⟨bucket, hfields⟩ := fields_kindKey kind everySecs now
  obtain ⟨bucket', hfields'⟩ := fields_kindKey other otherSecs later
  rw [h, hfields', List.cons.injEq] at hfields
  exact (kindToStr_inj.mp hfields.1).symm

/-- No other producer's key looks like that. -/
theorem fields_of_unscheduled {p : Producer} (hp : ¬ p.Scheduled) (now : Time) :
    3 ≤ (Text.fields ':' (p.key now)).length ∨
      (Text.fields ':' (p.key now)).head? = some "download" := by
  cases p with
  | request chapter header =>
    obtain ⟨rest, hfields⟩ := fields_downloadKey chapter header
    exact .inr (congrArg List.head? hfields)
  | followDownload chapter =>
    obtain ⟨rest, hfields⟩ := fields_downloadKey chapter none
    exact .inr (congrArg List.head? hfields)
  | checkNow follow =>
    rw [fields_checkNow]
    exact .inl (by simp)
  | refreshRepo repo =>
    rw [refreshRepo_key, fields_trigger]
    exact .inl (le_refl 3)
  | trigger kind allowed =>
    rw [fields_trigger]
    exact .inl (le_refl 3)
  | periodic schedule scheduled => exact absurd trivial hp
  | dueFollow follow interval =>
    obtain ⟨bucket, hfields⟩ := fields_dueFollow follow interval now
    rw [hfields]
    exact .inl (le_refl 3)

theorem periodKey_ne_key (kind : JobKind) (everySecs : ℕ) (now : Time) {p : Producer}
    (hp : ¬ p.Scheduled) (later : Time) :
    periodKey (kindToStr kind) everySecs now ≠ p.key later := by
  intro h
  obtain ⟨bucket, hfields⟩ := fields_kindKey kind everySecs now
  rcases fields_of_unscheduled hp later with hlong | hhead
  · rw [← h, hfields] at hlong
    exact absurd hlong (by simp)
  · rw [← h, hfields] at hhead
    have hkind : ∀ k : JobKind, kindToStr k ≠ "download" := by intro k; cases k <;> decide
    exact hkind kind (Option.some.inj hhead)

theorem periodKey_ne_retryKey (kind : JobKind) (everySecs : ℕ) (now : Time) (id : JobId) :
    periodKey (kindToStr kind) everySecs now ≠ retryKey id := by
  intro h
  obtain ⟨bucket, hfields⟩ := fields_kindKey kind everySecs now
  rw [h, Text.fields_cons (a := "retry") (b := id.uuid.hyphenated) (by decide)
    (by simp [retryKey, String.toList_append]), List.cons.injEq] at hfields
  have hkind : ∀ k : JobKind, "retry" ≠ kindToStr k := by intro k; cases k <;> decide
  exact hkind kind hfields.1

end Queue
end Nyuka
