import Mathlib.Data.List.Induction
import Nyuka.Runtime.Resources

/-! The resource table over the guest's handles of 32 bits, and the history of an invocation, by
which a handle is live or not. -/
namespace Nyuka
namespace Runtime
variable {Html : Type}

/-- Handles, and the objects behind them. -/
structure HandleTable (Html : Type) where
  entries : Int32 → Option (Resource Html)
  next : Int32

namespace HandleTable

def new : HandleTable Html := ⟨fun _ => none, 0⟩

/-- Stores a resource and returns its handle. The counter wraps. -/
def insert (t : HandleTable Html) (resource : Resource Html) : HandleTable Html × Int32 :=
  let id := t.next + 1
  (⟨Function.update t.entries id (some resource), id⟩, id)

def get (t : HandleTable Html) (id : Int32) : Option (Resource Html) := t.entries id

/-- What is done to a resource through `get_mut`. -/
def modify (t : HandleTable Html) (id : Int32) (f : Resource Html → Resource Html) :
    HandleTable Html :=
  { t with entries := Function.update t.entries id ((t.entries id).map f) }

/-- Releases a handle. Unknown handles are ignored. -/
def remove (t : HandleTable Html) (id : Int32) : HandleTable Html :=
  { t with entries := Function.update t.entries id none }

/-- A buffer, if that is what the handle refers to. -/
def buffer (t : HandleTable Html) (id : Int32) : Option Bytes :=
  match t.entries id with
  | some (.buffer bytes) => some bytes
  | _ => none

/-- A node, if that is what the handle refers to. -/
def node (t : HandleTable Html) (id : Int32) : Option (Html × ℕ) :=
  match t.entries id with
  | some (.node html id) => some (html, id)
  | _ => none

def request (t : HandleTable Html) (id : Int32) : Option HeldRequest :=
  match t.entries id with
  | some (.request r) => some r
  | _ => none

/-- What is done to a request through `request_mut`. -/
def modifyRequest (t : HandleTable Html) (id : Int32) (f : HeldRequest → HeldRequest) :
    HandleTable Html :=
  t.modify id fun
    | .request r => .request (f r)
    | resource => resource

end HandleTable

section Invocation

/-- What the host does with the table for its guest, under handles the guest passes. -/
inductive TableOp (Html : Type) where
  | insert (resource : Resource Html)
  | lookup (id : Int32)
  | modify (id : Int32) (f : Resource Html → Resource Html)
  | remove (id : Int32)

inductive TableEvent (Html : Type) where
  | issued (id : Int32) (resource : Resource Html)
  | answered (id : Int32) (answer : Option (Resource Html))
  | modified (id : Int32) (f : Resource Html → Resource Html)
  | removed (id : Int32)

/-- The table of an invocation, with the history of what was done to it. -/
structure Invocation (Html : Type) where
  table : HandleTable Html
  log : List (TableEvent Html)

def Invocation.act (s : Invocation Html) : TableOp Html → Invocation Html
  | .insert resource =>
    let (table, id) := s.table.insert resource
    ⟨table, s.log ++ [.issued id resource]⟩
  | .lookup id => ⟨s.table, s.log ++ [.answered id (s.table.get id)]⟩
  | .modify id f => ⟨s.table.modify id f, s.log ++ [.modified id f]⟩
  | .remove id => ⟨s.table.remove id, s.log ++ [.removed id]⟩

def invoke (ops : List (TableOp Html)) : Invocation Html := ops.foldl Invocation.act ⟨.new, []⟩

def TableOp.isInsert : TableOp Html → Bool
  | .insert _ => true
  | _ => false

def insertions (ops : List (TableOp Html)) : ℕ := ops.countP TableOp.isInsert

end Invocation

section History

/-- The handles that were issued, in their order. -/
def issued (log : List (TableEvent Html)) : List Int32 :=
  log.filterMap fun
    | .issued id _ => some id
    | _ => none

/-- The writes through the handle. -/
def written (id : Int32) (resource : Resource Html) : TableEvent Html → Resource Html
  | .modified id' f => if id' = id then f resource else resource
  | _ => resource

/-- A resource was stored under the handle, which is not released since; what was written through
the handle has become of it. -/
def Live (log : List (TableEvent Html)) (id : Int32) (resource : Resource Html) : Prop :=
  ∃ before stored after, log = before ++ .issued id stored :: after ∧ .removed id ∉ after ∧
    resource = after.foldl (written id) stored

/-- The handle was not issued, or has been released. -/
def Dead (log : List (TableEvent Html)) (id : Int32) : Prop :=
  id ∉ issued log ∨
    ∃ before stored after, log = before ++ .issued id stored :: after ∧ .removed id ∈ after

/-- What the history leaves under a handle. -/
def heldAfter (id : Int32) (held : Option (Resource Html)) :
    TableEvent Html → Option (Resource Html)
  | .issued id' resource => if id' = id then some resource else held
  | .answered _ _ => held
  | .modified id' f => if id' = id then held.map f else held
  | .removed id' => if id' = id then none else held

def held (log : List (TableEvent Html)) (id : Int32) : Option (Resource Html) :=
  log.foldl (heldAfter id) none

variable {log before after : List (TableEvent Html)} {e : TableEvent Html} {id : Int32}
  {resource stored : Resource Html}

@[simp] theorem held_concat : held (log ++ [e]) id = heldAfter id (held log id) e := by
  simp [held]

@[simp] theorem issued_append : issued (before ++ after) = issued before ++ issued after :=
  List.filterMap_append

@[simp] theorem mem_issued : id ∈ issued log ↔ ∃ resource, .issued id resource ∈ log := by
  unfold issued
  rw [List.mem_filterMap]
  constructor
  · rintro ⟨e, he, hid⟩
    cases e with
    | issued id' resource => exact ⟨resource, Option.some.inj hid ▸ he⟩
    | answered | modified | removed => cases hid
  · rintro ⟨resource, h⟩
    exact ⟨_, h, rfl⟩

/-- An event that neither issues nor releases the handle is at most a write through it. -/
theorem heldAfter_some (hissued : ∀ resource, e ≠ .issued id resource)
    (hremoved : e ≠ .removed id) :
    heldAfter id (some resource) e = some (written id resource e) := by
  cases e with
  | issued id' stored =>
    have hne : id' ≠ id := fun h => hissued stored (h ▸ rfl)
    simp [heldAfter, written, hne]
  | answered => rfl
  | modified id' f => by_cases h : id' = id <;> simp [heldAfter, written, h]
  | removed id' =>
    have hne : id' ≠ id := fun h => hremoved (h ▸ rfl)
    simp [heldAfter, written, hne]

theorem heldAfter_none (hissued : ∀ resource, e ≠ .issued id resource) :
    heldAfter id none e = none := by
  cases e with
  | issued id' stored =>
    have hne : id' ≠ id := fun h => hissued stored (h ▸ rfl)
    simp [heldAfter, hne]
  | answered | modified | removed => simp [heldAfter]

private theorem foldl_heldAfter (hissued : id ∉ issued after) (hremoved : .removed id ∉ after) :
    after.foldl (heldAfter id) (some stored) = some (after.foldl (written id) stored) := by
  induction after generalizing stored with
  | nil => rfl
  | cons e after ih =>
    have hhead : ∀ resource, e ≠ .issued id resource := fun resource h =>
      hissued (mem_issued.mpr ⟨resource, h ▸ List.mem_cons_self⟩)
    have htail : id ∉ issued after := fun h => by
      obtain ⟨resource, hmem⟩ := mem_issued.mp h
      exact hissued (mem_issued.mpr ⟨resource, List.mem_cons_of_mem _ hmem⟩)
    rw [List.foldl_cons, List.foldl_cons,
      heldAfter_some hhead fun h => hremoved (h ▸ List.mem_cons_self)]
    exact ih htail fun h => hremoved (List.mem_cons_of_mem _ h)

/-- Handles are issued once, so a live handle's resource is the one the history leaves. -/
theorem held_of_live (hnodup : (issued log).Nodup) (h : Live log id resource) :
    held log id = some resource := by
  obtain ⟨before, stored, after, rfl, hremoved, rfl⟩ := h
  have hafter : id ∉ issued after := by
    rw [issued_append, List.nodup_append] at hnodup
    exact (List.nodup_cons.mp hnodup.2.1).1
  rw [held, List.foldl_append, List.foldl_cons]
  have hstart : ∀ held : Option (Resource Html), heldAfter id held (.issued id stored) =
      some stored := fun _ => if_pos rfl
  rw [hstart, foldl_heldAfter hafter hremoved]

theorem live_of_held (h : held log id = some resource) : Live log id resource := by
  induction log using List.reverseRecOn generalizing resource with
  | nil => cases h
  | append_singleton log e ih =>
    rw [held_concat] at h
    by_cases hissued : ∃ stored, e = .issued id stored
    · obtain ⟨stored, rfl⟩ := hissued
      have hstored : stored = resource := by simpa [heldAfter] using h
      exact ⟨log, stored, [], rfl, List.not_mem_nil, hstored.symm⟩
    push Not at hissued
    have hremoved : e ≠ .removed id := by
      rintro rfl
      simp [heldAfter] at h
    cases hheld : held log id with
    | none =>
      rw [hheld, heldAfter_none hissued] at h
      cases h
    | some earlier =>
      rw [hheld, heldAfter_some hissued hremoved] at h
      obtain ⟨before, stored, after, rfl, hafter, rfl⟩ := ih hheld
      refine ⟨before, stored, after ++ [e], by simp, ?_, ?_⟩
      · simp [hafter, hremoved.symm]
      · simpa using (Option.some.inj h).symm

theorem held_eq_some_iff (hnodup : (issued log).Nodup) :
    held log id = some resource ↔ Live log id resource :=
  ⟨live_of_held, held_of_live hnodup⟩

/-- A handle is issued in one place, so it is not both released and live. -/
theorem not_live_of_dead (hnodup : (issued log).Nodup) (h : Dead log id) :
    ¬ Live log id resource := by
  rintro ⟨before, stored, after, rfl, hremoved, -⟩
  rcases h with hissued | ⟨before', stored', after', hlog, hremoved'⟩
  · exact hissued (mem_issued.mpr ⟨stored, by simp⟩)
  · have hsame : after' = after := by
      have hcount : ∀ {before after : List (TableEvent Html)} {stored : Resource Html},
          (issued (before ++ .issued id stored :: after)).Nodup →
            id ∉ issued before ∧ id ∉ issued after := fun h => by
        rw [issued_append, List.nodup_append] at h
        exact ⟨fun hmem => h.2.2 _ hmem _ List.mem_cons_self rfl, (List.nodup_cons.mp h.2.1).1⟩
      have hfirst := hcount hnodup
      have hsecond := hcount (hlog ▸ hnodup)
      rcases List.append_eq_append_iff.mp hlog with ⟨mid, rfl, hmid⟩ | ⟨mid, rfl, hmid⟩
      · cases mid with
        | nil => exact (List.cons.inj hmid).2.symm
        | cons e mid =>
          obtain ⟨rfl, -⟩ := List.cons.inj hmid
          exact absurd (mem_issued.mpr ⟨stored, by simp⟩) hsecond.1
      · cases mid with
        | nil => exact (List.cons.inj hmid).2
        | cons e mid =>
          obtain ⟨rfl, -⟩ := List.cons.inj hmid
          exact absurd (mem_issued.mpr ⟨stored', by simp⟩) hfirst.1
    exact hremoved (hsame ▸ hremoved')

end History

section Invariant

/-- What an invocation keeps: the counter is the number of handles issued, these are the numbers
from 1 to it, and the table and the answers are what the history leaves. -/
structure Invocation.Sound (s : Invocation Html) : Prop where
  counted : s.table.next.toInt = (issued s.log).length
  bounded : ∀ id ∈ issued s.log, 0 < id.toInt ∧ id.toInt ≤ s.table.next.toInt
  nodup : (issued s.log).Nodup
  held : ∀ id, s.table.get id = held s.log id
  answered : ∀ before id answer after, s.log = before ++ .answered id answer :: after →
    (issued before).Nodup ∧ answer = Runtime.held before id

variable {s : Invocation Html} {ops : List (TableOp Html)} {log : List (TableEvent Html)}
  {e : TableEvent Html}

theorem sound_new : (⟨.new, []⟩ : Invocation Html).Sound where
  counted := rfl
  bounded _ h := absurd h List.not_mem_nil
  nodup := List.nodup_nil
  held _ := rfl
  answered before _ _ _ h := by cases before <;> cases h

theorem toInt_add_one {n : Int32} (h : n.toInt + 1 < 2 ^ 31) : (n + 1).toInt = n.toInt + 1 := by
  have hlow := n.le_toInt
  rw [Int32.toInt_add, show (1 : Int32).toInt = 1 from rfl]
  exact Int.bmod_eq_of_le (by omega) (by omega)

/-- An answer in a longer history is one of the shorter, or the last event. -/
theorem answered_concat {before after : List (TableEvent Html)} {id : Int32}
    {answer : Option (Resource Html)} (h : log ++ [e] = before ++ .answered id answer :: after) :
    (∃ rest, log = before ++ .answered id answer :: rest) ∨
      log = before ∧ e = .answered id answer := by
  cases after using List.reverseRecOn with
  | nil =>
    obtain ⟨hlog, he⟩ := List.append_inj' h rfl
    exact .inr ⟨hlog, List.head_eq_of_cons_eq he⟩
  | append_singleton after e' _ =>
    rw [← List.cons_append, ← List.append_assoc] at h
    exact .inl ⟨after, (List.append_inj' h rfl).1⟩

/-- An event that issues nothing leaves what is said of the handles, if the table follows it. -/
theorem Invocation.Sound.frame (hs : s.Sound) {table : HandleTable Html}
    (hnext : table.next = s.table.next) (hissued : issued [e] = [])
    (hget : ∀ id, table.get id = heldAfter id (s.table.get id) e)
    (hanswer : ∀ id answer, e = .answered id answer → answer = s.table.get id) :
    (⟨table, s.log ++ [e]⟩ : Invocation Html).Sound := by
  have hsame : issued (s.log ++ [e]) = issued s.log := by
    rw [issued_append, hissued, List.append_nil]
  refine ⟨?_, ?_, ?_, fun id => ?_, fun before id answer after h => ?_⟩
  · rw [hsame, hnext]
    exact hs.counted
  · rw [hsame, hnext]
    exact hs.bounded
  · rw [hsame]
    exact hs.nodup
  · rw [hget, held_concat, hs.held]
  · rcases answered_concat h with ⟨rest, hrest⟩ | ⟨rfl, he⟩
    · exact hs.answered before id answer rest hrest
    · exact ⟨hs.nodup, (hanswer id answer he).trans (hs.held id)⟩

/-- An insertion short of the last number issues the next one. -/
theorem Invocation.Sound.insert (hs : s.Sound) (resource : Resource Html)
    (hroom : s.table.next.toInt + 1 < 2 ^ 31) : (s.act (.insert resource)).Sound := by
  have hnext := toInt_add_one hroom
  have hissued : issued (s.log ++ [.issued (s.table.next + 1) resource]) =
      issued s.log ++ [s.table.next + 1] := by
    rw [issued_append]
    rfl
  have hnonneg : 0 ≤ s.table.next.toInt := by
    rw [hs.counted]
    exact Int.natCast_nonneg _
  refine ⟨?_, fun id hid => ?_, ?_, fun id => ?_, fun before id answer after h => ?_⟩
  · change (s.table.next + 1).toInt = _
    simp only [Invocation.act, HandleTable.insert, hissued, hnext, hs.counted, List.length_append,
      List.length_singleton, Nat.cast_add, Nat.cast_one]
  · change id ∈ issued (s.log ++ [.issued (s.table.next + 1) resource]) at hid
    change 0 < id.toInt ∧ id.toInt ≤ (s.table.next + 1).toInt
    rw [hissued, List.mem_append, List.mem_singleton] at hid
    rw [hnext]
    rcases hid with hid | rfl
    · have := hs.bounded id hid
      omega
    · omega
  · change (issued (s.log ++ [.issued (s.table.next + 1) resource])).Nodup
    rw [hissued]
    refine List.nodup_append.mpr ⟨hs.nodup, List.nodup_singleton _, fun id hid _ hlast heq => ?_⟩
    rw [List.mem_singleton] at hlast
    have := (hs.bounded id hid).2
    rw [heq, hlast] at this
    omega
  · change Function.update s.table.entries (s.table.next + 1) (some resource) id =
      Runtime.held (s.log ++ [.issued (s.table.next + 1) resource]) id
    rw [held_concat, heldAfter, ← hs.held, Function.update_apply]
    by_cases hid : id = s.table.next + 1
    · rw [if_pos hid, if_pos hid.symm]
    · rw [if_neg hid, if_neg (Ne.symm hid)]
      rfl
  · rcases answered_concat h with ⟨rest, hrest⟩ | ⟨-, he⟩
    · exact hs.answered before id answer rest hrest
    · cases he

theorem Invocation.Sound.act (hs : s.Sound) (op : TableOp Html)
    (hroom : op.isInsert = true → s.table.next.toInt + 1 < 2 ^ 31) : (s.act op).Sound := by
  cases op with
  | insert resource => exact hs.insert resource (hroom rfl)
  | lookup id =>
    refine hs.frame rfl rfl (fun _ => rfl) fun id' answer he => ?_
    obtain ⟨rfl, rfl⟩ := TableEvent.answered.inj he
    rfl
  | modify id f =>
    refine hs.frame rfl rfl (fun id' => ?_) fun _ _ he => by cases he
    change Function.update s.table.entries id ((s.table.entries id).map f) id' = _
    rw [Function.update_apply, heldAfter]
    by_cases h : id' = id
    · rw [if_pos h, if_pos h.symm, h]
      rfl
    · rw [if_neg h, if_neg (Ne.symm h)]
      rfl
  | remove id =>
    refine hs.frame rfl rfl (fun id' => ?_) fun _ _ he => by cases he
    change Function.update s.table.entries id none id' = _
    rw [Function.update_apply, heldAfter]
    by_cases h : id' = id
    · rw [if_pos h, if_pos h.symm]
    · rw [if_neg h, if_neg (Ne.symm h)]
      rfl

/-- As many handles are issued as insertions are made. -/
@[simp] theorem length_issued_invoke (ops : List (TableOp Html)) :
    (issued (invoke ops).log).length = insertions ops := by
  induction ops using List.reverseRecOn with
  | nil => rfl
  | append_singleton ops op ih =>
    rw [invoke, List.foldl_append, insertions, List.countP_append, ← insertions, ← ih]
    cases op <;>
      simp [invoke, Invocation.act, HandleTable.insert, issued, TableOp.isInsert]

theorem sound_invoke (hfew : insertions ops < 2 ^ 31) : (invoke ops).Sound := by
  induction ops using List.reverseRecOn with
  | nil => exact sound_new
  | append_singleton ops op ih =>
    rw [insertions, List.countP_append] at hfew
    have hs := ih (by rw [insertions]; omega)
    rw [invoke, List.foldl_append]
    refine hs.act op fun hinsert => ?_
    rw [List.countP_singleton, if_pos hinsert] at hfew
    rw [hs.counted, length_issued_invoke, insertions]
    omega

/-- What a lookup is answered when the history is this: the resource of a live handle, and nothing
under a handle that is not live. -/
structure Resolves (log : List (TableEvent Html)) (id : Int32) (answer : Option (Resource Html)) :
    Prop where
  live : ∀ resource, answer = some resource ↔ Live log id resource
  dead : Dead log id → answer = none

theorem resolves_held {id : Int32} (hnodup : (issued log).Nodup) :
    Resolves log id (held log id) where
  live _ := held_eq_some_iff hnodup
  dead hdead := by
    cases hheld : held log id with
    | none => rfl
    | some resource => exact absurd (live_of_held hheld) (not_live_of_dead hnodup hdead)

/-- Short of `2 ^ 31` insertions the handles are positive and each is issued once, and every lookup,
under whatever handle, is answered as the history before it says. -/
theorem invoke_answers (hfew : insertions ops < 2 ^ 31) :
    (issued (invoke ops).log).length = insertions ops ∧
    (issued (invoke ops).log).Nodup ∧ (∀ id ∈ issued (invoke ops).log, 0 < id) ∧
    (∀ id, Resolves (invoke ops).log id ((invoke ops).table.get id)) ∧
    ∀ before id answer after, (invoke ops).log = before ++ .answered id answer :: after →
      Resolves before id answer := by
  have hs := sound_invoke hfew
  refine ⟨length_issued_invoke ops, hs.nodup, fun id hid => ?_, fun id => ?_,
    fun before id answer after h => ?_⟩
  · exact Int32.lt_iff_toInt_lt.mpr (hs.bounded id hid).1
  · rw [hs.held]
    exact resolves_held hs.nodup
  · obtain ⟨hnodup, hanswer⟩ := hs.answered before id answer after h
    rw [hanswer]
    exact resolves_held hnodup

/-- A byte is put behind a buffer. -/
def longer : Resource Unit → Resource Unit
  | .buffer bytes => .buffer (bytes ++ [3])
  | resource => resource

/-- A guest that releases a buffer and goes on using its handle beside another. -/
def staleGuest : List (TableOp Unit) :=
  [.insert (.buffer [1]), .remove 1, .insert (.buffer [2]), .modify 2 longer, .modify 1 longer,
    .lookup 1, .lookup 2, .lookup (-5)]

theorem staleGuest_answers : (invoke staleGuest).table.get 2 = some (.buffer [2, 3]) ∧
    (invoke staleGuest).table.get 1 = none ∧ (invoke staleGuest).table.get (-5) = none := by
  obtain ⟨-, -, -, hanswers, -⟩ := @invoke_answers Unit staleGuest (by decide)
  refine ⟨((hanswers 2).live _).mpr ?_, (hanswers 1).dead (.inr ?_), (hanswers (-5)).dead (.inl ?_)⟩
  · exact ⟨[.issued 1 (.buffer [1]), .removed 1], .buffer [2], [.modified 2 longer,
      .modified 1 longer, .answered 1 none, .answered 2 (some (.buffer [2, 3])),
      .answered (-5) none], rfl, by simp, rfl⟩
  · exact ⟨[], .buffer [1], [.removed 1, .issued 2 (.buffer [2]), .modified 2 longer,
      .modified 1 longer, .answered 1 none, .answered 2 (some (.buffer [2, 3])),
      .answered (-5) none], rfl, by simp⟩
  · change (-5 : Int32) ∉ [(1 : Int32), 2]
    decide

end Invariant

section Accessors
variable {t : HandleTable Html} {id : Int32}

namespace HandleTable

theorem buffer_eq_some {bytes : Bytes} :
    t.buffer id = some bytes ↔ t.get id = some (.buffer bytes) := by
  unfold buffer get
  split <;> simp_all

theorem node_eq_some {html : Html} {node : ℕ} :
    t.node id = some (html, node) ↔ t.get id = some (.node html node) := by
  unfold HandleTable.node get
  split <;> simp_all

theorem request_eq_some {r : HeldRequest} :
    t.request id = some r ↔ t.get id = some (.request r) := by
  unfold request get
  split <;> simp_all

/-- The table under handles that are integers. -/
def toResourceTable (t : HandleTable Html) : ResourceTable Html where
  entries id := if -2 ^ 31 ≤ id ∧ id < 2 ^ 31 then t.entries (Int32.ofInt id) else none
  next := t.next.toInt

@[simp] theorem toResourceTable_entries (t : HandleTable Html) (id : Int32) :
    t.toResourceTable.entries id.toInt = t.get id := by
  change (if _ then _ else _) = _
  rw [if_pos ⟨id.le_toInt, id.toInt_lt⟩, Int32.ofInt_toInt]
  rfl

@[simp] theorem toResourceTable_request (t : HandleTable Html) (id : Int32) :
    t.toResourceTable.request id.toInt = t.request id := by
  rw [ResourceTable.request, toResourceTable_entries]
  rfl

/-- An update under a handle is one under its number. -/
theorem entries_update (t : HandleTable Html) (id : Int32) (held : Option (Resource Html)) (n : ℤ) :
    (if -2 ^ 31 ≤ n ∧ n < 2 ^ 31 then Function.update t.entries id held (Int32.ofInt n) else none) =
      Function.update t.toResourceTable.entries id.toInt held n := by
  by_cases hn : -2 ^ 31 ≤ n ∧ n < 2 ^ 31
  · have hid : Int32.ofInt n = id ↔ n = id.toInt := by
      rw [← Int32.toInt_inj, Int32.toInt_ofInt_of_le hn.1 hn.2]
    rw [if_pos hn, Function.update_apply, Function.update_apply]
    refine if_congr hid rfl ?_
    change _ = if _ then _ else _
    rw [if_pos hn]
  · have hne : n ≠ id.toInt := fun h => hn (h ▸ ⟨id.le_toInt, id.toInt_lt⟩)
    rw [if_neg hn, Function.update_of_ne hne]
    exact (if_neg hn).symm

/-- Short of the last number the table of 32 bits does what the one over integers does. -/
theorem toResourceTable_insert (resource : Resource Html) (hroom : t.next.toInt + 1 < 2 ^ 31) :
    (t.insert resource).1.toResourceTable = (t.toResourceTable.insert resource).1 ∧
      (t.insert resource).2.toInt = (t.toResourceTable.insert resource).2 := by
  have hnext := toInt_add_one hroom
  refine ⟨?_, hnext⟩
  rw [ResourceTable.insert, ResourceTable.set, toResourceTable, ResourceTable.mk.injEq]
  refine ⟨funext fun n => ?_, hnext⟩
  rw [show t.toResourceTable.next + 1 = (t.next + 1).toInt from hnext.symm]
  exact t.entries_update _ _ n

/-- A response is written through the handle. -/
theorem toResourceTable_respond (response : Response) :
    (t.modifyRequest id fun r => { r with response := some response }).toResourceTable =
      t.toResourceTable.respond id.toInt response := by
  have hmodify : ∀ held, (t.get id).map (fun
      | .request r => .request { r with response := some response }
      | resource => resource) = held →
      (t.modifyRequest id fun r => { r with response := some response }).toResourceTable =
        ⟨Function.update t.toResourceTable.entries id.toInt held, t.next.toInt⟩ := by
    rintro held rfl
    rw [toResourceTable, ResourceTable.mk.injEq]
    exact ⟨funext fun n => t.entries_update _ _ n, rfl⟩
  rw [ResourceTable.respond, toResourceTable_request]
  cases hrequest : t.request id with
  | some r =>
    rw [hmodify (some (.request { r with response := some response }))
      (by rw [request_eq_some.mp hrequest]; rfl)]
    rfl
  | none =>
    have hsame : (t.get id).map (fun
        | .request r => .request { r with response := some response }
        | resource => resource) = t.get id := by
      cases hget : t.get id with
      | none => rfl
      | some resource =>
        cases resource with
        | request r =>
          rw [request_eq_some.mpr hget] at hrequest
          cases hrequest
        | buffer | node | nodeList => rfl
    rw [hmodify _ hsame, ← toResourceTable_entries, Function.update_eq_self]
    rfl

end HandleTable

end Accessors

end Runtime
end Nyuka
