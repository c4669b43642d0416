import Nyuka.Domain.Model
import Mathlib.Logic.Function.Basic

/-! The session store: rows keyed by the id in the browser's cookie, each with the whole of a
session's data, and the session object through which a request loads, changes and saves it. -/
namespace Nyuka
namespace Auth

/-- The id a cookie carries. -/
structure SessionId where
  raw : ℤ
deriving DecidableEq, Repr

structure UserId where
  uuid : Uuid
deriving DecidableEq, Repr

/-- The values handlers keep in a session. -/
inductive Value where
  | null
  | string (s : String)
deriving DecidableEq, Repr

/-- The data of a session, a map from keys to values. -/
structure Data where
  entries : List (String × Value)
deriving DecidableEq, Repr

namespace Data

def empty : Data := ⟨[]⟩

def isEmpty (data : Data) : Bool := data.entries.isEmpty

def get (data : Data) (key : String) : Option Value :=
  (data.entries.find? fun e => e.1 = key).map Prod.snd

def remove (data : Data) (key : String) : Data := ⟨data.entries.filter fun e => e.1 ≠ key⟩

def insert (data : Data) (key : String) (value : Value) : Data :=
  ⟨(key, value) :: (data.remove key).entries⟩

/-- What a handler reads as a string under a key. A value that is no string is an error. -/
def read (data : Data) (key : String) : Except Unit (Option String) :=
  match data.get key with
  | none => .ok none
  | some (.string s) => .ok (some s)
  | some .null => .error ()

variable (data : Data) (value : Value) {key other : String}

@[simp] theorem get_empty (key : String) : empty.get key = none := rfl

@[simp] theorem get_remove_self (key : String) : (data.remove key).get key = none := by
  have hnone : (data.entries.filter fun e => e.1 ≠ key).find? (fun e => e.1 = key) = none := by
    rw [List.find?_eq_none]
    intro e he
    simpa using (List.mem_filter.mp he).2
  rw [get, remove, hnone]
  rfl

theorem get_remove_of_ne (h : other ≠ key) : (data.remove key).get other = data.get other := by
  have hsame : (data.entries.filter fun e => e.1 ≠ key).find? (fun e => e.1 = other) =
      data.entries.find? fun e => e.1 = other := by
    rw [List.find?_filter]
    congr 1
    funext e
    by_cases he : e.1 = other <;> simp [he, h]
  rw [get, remove, hsame, get]

@[simp] theorem get_insert_self (key : String) : (data.insert key value).get key = some value := by
  simp [get, insert]

theorem get_insert_of_ne (h : other ≠ key) :
    (data.insert key value).get other = data.get other := by
  have hhead : decide (key = other) = false := decide_eq_false fun heq => h heq.symm
  rw [← get_remove_of_ne data h, get, insert, List.find?_cons, hhead, get]

end Data

/-- The key under which the authenticated user's id is kept. -/
def userIdKey : String := "user_id"

/-- The user a session names. -/
def Data.user (data : Data) : Option Uuid :=
  match data.get userIdKey with
  | some (.string s) => Uuid.parse s
  | _ => none

/-- One stored session. The data is encoded; what is decoded is what was encoded. -/
structure SessionRecord where
  id : SessionId
  userId : Option Uuid
  data : Data
  expiresAt : Time

abbrev SessionTable := SessionId → Option SessionRecord

namespace SessionTable

/-- Inserts or replaces a session. -/
def save (rows : SessionTable) (record : SessionRecord) : SessionTable :=
  Function.update rows record.id (some record)

/-- Loads a session, treating an expired one as absent. -/
def load (rows : SessionTable) (id : SessionId) (now : Time) : Option SessionRecord :=
  (rows id).filter fun record => now < record.expiresAt

def delete (rows : SessionTable) (id : SessionId) : SessionTable := Function.update rows id none

def deleteForUser (rows : SessionTable) (user : Uuid) : SessionTable :=
  fun id => (rows id).filter fun record => record.userId ≠ some user

def deleteExpired (rows : SessionTable) (now : Time) : SessionTable :=
  fun id => (rows id).filter fun record => now < record.expiresAt

end SessionTable

/-- A session as the session layer handles it. -/
structure Record where
  id : SessionId
  data : Data
  expiryDate : Time
deriving DecidableEq, Repr

namespace Store

def save (rows : SessionTable) (record : Record) : SessionTable :=
  rows.save ⟨record.id, record.data.user, record.data, record.expiryDate⟩

def load (rows : SessionTable) (id : SessionId) (now : Time) : Option Record :=
  (rows.load id now).map fun stored => ⟨id, stored.data, stored.expiresAt⟩

/-- Saves under an id that no session has, which is drawn anew when it has one, three times at
most. -/
def create (rows : SessionTable) (now : Time) : ℕ → List SessionId → Record →
    Option (SessionTable × Record)
  | 0, _, _ => none
  | n + 1, draws, record =>
    match rows.load record.id now with
    | none => some (save rows record, record)
    | some _ =>
      match draws with
      | [] => none
      | id :: draws => create rows now n draws { record with id }

end Store

/-- The session object of one request. It loads its record when the record is first touched, and
has no id while there is no session for it in the store. -/
structure Session where
  sessionId : Option SessionId
  record : Option Record
  isModified : Bool

namespace Session

/-- The session of a request with this cookie. -/
def ofCookie (cookie : Option SessionId) : Session := ⟨cookie, none, false⟩

/-- Loads the record; `fresh` is the id drawn for a new one. -/
def load (session : Session) (rows : SessionTable) (now : Time) (ttl : ℕ) (fresh : SessionId) :
    Session :=
  match session.sessionId.bind fun id => Store.load rows id now with
  | some record => { session with record := some record }
  | none => { session with
      sessionId := none
      record := some ⟨fresh, .empty, now + Time.seconds ttl⟩ }

def data (session : Session) : Data := session.record.elim .empty Record.data

def recordId (session : Session) : Option SessionId := session.record.map Record.id

def update (session : Session) (data : Data) : Session :=
  { session with record := session.record.map fun record => { record with data } }

def insert (session : Session) (key : String) (value : Value) : Session :=
  if session.data.get key = some value then session
  else { session.update (session.data.insert key value) with isModified := true }

def remove (session : Session) (key : String) : Session :=
  { session.update (session.data.remove key) with isModified := true }

/-- Saves the record: under its id, or as a new session. -/
def save (session : Session) (rows : SessionTable) (now : Time) (ttl : ℕ)
    (draws : List SessionId) : Option (SessionTable × Session) :=
  session.record.bind fun record =>
    let record := { record with expiryDate := now + Time.seconds ttl }
    match session.sessionId with
    | some _ => some (Store.save rows record, { session with record := some record })
    | none => (Store.create rows now 3 draws record).map fun created =>
        (created.1, { session with sessionId := some created.2.id, record := some created.2 })

/-- Deletes the stored session and takes a new id for the record. -/
def cycleId (session : Session) (rows : SessionTable) (fresh : SessionId) :
    SessionTable × Session :=
  match session.record with
  | none => (rows, session)
  | some record =>
    (rows.delete record.id,
      { sessionId := none, record := some { record with id := fresh }, isModified := true })

/-- Clears the record and deletes the stored session. -/
def flush (session : Session) (rows : SessionTable) : SessionTable × Session :=
  let cleared := { session.update .empty with isModified := true, sessionId := none }
  (session.sessionId.elim rows rows.delete, cleared)

def isEmpty (session : Session) : Bool := session.sessionId.isNone && session.data.isEmpty

/-- The session layer saves a modified session when the handler has answered, unless the answer is a
fault of the server. -/
def isSaved (session : Session) (status : ℕ) : Bool :=
  session.isModified && !session.isEmpty && status < 500

end Session

end Auth
end Nyuka
