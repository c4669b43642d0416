import Nyuka.Domain.Sources
import Nyuka.Foundation.Runs
import Nyuka.Runtime.Dates
import Nyuka.Runtime.Defaults
import Nyuka.Runtime.Html
import Nyuka.Runtime.SendAll

/-! The host imports that a source links against, as calls on the state of its invocation: each
reads its arguments out of guest memory, and answers with a number or a handle. -/
namespace Nyuka
namespace Runtime
variable {σ Doc : Type}

def NetError.invalidString : ℤ := -2

namespace ResourceTable
variable {Html : Type}

/-- Releases a handle. Unknown handles are ignored. -/
def remove (t : ResourceTable Html) (id : ℤ) : ResourceTable Html :=
  { t with entries := Function.update t.entries id none }

/-- A buffer, if that is what the handle refers to. -/
def buffer (t : ResourceTable Html) (id : ℤ) : Option Bytes :=
  match t.entries id with
  | some (.buffer bytes) => some bytes
  | _ => none

/-- A node, if that is what the handle refers to. -/
def node (t : ResourceTable Html) (id : ℤ) : Option (Html × ℕ) :=
  match t.entries id with
  | some (.node html id) => some (html, id)
  | _ => none

end ResourceTable

/-- What the imports call, and whether sums are checked for overflow. -/
structure Imports (σ Doc : Type) where
  defaults : Defaults σ
  client : Client
  lib : Libraries
  join : Url → String → Option Url
  chrono : Chrono
  dom : DomQuery Doc
  checks : Bool

/-- What the host imports operate on, with the guest's memory. Handles share documents, which are
numbered in the order they were parsed. -/
structure HostState (σ Doc : Type) where
  memory : Option Memory
  table : ResourceTable ℕ
  documents : List (Html Doc)
  defaults : σ
  declaredRateLimit : Option RateLimit
  partialResults : List Bytes
  logs : List String

/-- What a call leaves, and what it answers if it answers anything. -/
abbrev CallResult (σ Doc : Type) := HostState σ Doc × Option ℤ

/-- `HostState::new` -/
def HostState.new (memory : Option Memory) (defaults : σ) : HostState σ Doc :=
  ⟨memory, .empty, [], defaults, none, [], []⟩

/-- `as i32` of a length. -/
def lengthI32 (n : ℕ) : ℤ := (n : ℤ).bmod (2 ^ 32)

namespace HostState
variable (env : Imports σ Doc) (s : HostState σ Doc)

def readStr (p l : Int32) : Option String := Runtime.readStr s.memory p l

/-- Writes bytes into guest memory, as many as there is space offered for. -/
def writeBytes (ptr len : Int32) (bytes : Bytes) : Option (HostState σ Doc) :=
  (s.memory.bind fun m => m.write (asUsize ptr.toInt) (bytes.take len.toInt.toNat)).map fun m =>
    { s with memory := some m }

/-- Stores a resource and answers with its handle. -/
def put (resource : Resource ℕ) : CallResult σ Doc :=
  ({ s with table := (s.table.insert resource).1 }, some (s.table.insert resource).2)

def putBytes (bytes : Bytes) : CallResult σ Doc := s.put (.buffer bytes)

def putString (text : String) : CallResult σ Doc := s.putBytes (Text.utf8 text.toList)

/-- A document of its own, of which the root is answered. -/
def putDocument (html : Html Doc) : CallResult σ Doc :=
  put { s with documents := s.documents ++ [html] }
    (.node s.documents.length (html.root env.dom))

/-- The handle's document with its number, and the node. -/
def node (rid : Int32) : Option (ℕ × Html Doc × ℕ) := do
  let (document, id) ← s.table.node rid.toInt
  let html ← s.documents[document]?
  return (document, html, id)

/-- Resolves a node handle, or answers with the descriptor error. -/
def withNode (rid : Int32) (f : ℕ → Html Doc → ℕ → CallResult σ Doc) :
    CallResult σ Doc :=
  match s.node rid with
  | some (document, html, id) => f document html id
  | none => (s, some HtmlError.invalidDescriptor)

/-- Reads a string, or answers with the code for one that cannot be read. -/
def withStr (code : ℤ) (p l : Int32) (f : String → CallResult σ Doc) :
    CallResult σ Doc :=
  match s.readStr p l with
  | some text => f text
  | none => (s, some code)

/-- A handle's request is changed. -/
def editRequest (rid : Int32) (f : HeldRequest → HeldRequest) : CallResult σ Doc :=
  match s.table.request rid.toInt with
  | some r => ({ s with table := s.table.set rid.toInt (.request (f r)) }, some 0)
  | none => (s, some NetError.invalidDescriptor)

/-! `env` and `std` -/

def print (p l : Int32) : CallResult σ Doc :=
  match s.readStr p l with
  | some line => ({ s with logs := s.logs ++ [line] }, none)
  | none => (s, none)

def sendPartialResult (ptr : Int32) : Except Failure (CallResult σ Doc) := do
  match ← readEncoded env.checks s.memory ptr with
  | some bytes => .ok ({ s with partialResults := s.partialResults ++ [bytes] }, none)
  | none => .ok (s, none)

def destroy (rid : Int32) : CallResult σ Doc :=
  ({ s with table := s.table.remove rid.toInt }, none)

def bufferLen (rid : Int32) : CallResult σ Doc :=
  match s.table.buffer rid.toInt with
  | some bytes => (s, some (lengthI32 bytes.length))
  | none => (s, some message)

/-- Zero on success, not the count. -/
def readBuffer (rid ptr len : Int32) : CallResult σ Doc :=
  match s.table.buffer rid.toInt with
  | none => (s, some message)
  | some bytes => match s.writeBytes ptr len bytes with
    | some t => (t, some 0)
    | none => (s, some message)

/-- Text that cannot be read counts as empty. -/
def parseDate (sp sl fp fl tp tl : Int32) : CallResult σ Doc :=
  (s, some (Runtime.parseDate env.chrono ((s.readStr sp sl).getD "") ((s.readStr fp fl).getD "")
    ((s.readStr tp tl).getD "")))

/-! `defaults` -/

def defaultsGet (p l : Int32) : CallResult σ Doc :=
  s.withStr message p l fun key =>
    match env.defaults.get s.defaults key with
    -- unset is a miss, not an error
    | none => (s, some message)
    | some bytes => s.putBytes bytes

def defaultsSet (p l value : Int32) : Except Failure (CallResult σ Doc) :=
  match s.readStr p l with
  | none => .ok (s, some message)
  | some key =>
    if value = 0 then
      .ok ({ s with defaults := env.defaults.remove s.defaults key }, some 0)
    else do
      match ← readEncoded env.checks s.memory value with
      | none => .ok (s, some message)
      | some bytes =>
        .ok ({ s with defaults := env.defaults.set s.defaults key bytes }, some 0)

/-! `net` -/

def init (method : Int32) : CallResult σ Doc :=
  s.put (.request ⟨⟨method.toInt, none, [], none⟩, none⟩)

def setUrl (rid p l : Int32) : CallResult σ Doc :=
  s.withStr NetError.invalidString p l fun url =>
    s.editRequest rid fun r => { r with url := some url }

def setHeader (rid kp kl vp vl : Int32) : CallResult σ Doc :=
  s.withStr NetError.invalidString kp kl fun key =>
    s.withStr NetError.invalidString vp vl fun value =>
      s.editRequest rid fun r => { r with headers := r.headers ++ [(key, value)] }

def setBody (rid p l : Int32) : CallResult σ Doc :=
  s.withStr NetError.invalidString p l fun body =>
    s.editRequest rid fun r => { r with body := some (Text.utf8 body.toList) }

def setRateLimit (permits period unit : Int32) : CallResult σ Doc :=
  ({ s with declaredRateLimit := RateLimit.fromWire permits.toInt period.toInt unit.toInt }, none)

/-- The network is as this request finds it. -/
def send (rid : Int32) (net : Network) : CallResult σ Doc :=
  match s.table.request rid.toInt with
  | none => (s, some NetError.invalidDescriptor)
  | some r => match (Runtime.send env.client env.lib net r.toRequest).2 with
    | .ok response => ({ s with table := s.table.respond rid.toInt response }, some 0)
    | .error code => (s, some code)

/-- The threads that send run through by these actions. -/
def sendAll (ptr len : Int32) (actions : List SendAction) :
    Option (CallResult σ Doc) :=
  (Runtime.sendAll env.client env.lib s.memory s.table ptr len actions).map fun left =>
    ({ s with memory := left.memory, table := left.table }, some left.value)

/-- The response of a handle's request. -/
def response (rid : Int32) : Option Response :=
  (s.table.request rid.toInt).bind HeldRequest.response

def dataLen (rid : Int32) : CallResult σ Doc :=
  match s.response rid with
  | some response => (s, some (lengthI32 response.body.length))
  | none => (s, some NetError.notSent)

def readData (rid ptr len : Int32) : CallResult σ Doc :=
  match s.response rid with
  | none => (s, some NetError.notSent)
  | some response => match s.writeBytes ptr len response.body with
    | some t => (t, some 0)
    | none => (s, some NetError.failed)

def getStatusCode (rid : Int32) : CallResult σ Doc :=
  match s.response rid with
  | some response => (s, some response.status.toNat)
  | none => (s, some NetError.notSent)

def getUrl (rid : Int32) : CallResult σ Doc :=
  match (s.response rid).bind Response.finalUrl with
  | some url => s.putString url
  | none => (s, some NetError.notSent)

/-- `eq_ignore_ascii_case` -/
def sameName (a b : String) : Bool := a.toList.map Char.toLower = b.toList.map Char.toLower

def header (response : Response) (key : String) : Option String :=
  (response.headers.find? fun entry => sameName entry.1 key).map Prod.snd

def getHeader (rid kp kl : Int32) : CallResult σ Doc :=
  s.withStr NetError.invalidString kp kl fun key =>
    match (s.response rid).bind fun response => header response key with
    | some value => s.putString value
    | none => (s, some NetError.notSent)

/-- The base is the URL the response came from. -/
def netHtml (rid : Int32) : CallResult σ Doc :=
  match s.response rid with
  | none => (s, some NetError.notSent)
  | some response => s.putDocument env
      (.parse env.dom (Text.fromUtf8Lossy response.body) response.finalUrl false)

/-! `html` -/

/-- `html::parse`, and `html::parse_fragment`. -/
def parseInto (fragment : Bool) (p l bp bl : Int32) : CallResult σ Doc :=
  s.withStr HtmlError.invalidString p l fun markup =>
    s.putDocument env (.parse env.dom markup (s.readStr bp bl) fragment)

def select (rid p l : Int32) : CallResult σ Doc :=
  s.withStr HtmlError.invalidString p l fun selector =>
    s.withNode rid fun document html id =>
      match html.select env.dom id selector with
      | .ok ids => s.put (.nodeList document ids)
      | .error code => (s, some code)

def selectFirst (rid p l : Int32) : CallResult σ Doc :=
  s.withStr HtmlError.invalidString p l fun selector =>
    s.withNode rid fun document html id =>
      match html.selectFirst env.dom id selector with
      | .ok found => s.put (.node document found)
      | .error code => (s, some code)

def size (rid : Int32) : CallResult σ Doc :=
  match s.table.entries rid.toInt with
  | some (.nodeList _ ids) => (s, some (lengthI32 ids.length))
  | some (.node _ _) => (s, some 1)
  | _ => (s, some HtmlError.invalidDescriptor)

/-- A node that was picked out of a document, if any was. -/
def putPicked (document : ℕ) : Option ℕ → CallResult σ Doc
  | some id => s.put (.node document id)
  | none => (s, some HtmlError.noResult)

def get (rid idx : Int32) : CallResult σ Doc :=
  match s.table.entries rid.toInt with
  | some (.nodeList document ids) => s.putPicked document ids[idx.toInt.toNat]?
  | _ => (s, some HtmlError.invalidDescriptor)

def attr (rid p l : Int32) : CallResult σ Doc :=
  s.withStr HtmlError.invalidString p l fun key =>
    s.withNode rid fun _ html id =>
      match html.attr env.dom env.lib env.join id key with
      | .ok value => s.putString value
      | .error code => (s, some code)

end HostState

/-- The text-returning accessors differ only in which function they call. -/
inductive TextAccessor where
  | text | ownText | untrimmedText | html | outerHtml
deriving DecidableEq, Repr

def TextAccessor.read (dom : DomQuery Doc) : TextAccessor → Html Doc → ℕ → String
  | text => Html.text dom
  | ownText => Html.ownText dom
  | untrimmedText => Html.untrimmedText dom
  | html => Html.outerHtml dom
  | outerHtml => Html.outerHtml dom

/-- Accessors returning an optional string. -/
inductive OptStringAccessor where
  | data | tagName | id | className
deriving DecidableEq, Repr

def OptStringAccessor.read (dom : DomQuery Doc) :
    OptStringAccessor → Html Doc → ℕ → Option String
  | data => Html.data dom
  | tagName => Html.tagName dom
  | id => Html.elementId dom
  | className => Html.className dom

/-- Traversal, each returning a node handle or a miss. -/
inductive NodeAccessor where
  | parent | next | previous | last
deriving DecidableEq, Repr

def NodeAccessor.read (dom : DomQuery Doc) : NodeAccessor → Html Doc → ℕ → Option ℕ
  | parent => Html.parent dom
  | next => Html.nextSibling dom
  | previous => Html.prevSibling dom
  | last => Html.lastChild dom

/-- Node lists. -/
inductive ListAccessor where
  | children | childNodes | siblings
deriving DecidableEq, Repr

def ListAccessor.read (dom : DomQuery Doc) : ListAccessor → Html Doc → ℕ → List ℕ
  | children => Html.children dom
  | childNodes => Html.children dom
  | siblings => Html.siblings dom

/-- Predicates of a node and a name. -/
inductive NodePredicate where
  | hasAttr | hasClass
deriving DecidableEq, Repr

def NodePredicate.test (dom : DomQuery Doc) : NodePredicate → Html Doc → ℕ → String → Bool
  | hasAttr => Html.hasAttr dom
  | hasClass => Html.hasClass dom

/-- Mutation taking one string argument. -/
inductive Mutation where
  | addClass | removeClass | removeAttr | append | prepend | setText | setHtml
deriving DecidableEq, Repr

def Mutation.apply (dom : DomQuery Doc) : Mutation → Html Doc → ℕ → String → Html Doc
  | addClass => Html.addClass dom
  | removeClass => Html.removeClass dom
  | removeAttr => Html.removeAttr dom
  | append => Html.append dom
  | prepend => Html.prepend dom
  | setText => Html.setText dom
  | setHtml => Html.setHtml dom

namespace HostState
variable (env : Imports σ Doc) (s : HostState σ Doc)

def textAccessor (f : TextAccessor) (rid : Int32) : CallResult σ Doc :=
  s.withNode rid fun _ html id => s.putString (f.read env.dom html id)

def optStringAccessor (f : OptStringAccessor) (rid : Int32) : CallResult σ Doc :=
  s.withNode rid fun _ html id =>
    match f.read env.dom html id with
    | some value => s.putString value
    | none => (s, some HtmlError.noResult)

/-- A list answers before the node table is consulted. -/
def kind (rid : Int32) : CallResult σ Doc :=
  match s.table.entries rid.toInt with
  | some (.nodeList _ _) => (s, some Kind.elementList)
  | _ => s.withNode rid fun _ html id => (s, some (html.nodeKind env.dom id))

def nodeAccessor (f : NodeAccessor) (rid : Int32) : CallResult σ Doc :=
  s.withNode rid fun document html id => s.putPicked document (f.read env.dom html id)

/-- The first entry of a selection, or the first element child of a node. -/
def first (rid : Int32) : CallResult σ Doc :=
  match s.table.entries rid.toInt with
  | some (.nodeList document ids) => s.putPicked document ids.head?
  | _ => s.withNode rid fun document html id =>
    s.putPicked document (html.firstChild env.dom id)

def listAccessor (f : ListAccessor) (rid : Int32) : CallResult σ Doc :=
  s.withNode rid fun document html id => s.put (.nodeList document (f.read env.dom html id))

def nodePredicate (f : NodePredicate) (rid p l : Int32) : CallResult σ Doc :=
  s.withStr HtmlError.invalidString p l fun name =>
    s.withNode rid fun _ html id =>
      (s, some (if f.test env.dom html id name then 1 else 0))

/-- What is made of a document in place. -/
def putHtml (document : ℕ) (html : Html Doc) : CallResult σ Doc :=
  ({ s with documents := s.documents.set document html }, some 0)

def mutateWithString (f : Mutation) (rid p l : Int32) : CallResult σ Doc :=
  s.withStr HtmlError.invalidString p l fun arg =>
    s.withNode rid fun document html id => s.putHtml document (f.apply env.dom html id arg)

def setAttr (rid kp kl vp vl : Int32) : CallResult σ Doc :=
  s.withStr HtmlError.invalidString kp kl fun name =>
    s.withStr HtmlError.invalidString vp vl fun value =>
      s.withNode rid fun document html id =>
        s.putHtml document (html.setAttr env.dom id name value)

/-- Detaches the node; its handle stays valid. -/
def remove (rid : Int32) : CallResult σ Doc :=
  s.withNode rid fun document html id => s.putHtml document (html.remove env.dom id)

def escape (p l : Int32) : CallResult σ Doc :=
  s.withStr HtmlError.invalidString p l fun text => s.putString (Html.escape text)

def unescape (p l : Int32) : CallResult σ Doc :=
  s.withStr HtmlError.invalidString p l fun text => s.putString (Html.unescape env.dom text)

def baseUri (rid : Int32) : CallResult σ Doc :=
  s.withNode rid fun _ html id =>
    match html.baseUri env.dom id with
    | some base => s.putString base
    | none => (s, some HtmlError.noResult)

end HostState

/-- A call of an import, with what the network answers it. -/
inductive HostCall where
  | print (p l : Int32)
  | abort
  | sleep (seconds : Int32)
  | sendPartialResult (ptr : Int32)
  | destroy (rid : Int32)
  | bufferLen (rid : Int32)
  | readBuffer (rid ptr len : Int32)
  | utcOffset
  | parseDate (sp sl fp fl tp tl : Int32)
  | defaultsGet (p l : Int32)
  | defaultsSet (p l value : Int32)
  | init (method : Int32)
  | setUrl (rid p l : Int32)
  | setHeader (rid kp kl vp vl : Int32)
  | setBody (rid p l : Int32)
  | setTimeout (rid : Int32)
  | setRateLimit (permits period unit : Int32)
  | send (rid : Int32) (net : Network)
  | sendAll (ptr len : Int32) (actions : List SendAction)
  | dataLen (rid : Int32)
  | readData (rid ptr len : Int32)
  | getStatusCode (rid : Int32)
  | getUrl (rid : Int32)
  | getHeader (rid kp kl : Int32)
  | netHtml (rid : Int32)
  | parse (fragment : Bool) (p l bp bl : Int32)
  | select (rid p l : Int32)
  | selectFirst (rid p l : Int32)
  | size (rid : Int32)
  | get (rid idx : Int32)
  | attr (rid p l : Int32)
  | textAccessor (f : TextAccessor) (rid : Int32)
  | optStringAccessor (f : OptStringAccessor) (rid : Int32)
  | kind (rid : Int32)
  | nodeAccessor (f : NodeAccessor) (rid : Int32)
  | first (rid : Int32)
  | listAccessor (f : ListAccessor) (rid : Int32)
  | nodePredicate (f : NodePredicate) (rid p l : Int32)
  | mutateWithString (f : Mutation) (rid p l : Int32)
  | setAttr (rid kp kl vp vl : Int32)
  | remove (rid : Int32)
  | escape (p l : Int32)
  | unescape (p l : Int32)
  | baseUri (rid : Int32)

/-- What a call leaves and answers. A call that panics ends the run. -/
def HostState.call (env : Imports σ Doc) (s : HostState σ Doc) :
    HostCall → Option (CallResult σ Doc)
  | .print p l => some (s.print p l)
  | .abort => some (s, none)
  | .sleep _ => some (s, none)
  | .sendPartialResult ptr => (s.sendPartialResult env ptr).toOption
  | .destroy rid => some (s.destroy rid)
  | .bufferLen rid => some (s.bufferLen rid)
  | .readBuffer rid ptr len => some (s.readBuffer rid ptr len)
  | .utcOffset => some (s, some 0)
  | .parseDate sp sl fp fl tp tl => some (s.parseDate env sp sl fp fl tp tl)
  | .defaultsGet p l => some (s.defaultsGet env p l)
  | .defaultsSet p l value => (s.defaultsSet env p l value).toOption
  | .init method => some (s.init method)
  | .setUrl rid p l => some (s.setUrl rid p l)
  | .setHeader rid kp kl vp vl => some (s.setHeader rid kp kl vp vl)
  | .setBody rid p l => some (s.setBody rid p l)
  -- the client's timeout is the operator's, not the source's
  | .setTimeout _ => some (s, some 0)
  | .setRateLimit permits period unit => some (s.setRateLimit permits period unit)
  | .send rid net => some (s.send env rid net)
  | .sendAll ptr len actions => s.sendAll env ptr len actions
  | .dataLen rid => some (s.dataLen rid)
  | .readData rid ptr len => some (s.readData rid ptr len)
  | .getStatusCode rid => some (s.getStatusCode rid)
  | .getUrl rid => some (s.getUrl rid)
  | .getHeader rid kp kl => some (s.getHeader rid kp kl)
  | .netHtml rid => some (s.netHtml env rid)
  | .parse fragment p l bp bl => some (s.parseInto env fragment p l bp bl)
  | .select rid p l => some (s.select env rid p l)
  | .selectFirst rid p l => some (s.selectFirst env rid p l)
  | .size rid => some (s.size rid)
  | .get rid idx => some (s.get rid idx)
  | .attr rid p l => some (s.attr env rid p l)
  | .textAccessor f rid => some (s.textAccessor env f rid)
  | .optStringAccessor f rid => some (s.optStringAccessor env f rid)
  | .kind rid => some (s.kind env rid)
  | .nodeAccessor f rid => some (s.nodeAccessor env f rid)
  | .first rid => some (s.first env rid)
  | .listAccessor f rid => some (s.listAccessor env f rid)
  | .nodePredicate f rid p l => some (s.nodePredicate env f rid p l)
  | .mutateWithString f rid p l => some (s.mutateWithString env f rid p l)
  | .setAttr rid kp kl vp vl => some (s.setAttr env rid kp kl vp vl)
  | .remove rid => some (s.remove env rid)
  | .escape p l => some (s.escape p l)
  | .unescape p l => some (s.unescape env p l)
  | .baseUri rid => some (s.baseUri env rid)

/-- What a guest does: it calls an import, or writes or grows its own memory. -/
inductive GuestStep where
  | call (c : HostCall)
  | store (offset : ℕ) (bytes : Bytes)
  | grow (count : ℕ)

/-- Handles are 32 bits wide: a run is followed for as long as they suffice. -/
def HostState.step (env : Imports σ Doc) (s : HostState σ Doc) :
    GuestStep → Option (HostState σ Doc)
  | .call c => ((s.call env c).filter fun result => result.1.table.next < 2 ^ 31).map Prod.fst
  | .store offset bytes =>
    (s.memory.bind fun m => m.write offset bytes).map fun m => { s with memory := some m }
  | .grow count => s.memory.map fun m => { s with memory := some (m ++ List.replicate count 0) }

theorem HostState.of_step_call {env : Imports σ Doc} {s t : HostState σ Doc} {c : HostCall}
    (h : s.step env (.call c) = some t) : ∃ answer, s.call env c = some (t, answer) := by
  obtain ⟨⟨t, answer⟩, hcall, rfl⟩ := Option.map_eq_some_iff.mp h
  exact ⟨answer, (Option.filter_eq_some_iff.mp hcall).1⟩

end Runtime
end Nyuka
