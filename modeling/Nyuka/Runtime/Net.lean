import Nyuka.Runtime.Egress

/-! The clients that source requests, page fetches and registry downloads go out through. -/
namespace Nyuka.Runtime

inductive Method where
  | get | post | put | head | delete
deriving DecidableEq, Repr

def Method.fromWire (value : ℤ) : Option Method :=
  if value = 0 then some get
  else if value = 1 then some post
  else if value = 2 then some put
  else if value = 3 then some head
  else if value = 4 then some delete
  else none

structure Response where
  status : UInt16
  headers : List (String × String)
  body : Bytes
  finalUrl : Option String
deriving DecidableEq, Repr

/-- A request as the guest has built it. -/
structure Request where
  method : ℤ
  url : Option String
  headers : List (String × String)
  body : Option Bytes
deriving Repr

/-! The codes a guest is answered with. -/

/-- `aidoku::MESSAGE` -/
def message : ℤ := -1

namespace NetError

def invalidDescriptor : ℤ := -1

def invalidUrl : ℤ := -3

def invalidMethod : ℤ := -4

def failed : ℤ := -5

def notSent : ℤ := -6

end NetError

structure ClientError where
  text : String
  isConnect : Bool
  isTimeout : Bool
deriving DecidableEq, Repr

/-- A response whose body is yet to be read. -/
structure Reply where
  status : UInt16
  headers : List (String × String)
  contentLength : Option ℕ
  body : Except ClientError Bytes

inductive Exchange where
  | failed (e : ClientError)
  | redirect (location : Url)
  | answered (reply : Reply)

/-- The network as one request finds it. Hops count from 0. -/
structure Network where
  dns : Resolver
  /-- The addresses tried of those a hop may connect to. -/
  dials : ℕ → List SocketAddr → List SocketAddr
  exchange : ℕ → Url → Exchange
  mem_of_dialed : ∀ hop addrs a, a ∈ dials hop addrs → a ∈ addrs
  dials_ne_nil : ∀ hop addrs, addrs ≠ [] → dials hop addrs ≠ []

/-- What the URL and HTTP libraries parse and print. -/
structure Libraries where
  parse : String → Option Url
  header : String × String → Bool
  status : UInt16 → String

structure VettingResolver where
  inner : Resolver

/-- Refuses a name that resolves to an address the policy refuses. -/
def VettingResolver.vetted (r : VettingResolver) (lookup : ℕ) (host : String) (port : UInt16) :
    Except Denial (List SocketAddr) := approve r.inner lookup host port

def Denial.toText : Denial → String
  | .scheme s => s!"scheme not permitted: {s}"
  | .noHost => "url has no host"
  | .unresolved => "host did not resolve"
  | .blocked host reason => s!"egress to {host} blocked: " ++ match reason with
    | .loopback => "Loopback"
    | .private_ => "Private"
    | .linkLocal => "LinkLocal"
    | .cloudMetadata => "CloudMetadata"
    | .unspecified => "Unspecified"
    | .reserved => "Reserved"
    | .multicast => "Multicast"

structure Client where
  resolver : VettingResolver
  /-- How many redirects are followed. -/
  redirects : ℕ

def buildClient (resolver : VettingResolver) : Client := ⟨resolver, 10⟩

def buildAsyncClient (resolver : VettingResolver) : Client := ⟨resolver, 10⟩

namespace Client

/-- What a hop may connect to. The resolver is asked for a name only. -/
def addresses (c : Client) (hop : ℕ) (url : Url) : Except ClientError (List SocketAddr) :=
  match url.host with
  | none => .error ⟨"builder error", false, false⟩
  | some (.ipv4 ip) => .ok [⟨.v4 ip, url.portOrKnownDefault⟩]
  | some (.ipv6 ip) => .ok [⟨.v6 ip, url.portOrKnownDefault⟩]
  | some (.name name) => match c.resolver.vetted hop name 0 with
    | .error denial => .error ⟨denial.toText, true, false⟩
    -- the resolver's port 0 stands for the URL's
    | .ok addrs => .ok (addrs.map fun a => { a with port := url.portOrKnownDefault })

/-- Requests the URL and follows up to `fuel` redirects from it. The addresses connected to are
returned beside the reply and the URL it came from. -/
def follow (c : Client) (net : Network) :
    ℕ → ℕ → Url → List SocketAddr × Except ClientError (Url × Reply)
  | fuel, hop, url =>
    if url.Web then
      match c.addresses hop url with
      | .error e => ([], .error e)
      | .ok addrs =>
        let dialed := net.dials hop addrs
        match net.exchange hop url with
        | .failed e => (dialed, .error e)
        | .answered reply => (dialed, .ok (url, reply))
        | .redirect location => match fuel with
          | 0 => (dialed, .error ⟨"too many redirects", false, false⟩)
          | fuel + 1 =>
            let rest := follow c net fuel (hop + 1) location
            (dialed ++ rest.1, rest.2)
    else ([], .error ⟨"URL scheme is not allowed", false, false⟩)

def execute (c : Client) (net : Network) (url : Url) :
    List SocketAddr × Except ClientError (Url × Reply) :=
  c.follow net c.redirects 0 url

/-- A request from its text: one whose URL or headers are malformed is never made. -/
def request (c : Client) (lib : Libraries) (net : Network) (url : String)
    (headers : List (String × String)) : List SocketAddr × Except ClientError (Url × Reply) :=
  match lib.parse url with
  | none => ([], .error ⟨"builder error: relative URL without a base", false, false⟩)
  | some parsed =>
    if headers.all lib.header then c.execute net parsed
    else ([], .error ⟨"builder error", false, false⟩)

end Client

/-- Performs a request that the guest has finished building. -/
def send (c : Client) (lib : Libraries) (net : Network) (request : Request) :
    List SocketAddr × Except ℤ Response :=
  match request.url with
  | none => ([], .error NetError.notSent)
  | some url => match Method.fromWire request.method with
    | none => ([], .error NetError.invalidMethod)
    | some _ => match lib.parse url with
      | none => ([], .error NetError.invalidUrl)
      | some parsed =>
        if parsed.Web then
          if request.headers.all lib.header then
            match c.execute net parsed with
            | (dialed, .error _) => (dialed, .error NetError.failed)
            | (dialed, .ok (final, reply)) => match reply.body with
              | .error _ => (dialed, .error NetError.failed)
              | .ok body => (dialed, .ok ⟨reply.status, reply.headers, body, some final.text⟩)
          else ([], .error NetError.failed)
        else ([], .error NetError.invalidUrl)

def isSuccess (status : UInt16) : Bool := 200 ≤ status && status < 300

def isServerError (status : UInt16) : Bool := 500 ≤ status && status < 600

/-- Whether another attempt could plausibly succeed. -/
def retryable (status : Option UInt16) (error : Option ClientError) : Bool :=
  match status, error with
  | some status, _ => isServerError status || status == 429
  | none, some e => !e.isConnect || e.isTimeout
  | none, none => false

/-- The bytes of a page. -/
def VettedFetcher.fetch (c : Client) (maxPageBytes : ℕ) (lib : Libraries) (net : Network)
    (page : PageRef) :
    List SocketAddr × Except DomainError Bytes :=
  match c.request lib net page.url page.headers with
  | (dialed, .error e) => (dialed, .error (.source
      s!"page {page.index} could not be fetched: {e.text}" (retryable none (some e))))
  | (dialed, .ok (_, reply)) => (dialed,
    if !isSuccess reply.status then
      .error (.source s!"page {page.index} returned {lib.status reply.status}"
        (retryable (some reply.status) none))
    else match reply.contentLength.filter (maxPageBytes < ·) with
    | some len => .error (.source
        s!"page {page.index} declares {len} bytes, over the {maxPageBytes} byte limit" false)
    | none => match reply.body with
      | .error e => .error (.source s!"page {page.index} could not be read: {e.text}" true)
      | .ok bytes =>
        if maxPageBytes < bytes.length then .error (.source
          s!"page {page.index} sent {bytes.length} bytes, over the {maxPageBytes} byte limit" false)
        else if bytes.isEmpty then .error (.source s!"page {page.index} was empty" true)
        else .ok bytes)

/-- The bytes of an index or a package. -/
def AidokuRegistry.get (c : Client) (limit : ℕ) (lib : Libraries) (net : Network) (url : String) :
    List SocketAddr × Except DomainError Bytes :=
  match c.request lib net url [] with
  | (dialed, .error e) => (dialed, .error (.source
      s!"{url} could not be fetched: {e.text}" (retryable none (some e))))
  | (dialed, .ok (_, reply)) => (dialed,
    if !isSuccess reply.status then
      .error (.source s!"{url} returned {lib.status reply.status}" (isServerError reply.status))
    else match reply.contentLength.filter (limit < ·) with
    | some len => .error (.source s!"{url} declares {len} bytes, over the {limit} byte limit" false)
    | none => match reply.body with
      | .error e => .error (.source s!"{url} could not be read: {e.text}" true)
      | .ok bytes =>
        if limit < bytes.length then .error (.source
          s!"{url} sent {bytes.length} bytes, over the {limit} byte limit" false)
        else .ok bytes)

/-- Everything that reaches the network: a guest's request, alone or in a batch, a page and a
registry download. -/
inductive Outbound where
  | guest (request : Request)
  | page (page : PageRef) (maxPageBytes : ℕ)
  | registry (url : String) (limit : ℕ)

namespace Outbound

/-- The addresses connected to on behalf of the request. -/
def connections (lib : Libraries) (net : Network) : Outbound → List SocketAddr
  | guest request => (send (buildClient ⟨net.dns⟩) lib net request).1
  | page p maxPageBytes =>
    (VettedFetcher.fetch (buildAsyncClient ⟨net.dns⟩) maxPageBytes lib net p).1
  | registry url limit => (AidokuRegistry.get (buildAsyncClient ⟨net.dns⟩) limit lib net url).1

/-- The URL of a request that is well formed. -/
def target (lib : Libraries) : Outbound → Option Url
  | guest request =>
    if (Method.fromWire request.method).isSome && request.headers.all lib.header then
      request.url.bind lib.parse
    else none
  | page p _ => if p.headers.all lib.header then lib.parse p.url else none
  | registry url _ => lib.parse url

end Outbound

namespace Client

/-- The hop gets past its scheme and its name, so its exchange takes place. -/
def Passes (c : Client) (hop : ℕ) (url : Url) : Prop :=
  url.Web ∧ ∃ addrs, c.addresses hop url = .ok addrs

/-- The redirects that the network answers with lead from one hop to a later one. -/
inductive Leads (c : Client) (net : Network) : ℕ → Url → ℕ → Url → Prop
  | here (hop : ℕ) (url : Url) : Leads c net hop url hop url
  | there {hop last : ℕ} {url location final : Url} : c.Passes hop url →
      net.exchange hop url = .redirect location → Leads c net (hop + 1) location last final →
      Leads c net hop url last final

variable {c : Client} {net : Network}

theorem Leads.le {hop last : ℕ} {url final : Url} (h : Leads c net hop url last final) :
    hop ≤ last := by
  induction h with
  | here => exact le_refl _
  | there _ _ _ ih => omega

/-- One hop: its own connections, and those of the redirect that answers it. -/
theorem mem_follow_step {fuel hop : ℕ} {url : Url} {a : SocketAddr} :
    a ∈ (c.follow net fuel hop url).1 ↔ url.Web ∧ ∃ addrs, c.addresses hop url = .ok addrs ∧
      (a ∈ net.dials hop addrs ∨ ∃ rest location, fuel = rest + 1 ∧
        net.exchange hop url = .redirect location ∧
        a ∈ (c.follow net rest (hop + 1) location).1) := by
  rw [follow.eq_def]
  by_cases hweb : url.Web
  · cases haddr : c.addresses hop url with
    | error e => simp [hweb, haddr]
    | ok addrs =>
      cases hx : net.exchange hop url with
      | failed e => simp [hweb, haddr, hx]
      | answered reply => simp [hweb, haddr, hx]
      | redirect location =>
        cases fuel with
        | zero => simp [hweb, haddr, hx]
        | succ fuel => simp [hweb, haddr, hx]
  · simp [hweb]

/-- The addresses connected to are those dialed at the hops that the redirects lead to. -/
theorem mem_follow {fuel hop : ℕ} {url : Url} {a : SocketAddr} :
    a ∈ (c.follow net fuel hop url).1 ↔ ∃ last final, Leads c net hop url last final ∧
      last ≤ hop + fuel ∧ final.Web ∧
      ∃ addrs, c.addresses last final = .ok addrs ∧ a ∈ net.dials last addrs := by
  constructor
  · intro h
    induction fuel generalizing hop url with
    | zero =>
      obtain ⟨hweb, addrs, haddr, hd | ⟨_, _, hfuel, -⟩⟩ := mem_follow_step.mp h
      · exact ⟨hop, url, .here hop url, le_refl _, hweb, addrs, haddr, hd⟩
      · cases hfuel
    | succ fuel ih =>
      obtain ⟨hweb, addrs, haddr, hd | ⟨rest, location, hfuel, hx, hrest⟩⟩ := mem_follow_step.mp h
      · exact ⟨hop, url, .here hop url, Nat.le_add_right _ _, hweb, addrs, haddr, hd⟩
      · cases hfuel
        obtain ⟨last, final, hleads, hle, hfinal⟩ := ih hrest
        exact ⟨last, final, .there ⟨hweb, addrs, haddr⟩ hx hleads, by omega, hfinal⟩
  · rintro ⟨last, final, hleads, hle, hweb, addrs, haddr, hd⟩
    induction hleads generalizing fuel with
    | here hop url => exact mem_follow_step.mpr ⟨hweb, addrs, haddr, .inl hd⟩
    | @there hop last url location final hpass hx hleads ih =>
      have hlt := hleads.le
      obtain ⟨rest, rfl⟩ : ∃ rest, fuel = rest + 1 := ⟨fuel - 1, by omega⟩
      obtain ⟨hurl, found, hfound⟩ := hpass
      exact mem_follow_step.mpr ⟨hurl, found, hfound, .inr ⟨rest, location, rfl, hx,
        ih (by omega) hweb haddr hd⟩⟩

/-- No hop that the redirects lead to is to a literal of an address the policy denies. -/
def LiteralsAllowed (c : Client) (net : Network) (first : Url) : Prop :=
  ∀ last final host ip, Leads c net 0 first last final → last ≤ c.redirects → final.Web →
    final.host = some host → host.literal = some ip → classify ip = none

theorem addresses_literal (c : Client) (hop : ℕ) {url : Url} {host : Host} {ip : IpAddr}
    (hhost : url.host = some host) (hip : host.literal = some ip) :
    c.addresses hop url = .ok [⟨ip, url.portOrKnownDefault⟩] := by
  cases host with
  | name n => cases hip
  | ipv4 v4 => cases hip; simp [addresses, hhost]
  | ipv6 v6 => cases hip; simp [addresses, hhost]

/-- A name gives allowed addresses only, whatever DNS answers and whenever it is asked. -/
theorem allowed_of_name {hop : ℕ} {url : Url} {name : String} {addrs : List SocketAddr}
    (hhost : url.host = some (.name name)) (h : c.addresses hop url = .ok addrs) :
    ∀ a ∈ addrs, Allowed a := by
  simp only [addresses, hhost, VettingResolver.vetted] at h
  cases hv : approve c.resolver.inner hop name 0 with
  | error denial => simp [hv] at h
  | ok found =>
    simp only [hv, Except.ok.injEq] at h
    subst h
    intro a ha
    obtain ⟨b, hb, rfl⟩ := List.mem_map.mp ha
    exact (approve_eq_ok_iff.mp hv).2.2 b hb

theorem execute_allowed_iff {first : Url} :
    (∀ a ∈ (c.execute net first).1, Allowed a) ↔ LiteralsAllowed c net first := by
  constructor
  · intro hall last final host ip hleads hle hweb hhost hip
    have haddr := addresses_literal c last hhost hip
    -- a literal hop dials its one address
    obtain ⟨a, ha⟩ := List.exists_mem_of_ne_nil _ (net.dials_ne_nil last
      [⟨ip, final.portOrKnownDefault⟩] (by simp))
    have hmem := net.mem_of_dialed _ _ _ ha
    have hallowed : Allowed a := hall a (mem_follow.mpr
      ⟨last, final, hleads, by omega, hweb, _, haddr, ha⟩)
    rwa [List.mem_singleton.mp hmem] at hallowed
  · intro hlit a ha
    obtain ⟨last, final, hleads, hle, hweb, addrs, haddr, hd⟩ := mem_follow.mp ha
    have hmem := net.mem_of_dialed _ _ _ hd
    cases hhost : final.host with
    | none => simp [addresses, hhost] at haddr
    | some host =>
      cases hip : host.literal with
      | some ip =>
        rw [addresses_literal c last hhost hip, Except.ok.injEq] at haddr
        subst haddr
        rw [List.mem_singleton.mp hmem]
        exact hlit last final host ip hleads (by omega) hweb hhost hip
      | none =>
        cases host with
        | name name => exact allowed_of_name hhost haddr a hmem
        | ipv4 ip => cases hip
        | ipv6 ip => cases hip

theorem execute_of_not_web {first : Url} (h : ¬ first.Web) : (c.execute net first).1 = [] := by
  simp [execute, follow.eq_def, h]

end Client

/-- The connections of a request that may have turned out malformed. -/
def Client.reach (c : Client) (net : Network) : Option Url → List SocketAddr
  | some first => (c.execute net first).1
  | none => []

section Connections
variable {lib : Libraries} {net : Network}

theorem request_connections {c : Client} {url : String} {headers : List (String × String)} :
    (c.request lib net url headers).1 =
      c.reach net (if headers.all lib.header then lib.parse url else none) := by
  unfold Client.request
  cases hp : lib.parse url with
  | none => simp [Client.reach]
  | some first => by_cases hh : headers.all lib.header <;> simp [hh, Client.reach]

theorem send_connections {c : Client} {request : Request} :
    (send c lib net request).1 = c.reach net ((Outbound.guest request).target lib) := by
  unfold send Outbound.target
  cases hurl : request.url with
  | none => simp [hurl, Client.reach]
  | some url =>
    cases hm : Method.fromWire request.method with
    | none => simp [hm, Client.reach]
    | some method =>
      cases hp : lib.parse url with
      | none => simp [hurl, hp, Client.reach]
      | some first =>
        by_cases hh : request.headers.all lib.header
        · by_cases hweb : first.Web
          · cases hx : c.execute net first with
            | mk dialed result =>
              rcases result with e | ⟨final, reply⟩
              · simp [hurl, hm, hp, hh, hweb, hx, Client.reach]
              · cases hb : reply.body <;> simp [hurl, hm, hp, hh, hweb, hx, hb, Client.reach]
          · simp [hurl, hm, hp, hh, hweb, Client.reach, Client.execute_of_not_web hweb]
        · by_cases hweb : first.Web <;> simp [hm, hp, hh, hweb, Client.reach]

@[simp] theorem fetch_connections {c : Client} {maxPageBytes : ℕ} {page : PageRef} :
    (VettedFetcher.fetch c maxPageBytes lib net page).1 =
      (c.request lib net page.url page.headers).1 := by
  unfold VettedFetcher.fetch
  split <;> simp_all

private theorem get_connections {c : Client} {limit : ℕ} {url : String} :
    (AidokuRegistry.get c limit lib net url).1 = (c.request lib net url []).1 := by
  unfold AidokuRegistry.get
  split <;> simp_all

/-- The three entry points connect as one client does that is given their URL. -/
theorem connections_eq (out : Outbound) : out.connections lib net =
    (buildClient ⟨net.dns⟩).reach net (out.target lib) := by
  cases out with
  | guest request => exact send_connections
  | page p maxPageBytes => exact fetch_connections.trans request_connections
  | registry url limit =>
    refine (get_connections.trans request_connections).trans ?_
    simp [Outbound.target, buildAsyncClient, buildClient]

end Connections

/-- A request connects to allowed addresses only, exactly when no hop of its redirects, the
first one included, is to a literal of a denied address. -/
theorem egress_complete_iff (lib : Libraries) (net : Network) (out : Outbound) :
    (∀ a ∈ out.connections lib net, Allowed a) ↔ ∀ first, out.target lib = some first →
      (buildClient ⟨net.dns⟩).LiteralsAllowed net first := by
  rw [connections_eq]
  cases out.target lib with
  | none => simp [Client.reach]
  | some first =>
    simp only [Client.reach, Option.some.injEq, forall_eq']
    exact Client.execute_allowed_iff

/-- The site a redirect leads away from. -/
def redirectingSite : Url :=
  ⟨"http://sources.example/", "http", some (.name "sources.example"), "sources.example", none⟩

def metadataUrl : Url := ⟨"http://169.254.169.254/latest/meta-data/", "http",
  some (.ipv4 ⟨169, 254, 169, 254⟩), "169.254.169.254", none⟩

/-- A network on which the site resolves to a public address and redirects to the metadata. -/
def redirectingNetwork : Network where
  dns _ _ port := some [⟨.v4 ⟨93, 184, 216, 34⟩, port⟩]
  dials _ addrs := addrs
  exchange hop _ := if hop = 0 then .redirect metadataUrl else .answered ⟨200, [], none, .ok []⟩
  mem_of_dialed _ _ _ h := h
  dials_ne_nil _ _ h := h

def siteLibraries : Libraries where
  parse text := if text = redirectingSite.text then some redirectingSite
    else if text = metadataUrl.text then some metadataUrl else none
  header _ := true
  status code := toString code

/-- A redirect to the metadata address is followed. -/
theorem redirect_reaches_metadata : ¬ ∀ (lib : Libraries) (net : Network) (out : Outbound),
    ∀ a ∈ out.connections lib net, Allowed a := by
  intro h
  have hall := h siteLibraries redirectingNetwork
    (.guest ⟨0, some redirectingSite.text, [], none⟩) ⟨.v4 ⟨169, 254, 169, 254⟩, 80⟩ (by decide)
  exact absurd hall (by decide)

end Nyuka.Runtime
