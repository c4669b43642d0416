import Nyuka.Packaging.Paths
import Nyuka.Runtime.Addresses

/-! The client's address behind a reverse proxy, which the rate limits are kept by. -/
namespace Nyuka
namespace Api
open Nyuka.Runtime (IpAddr SocketAddr)

section Networks

def octets : IpAddr → List UInt8
  | .v4 ip => [ip.a, ip.b, ip.c, ip.d]
  | .v6 ip => [ip.s0, ip.s1, ip.s2, ip.s3, ip.s4, ip.s5, ip.s6, ip.s7].flatMap
    fun s : UInt16 => [(s >>> 8).toUInt8, s.toUInt8]

/-- A network, for the trusted-proxy list. -/
structure Cidr where
  network : IpAddr
  prefixLen : UInt8
  fits : prefixLen.toNat ≤ 8 * (octets network).length
deriving DecidableEq

def masked (network other : List UInt8) (prefixLen : UInt8) : Bool :=
  let full := (prefixLen / 8).toNat
  if network.take full ≠ other.take full then false
  else
    let bits := prefixLen % 8
    if bits = 0 then true
    else
      let mask := (0xFF : UInt8) <<< (8 - bits)
      network.getD full 0 &&& mask == other.getD full 0 &&& mask

/-- A v4-mapped v6 address is not matched against a v4 network. -/
def Cidr.contains (net : Cidr) (addr : IpAddr) : Bool :=
  match net.network, addr with
  | .v4 _, .v4 _ => masked (octets net.network) (octets addr) net.prefixLen
  | .v6 _, .v6 _ => masked (octets net.network) (octets addr) net.prefixLen
  | _, _ => false

def isTrusted (addr : IpAddr) (trusted : List Cidr) : Bool :=
  trusted.any fun net => net.contains addr

end Networks

section ClientIp

/-- The values of each header, in the order of their lines. Names are in lower case. -/
abbrev HeaderMap := String → List Bytes

/-- The first line of a header. -/
def HeaderMap.get (headers : HeaderMap) (name : String) : Option Bytes := (headers name).head?

/-- A value that is visible ASCII throughout, as text. -/
def toStr (value : Bytes) : Option (List Char) :=
  if value.all fun b => 32 ≤ b && b < 127 || b == 9 then
    some (value.map fun b => Char.ofNat b.toNat)
  else none

def xForwardedFor : String := "x-forwarded-for"

/-- The addresses a line names, those that cannot be read left out. -/
def hops (line : List Char) : List IpAddr :=
  ((line.splitOn ',').map (Text.trimMatches Packaging.isWhitespace)).filterMap IpAddr.parse

/-- The client's address, given the socket peer and the request headers. -/
def clientIp (peer : SocketAddr) (headers : HeaderMap) (trusted : List Cidr) : IpAddr :=
  if trusted.isEmpty || !isTrusted peer.ip trusted then peer.ip
  else
    match (headers.get xForwardedFor).bind toStr with
    | none => peer.ip
    | some forwarded =>
      ((hops forwarded).reverse.find? fun addr => !isTrusted addr trusted).getD peer.ip

/-- The rate limiter's key, or the error that there is no peer address. -/
def extract (trusted : List Cidr) (peer : Option SocketAddr) (headers : HeaderMap) :
    Option IpAddr :=
  peer.map fun peer => clientIp peer headers trusted

end ClientIp

section Proxy

/-- How a proxy says which address it saw. -/
inductive Forwarding where
  | lastHop | furtherLine
deriving DecidableEq, Repr

/-- The lines of the header after the proxy's: a hop appended to the last line, or a line more. -/
def forwardedLines : Forwarding → List Bytes → Bytes → List Bytes
  | .lastHop, [], hop => [hop]
  | .lastHop, [line], hop => [line ++ 44 :: hop]
  | .lastHop, line :: lines, hop => line :: forwardedLines .lastHop lines hop
  | .furtherLine, lines, hop => lines ++ [hop]

/-- The request as the proxy passes it on. -/
def forwarded (how : Forwarding) (client : HeaderMap) (hop : Bytes) : HeaderMap :=
  Function.update client xForwardedFor (forwardedLines how (client xForwardedFor) hop)

/-- The hop is one text that names the address, blanks around it or not. -/
def Names (hop : Bytes) (addr : IpAddr) : Prop :=
  44 ∉ hop ∧ ∃ text, toStr hop = some text ∧
    IpAddr.parse (Text.trimMatches Packaging.isWhitespace text) = some addr

/-- The last address of a line that is not a proxy's. -/
def lastUntrusted (trusted : List Cidr) (line : Bytes) : Option IpAddr :=
  (toStr line).bind fun text => (hops text).reverse.find? fun addr => !isTrusted addr trusted

variable {trusted : List Cidr} {addr : IpAddr}

theorem toStr_append (a b : Bytes) : toStr (a ++ b) =
    (toStr a).bind fun s => (toStr b).map fun t => s ++ t := by
  unfold toStr
  rw [List.all_append, List.map_append]
  cases (a.all fun b => 32 ≤ b && b < 127 || b == 9) <;>
    cases (b.all fun b => 32 ≤ b && b < 127 || b == 9) <;> rfl

theorem hops_append (line hop : List Char) :
    hops (line ++ ',' :: hop) = hops line ++ hops hop := by
  unfold hops
  rw [List.splitOn, List.splitOnP_append_cons _ _ (by simp), List.map_append,
    List.filterMap_append]
  rfl

/-- A readable byte other than the comma is another character. -/
theorem comma_notMem_toStr {hop : Bytes} {text : List Char} (hcomma : 44 ∉ hop)
    (htext : toStr hop = some text) : ',' ∉ text := by
  unfold toStr at htext
  split at htext
  · obtain rfl := Option.some.inj htext
    intro hmem
    obtain ⟨b, hb, hchar⟩ := List.mem_map.mp hmem
    have hbytes : ∀ n < 256, Char.ofNat n = ',' → n = 44 := by decide +kernel
    have hb44 : b = 44 := UInt8.toNat_inj.mp (hbytes b.toNat b.toNat_lt hchar)
    exact hcomma (hb44 ▸ hb)
  · cases htext

theorem hops_of_names {hop : Bytes} {text : List Char} (hcomma : 44 ∉ hop)
    (htext : toStr hop = some text)
    (hparse : IpAddr.parse (Text.trimMatches Packaging.isWhitespace text) = some addr) :
    hops text = [addr] := by
  unfold hops
  rw [List.splitOn_eq_singleton (comma_notMem_toStr hcomma htext)]
  simp [hparse]

theorem lastUntrusted_hop {hop : Bytes} (hnames : Names hop addr)
    (huntrusted : isTrusted addr trusted = false) : lastUntrusted trusted hop = some addr := by
  obtain ⟨hcomma, text, htext, hparse⟩ := hnames
  unfold lastUntrusted
  rw [htext, Option.bind_some, hops_of_names hcomma htext hparse]
  simp [huntrusted]

/-- A hop the proxy appends is the last of its line, where the line can be read. -/
theorem lastUntrusted_append {hop : Bytes} (hnames : Names hop addr)
    (huntrusted : isTrusted addr trusted = false) (line : Bytes) :
    lastUntrusted trusted (line ++ 44 :: hop) = (toStr line).map fun _ => addr := by
  obtain ⟨hcomma, text, htext, hparse⟩ := hnames
  have hsep : toStr (44 :: hop) = some (',' :: text) := by
    have := toStr_append [44] hop
    rw [htext] at this
    exact this
  unfold lastUntrusted
  rw [toStr_append, hsep]
  cases toStr line with
  | none => rfl
  | some front =>
    rw [Option.bind_some, Option.map_some, Option.bind_some,
      hops_append, hops_of_names hcomma htext hparse]
    simp [huntrusted]

/-- The address a trusted peer's request is counted under. -/
theorem clientIp_of_trusted {peer : SocketAddr} (hpeer : isTrusted peer.ip trusted = true)
    (headers : HeaderMap) :
    clientIp peer headers trusted =
      ((headers.get xForwardedFor).bind (lastUntrusted trusted)).getD peer.ip := by
  have hsome : trusted.isEmpty = false := by
    cases trusted with
    | nil => cases hpeer
    | cons => rfl
  unfold clientIp lastUntrusted
  simp only [hsome, hpeer, Bool.not_true, Bool.or_self, Bool.false_eq_true, if_false]
  cases headers.get xForwardedFor with
  | none => rfl
  | some line => cases hline : toStr line <;> simp [hline]

/-- The client leaves the first line to the proxy, or names itself last in it. -/
def Unforged (trusted : List Cidr) (how : Forwarding) (lines : List Bytes) (addr : IpAddr) : Prop :=
  match how, lines with
  | _, [] => True
  | .lastHop, [line] => (toStr line).isSome
  | _, line :: _ => lastUntrusted trusted line = some addr

/-- Behind a trusted proxy a request is counted under the address the proxy saw exactly when the
client has not sent a line of its own before the one the proxy writes on, or has named the address
itself there. -/
theorem clientIp_eq_iff {peer : SocketAddr} {hop : Bytes} (how : Forwarding) (client : HeaderMap)
    (hpeer : isTrusted peer.ip trusted = true) (huntrusted : isTrusted addr trusted = false)
    (hnames : Names hop addr) :
    extract trusted (some peer) (forwarded how client hop) = some addr ↔
      Unforged trusted how (client xForwardedFor) addr := by
  have hne : peer.ip ≠ addr := by
    rintro rfl
    rw [hpeer] at huntrusted
    cases huntrusted
  have hline (line : Option Bytes) :
      (line.bind (lastUntrusted trusted)).getD peer.ip = addr ↔
        line.bind (lastUntrusted trusted) = some addr := by
    cases line.bind (lastUntrusted trusted) <;> simp [hne]
  unfold extract
  rw [Option.map_some, Option.some.injEq, clientIp_of_trusted hpeer, hline, HeaderMap.get,
    forwarded, Function.update_self]
  cases hlines : client xForwardedFor with
  | nil => cases how <;> simp [forwardedLines, Unforged, lastUntrusted_hop hnames huntrusted]
  | cons line lines =>
    cases how with
    | furtherLine => simp [forwardedLines, Unforged]
    | lastHop =>
      cases lines with
      | nil =>
        simp only [forwardedLines, Unforged, List.head?_cons, Option.bind_some,
          lastUntrusted_append hnames huntrusted]
        cases toStr line <;> simp
      | cons => simp [forwardedLines, Unforged]

private theorem proxyNetwork_fits :
    (8 : UInt8).toNat ≤ 8 * (octets (.v4 ⟨10, 0, 0, 0⟩)).length := by decide

def proxyNetwork : Cidr := ⟨.v4 ⟨10, 0, 0, 0⟩, 8, proxyNetwork_fits⟩

def proxyPeer : SocketAddr := ⟨.v4 ⟨10, 0, 0, 5⟩, 40000⟩

def realHop : Bytes := "203.0.113.9".toUTF8.data.toList

/-- A client that sends a line of its own. -/
def forger : HeaderMap := fun _ => ["1.2.3.4".toUTF8.data.toList]

theorem realHop_names : Names realHop (.v4 ⟨203, 0, 113, 9⟩) :=
  ⟨by decide, "203.0.113.9".toList, by decide, by decide⟩

theorem clientIp_of_one_line :
    extract [proxyNetwork] (some proxyPeer) (forwarded .lastHop forger realHop) =
        some (.v4 ⟨203, 0, 113, 9⟩) ↔
      Unforged [proxyNetwork] .lastHop (forger xForwardedFor) (.v4 ⟨203, 0, 113, 9⟩) :=
  clientIp_eq_iff .lastHop forger (by decide) (by decide) realHop_names

/-- Where the proxy writes a line of its own, the client's is read. -/
theorem clientIp_forged : ¬ ∀ (trusted : List Cidr) (peer : SocketAddr) (how : Forwarding)
    (client : HeaderMap) (hop : Bytes) (addr : IpAddr), isTrusted peer.ip trusted = true →
    isTrusted addr trusted = false → Names hop addr →
    extract trusted (some peer) (forwarded how client hop) = some addr := by
  intro h
  have hforged := h [proxyNetwork] proxyPeer .furtherLine forger realHop (.v4 ⟨203, 0, 113, 9⟩)
    (by decide) (by decide) realHop_names
  revert hforged
  decide

end Proxy

end Api
end Nyuka
