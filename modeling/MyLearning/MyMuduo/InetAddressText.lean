import MyLearning.Lib.Printf
import MyLearning.MyMuduo.InetAddress

/-!
# Addresses as text

An address object is a union whose two members begin with the same fields, and the family in it says which of
them to read. An object that the constructors and the methods have made leads to an endpoint: an address of
one of the families, and a port. Its text is written into a buffer of 64 bytes. The text is that of the endpoint
in full, the constructor reads it back, and two objects have the same text exactly if they lead to the same
endpoint. The flow and the scope of an IPv6 address are not in the text.
-/

namespace MyLearning.InetAddress

open CString Printf

/-- `inet_ntop` for the two families, beside the functions that read a text. -/
structure Presentation extends Resolver where
  inet_ntop : UInt32 → List Char
  inet_ntop6 : BitVec 128 → List Char

/-! ## The functions of the source -/

def hostToNetwork32 (host32 : UInt32) : UInt32 :=
  (host32 <<< 24) ||| ((host32 <<< 8) &&& (0xff0000 : UInt32)) ||| ((host32 >>> 8) &&& (0xff00 : UInt32)) |||
    (host32 >>> 24)

def networkToHost16 (net16 : UInt16) : UInt16 := (net16 <<< 8) ||| (net16 >>> 8)

def kInaddrAny : UInt32 := 0

def kInaddrLoopback : UInt32 := 0x7f000001

def in6addr_any : BitVec 128 := 0

def in6addr_loopback : BitVec 128 := 1

def INET_ADDRSTRLEN : Nat := 16

def INET6_ADDRSTRLEN : Nat := 46

def ofPort (portArg : UInt16) (loopbackOnly ipv6 : Bool) : InetAddress :=
  if ipv6 then
    addr6_ ⟨AF_INET6, hostToNetwork16 portArg, 0, if loopbackOnly then in6addr_loopback else in6addr_any, 0⟩
  else
    addr_ ⟨AF_INET, hostToNetwork16 portArg, hostToNetwork32 (if loopbackOnly then kInaddrLoopback else kInaddrAny)⟩

def family : InetAddress → Nat
  | addr_ addr => addr.sin_family
  | addr6_ addr => addr.sin6_family

def portNetEndian : InetAddress → UInt16
  | addr_ addr => addr.sin_port
  | addr6_ addr => addr.sin6_port

def port (a : InetAddress) : UInt16 := networkToHost16 (portNetEndian a)

/-- The fields of a `sockaddr_in` lie where the first ones of a `sockaddr_in6` do. -/
def sockaddrInCast : InetAddress → SockaddrIn
  | addr_ addr => addr
  | addr6_ addr => ⟨addr.sin6_family, addr.sin6_port, addr.sin6_flowinfo⟩

/-- Behind a `sockaddr_in` there is nothing that was written. -/
def sockaddrIn6Cast : InetAddress → Except Fault SockaddrIn6
  | addr_ _ => .error .bounds
  | addr6_ addr => .ok addr

def setSockAddrInet6 (_ : InetAddress) (addr : SockaddrIn6) : InetAddress := addr6_ addr

def setScopeId (a : InetAddress) (scope_id : UInt32) : Except Fault InetAddress := do
  if family a = AF_INET6 then
    return addr6_ { ← sockaddrIn6Cast a with sin6_scope_id := scope_id }
  else return a

/-- What `inet_ntop` leaves in a buffer. Where the text does not fit it writes nothing, and whoever reads the
buffer then reads what is not there. -/
def ntop (size : Nat) (str : List Char) : Except Fault (List Char) := if str.length < size then .ok str else .error .bounds

namespace Sockets

def toIp (sys : Presentation) (size : Nat) (a : InetAddress) : Except Fault (List Char) := do
  if family a = AF_INET then
    check (INET_ADDRSTRLEN ≤ size)
    ntop size (sys.inet_ntop (sockaddrInCast a).sin_addr)
  else
    check (INET6_ADDRSTRLEN ≤ size)
    ntop size (sys.inet_ntop6 (← sockaddrIn6Cast a).sin6_addr)

def toIpPort (sys : Presentation) (size : Nat) (a : InetAddress) : Except Fault (List Char) := do
  if family a = AF_INET6 then
    let buf := '[' :: (← toIp sys (size - 1) a)
    let port := networkToHost16 (← sockaddrIn6Cast a).sin6_port
    check (buf.length < size)
    return buf ++ snprintf (size - buf.length) (']' :: ':' :: number port.toNat)
  else
    let buf ← toIp sys size a
    let port := networkToHost16 (sockaddrInCast a).sin_port
    check (buf.length < size)
    return buf ++ snprintf (size - buf.length) (':' :: number port.toNat)

end Sockets

def toIp (sys : Presentation) (a : InetAddress) : Except Fault (List Char) := Sockets.toIp sys 64 a

def toPortIp (sys : Presentation) (a : InetAddress) : Except Fault (List Char) := Sockets.toIpPort sys 64 a

/-- What the constructors and the methods make. A `sockaddr` that is handed in is one of IPv4 or IPv6; the
kernel writes either into the same `sockaddr_in6`. -/
inductive Made (sys : Resolver) : InetAddress → Prop
  | ofPort (portArg : UInt16) (loopbackOnly ipv6 : Bool) : Made sys (ofPort portArg loopbackOnly ipv6)
  | ofIp {ip : View} {portArg : UInt16} {ipv6 : Bool} {a : InetAddress} {log : List String}
      (h : ofIp sys ip portArg ipv6 = .ok (a, log)) : Made sys a
  | ofSockaddrIn {addr : SockaddrIn} (h : addr.sin_family = AF_INET) : Made sys (addr_ addr)
  | ofSockaddrIn6 {addr : SockaddrIn6} (h : addr.sin6_family = AF_INET ∨ addr.sin6_family = AF_INET6) :
      Made sys (addr6_ addr)
  | setSockAddrInet6 {a : InetAddress} {addr : SockaddrIn6} (ha : Made sys a)
      (h : addr.sin6_family = AF_INET ∨ addr.sin6_family = AF_INET6) : Made sys (setSockAddrInet6 a addr)
  | setScopeId {a a' : InetAddress} {scope_id : UInt32} (ha : Made sys a) (h : setScopeId a scope_id = .ok a') :
      Made sys a'
  | resolve {a a' : InetAddress} {hostname : View} {found : Bool} {log : List String} (ha : Made sys a)
      (h : resolve sys hostname (some a) = .ok ((found, a'), log)) : Made sys a'

/-! ## The order of the bytes -/

theorem toNat_hostToNetwork16 (x : UInt16) : (hostToNetwork16 x).toNat = x.toNat % 256 * 256 + x.toNat / 256 := by
  have hx := x.toNat_lt
  have hhigh : x.toNat <<< 8 % 65536 = (x.toNat % 256) <<< 8 := by
    rw [Nat.shiftLeft_eq, Nat.shiftLeft_eq]
    omega
  have hlow : x.toNat / 256 < 2 ^ 8 := by omega
  have hor := Nat.shiftLeft_add_eq_or_of_lt hlow (x.toNat % 256)
  rw [hostToNetwork16, UInt16.toNat_or, UInt16.toNat_shiftLeft, UInt16.toNat_shiftRight]
  simp only [UInt16.reduceToNat, Nat.reduceMod, Nat.shiftRight_eq_div_pow, Nat.reducePow]
  rw [hhigh, ← hor, Nat.shiftLeft_eq]

theorem networkToHost16_hostToNetwork16 (x : UInt16) : networkToHost16 (hostToNetwork16 x) = x := by
  have hx := x.toNat_lt
  apply UInt16.toNat_inj.mp
  have hswap : (networkToHost16 (hostToNetwork16 x)).toNat = (hostToNetwork16 (hostToNetwork16 x)).toNat := rfl
  rw [hswap, toNat_hostToNetwork16, toNat_hostToNetwork16]
  omega

/-! ## Endpoints -/

inductive Endpoint where
  | v4 (addr : UInt32) (port : UInt16)
  | v6 (addr : BitVec 128) (port : UInt16)
  deriving DecidableEq

def endpoint (a : InetAddress) : Option Endpoint :=
  match a with
  | addr_ addr => if addr.sin_family = AF_INET then some (.v4 addr.sin_addr (port a)) else none
  | addr6_ addr =>
    if addr.sin6_family = AF_INET6 then some (.v6 addr.sin6_addr (port a))
    else if addr.sin6_family = AF_INET then some (.v4 addr.sin6_flowinfo (port a))
    else none

def Endpoint.port : Endpoint → UInt16
  | v4 _ port => port
  | v6 _ port => port

def Endpoint.ip (sys : Presentation) : Endpoint → List Char
  | v4 addr _ => sys.inet_ntop addr
  | v6 addr _ => sys.inet_ntop6 addr

def Endpoint.portIp (sys : Presentation) (e : Endpoint) : List Char :=
  match e with
  | v4 _ port => e.ip sys ++ ':' :: number port.toNat
  | v6 _ port => '[' :: e.ip sys ++ ']' :: ':' :: number port.toNat

section
variable {sys : Resolver} {a a' : InetAddress} {hostname : View} {found : Bool} {log : List String}

theorem port_of_endpoint {e : Endpoint} (h : endpoint a = some e) : port a = e.port := by
  cases a with
  | addr_ addr =>
    simp only [endpoint, Option.ite_none_right_eq_some, Option.some.injEq] at h
    rw [← h.2]
    rfl
  | addr6_ addr =>
    simp only [endpoint] at h
    split at h
    · cases h; rfl
    · simp only [Option.ite_none_right_eq_some, Option.some.injEq] at h
      rw [← h.2]
      rfl

theorem endpoint_addr_ {addr : SockaddrIn} (h : addr.sin_family = AF_INET) :
    endpoint (addr_ addr) = some (.v4 addr.sin_addr (networkToHost16 addr.sin_port)) := if_pos h

theorem endpoint_addr6_ {addr : SockaddrIn6} (h : addr.sin6_family = AF_INET6) :
    endpoint (addr6_ addr) = some (.v6 addr.sin6_addr (networkToHost16 addr.sin6_port)) := if_pos h

theorem endpoint_addr6_v4 {addr : SockaddrIn6} (h : addr.sin6_family = AF_INET) :
    endpoint (addr6_ addr) = some (.v4 addr.sin6_flowinfo (networkToHost16 addr.sin6_port)) := by
  simp [endpoint, h, AF_INET, AF_INET6, port, portNetEndian]

theorem endpoint_sockaddrIn6 {addr : SockaddrIn6} (h : addr.sin6_family = AF_INET ∨ addr.sin6_family = AF_INET6) :
    ∃ e, endpoint (addr6_ addr) = some e := by
  rcases h with h | h
  · exact ⟨_, endpoint_addr6_v4 h⟩
  · exact ⟨_, endpoint_addr6_ h⟩

theorem endpoint_cases {e : Endpoint} (h : endpoint a = some e) :
    (∃ addr, a = addr_ addr ∧ addr.sin_family = AF_INET) ∨
      ∃ addr, a = addr6_ addr ∧ (addr.sin6_family = AF_INET ∨ addr.sin6_family = AF_INET6) := by
  cases a with
  | addr_ addr =>
    simp only [endpoint, Option.ite_none_right_eq_some] at h
    exact .inl ⟨addr, rfl, h.1⟩
  | addr6_ addr =>
    refine .inr ⟨addr, rfl, ?_⟩
    simp only [endpoint] at h
    split at h
    · rename_i h6
      exact .inr h6
    · simp only [Option.ite_none_right_eq_some] at h
      exact .inl h.1

theorem fromIpPort_family {ip : List Char} {portArg : UInt16} {addr addr' : SockaddrIn}
    (h : fromIpPort sys ip portArg addr = .ok (addr', log)) : addr'.sin_family = AF_INET := by
  obtain ⟨str, -, h⟩ := bind_eq_ok.mp h
  dsimp only at h
  split at h <;> cases h <;> rfl

theorem fromIpPort6_family {ip : List Char} {portArg : UInt16} {addr addr' : SockaddrIn6}
    (h : fromIpPort6 sys ip portArg addr = .ok (addr', log)) : addr'.sin6_family = AF_INET6 := by
  obtain ⟨str, -, h⟩ := bind_eq_ok.mp h
  dsimp only at h
  split at h <;> cases h <;> rfl

theorem endpoint_ofIp {ip : View} {portArg : UInt16} {ipv6 : Bool} (h : ofIp sys ip portArg ipv6 = .ok (a, log)) :
    ∃ e, endpoint a = some e := by
  unfold ofIp at h
  obtain ⟨colon, -, h⟩ := bind_eq_ok.mp h
  split at h
  · obtain ⟨⟨addr6, log6⟩, hfrom, h⟩ := bind_eq_ok.mp h
    cases h
    exact ⟨_, endpoint_addr6_ (fromIpPort6_family hfrom)⟩
  · obtain ⟨⟨addr, log4⟩, hfrom, h⟩ := bind_eq_ok.mp h
    cases h
    exact ⟨_, endpoint_addr_ (fromIpPort_family hfrom)⟩

theorem resolve_cases (h : resolve sys hostname (some a) = .ok ((found, a'), log)) :
    (found = true ∧ ∃ h_addr, a' = setSinAddr a h_addr) ∨ (found = false ∧ a' = a) := by
  unfold resolve at h
  obtain ⟨str, -, h⟩ := bind_eq_ok.mp h
  split at h
  · obtain ⟨-, -, h⟩ := bind_eq_ok.mp h
    cases h
    exact .inl ⟨rfl, _, rfl⟩
  · cases h
    exact .inr ⟨rfl, rfl⟩

theorem endpoint_setSinAddr {e : Endpoint} {h_addr : UInt32} (h : endpoint a = some e) :
    ∃ e', endpoint (setSinAddr a h_addr) = some e' := by
  rcases endpoint_cases h with ⟨addr, rfl, hf⟩ | ⟨addr, rfl, hf⟩
  · exact ⟨_, endpoint_addr_ hf⟩
  · exact endpoint_sockaddrIn6 hf

theorem endpoint_setScopeId {e : Endpoint} {scope_id : UInt32} (h : endpoint a = some e)
    (hs : setScopeId a scope_id = .ok a') : endpoint a' = some e := by
  unfold setScopeId at hs
  split at hs
  · rename_i hf
    obtain ⟨addr, hcast, hs⟩ := bind_eq_ok.mp hs
    cases hs
    cases a with
    | addr_ addr => cases hcast
    | addr6_ addr =>
      cases hcast
      exact h
  · cases hs
    exact h

theorem Made.endpoint (h : Made sys a) : ∃ e, endpoint a = some e := by
  induction h with
  | ofPort portArg loopbackOnly ipv6 =>
    cases ipv6 with
    | true => exact ⟨_, endpoint_addr6_ rfl⟩
    | false => exact ⟨_, endpoint_addr_ rfl⟩
  | ofIp h => exact endpoint_ofIp h
  | ofSockaddrIn h => exact ⟨_, endpoint_addr_ h⟩
  | ofSockaddrIn6 h => exact endpoint_sockaddrIn6 h
  | setSockAddrInet6 _ h => exact endpoint_sockaddrIn6 h
  | setScopeId _ h ih =>
    obtain ⟨e, he⟩ := ih
    exact ⟨e, endpoint_setScopeId he h⟩
  | resolve _ h ih =>
    obtain ⟨e, he⟩ := ih
    rcases resolve_cases h with ⟨-, h_addr, rfl⟩ | ⟨-, rfl⟩
    · exact endpoint_setSinAddr he
    · exact ⟨e, he⟩

end

/-! ## What the text says -/

/-- What the library documents of the two texts of an address. -/
structure Documented (sys : Presentation) : Prop where
  ntop_chars : ∀ addr, ∀ c ∈ sys.inet_ntop addr, c.isDigit ∨ c = '.'
  ntop_length : ∀ addr, (sys.inet_ntop addr).length < INET_ADDRSTRLEN
  pton_ntop : ∀ addr, sys.inet_pton (sys.inet_ntop addr) = some addr
  ntop6_chars : ∀ addr, ∀ c ∈ sys.inet_ntop6 addr, c.isDigit ∨ c ∈ ['a', 'b', 'c', 'd', 'e', 'f', ':', '.']
  ntop6_colon : ∀ addr, ':' ∈ sys.inet_ntop6 addr
  ntop6_length : ∀ addr, (sys.inet_ntop6 addr).length < INET6_ADDRSTRLEN
  pton6_ntop6 : ∀ addr, sys.inet_pton6 (sys.inet_ntop6 addr) = some addr

theorem length_port_le (port : UInt16) : (number port.toNat).length ≤ 5 := by
  have hport := port.toNat_lt
  exact length_toDigits_le (by decide) (by simp; omega)

theorem notMem_port {c : Char} (hc : c.isDigit = false) (port : UInt16) : c ∉ number port.toNat := by
  intro h
  rw [number, sign_nonneg (by simp), List.nil_append] at h
  rw [isDigit_of_mem h] at hc
  cases hc

theorem port_inj {p q : UInt16} (h : number p.toNat = number q.toNat) : p = q := by
  have hpq := number_inj (by simp) (by simp) h
  exact UInt16.toNat_inj.mp (by simpa using hpq)

theorem snprintf_port {end' : Nat} (punctuation : List Char) (port : UInt16)
    (h : end' + punctuation.length + 5 < 64) :
    snprintf (64 - end') (punctuation ++ number port.toNat) = punctuation ++ number port.toNat := by
  have hport := length_port_le port
  apply snprintf_fits
  rw [List.length_append]
  omega

section
variable {sys : Presentation} {a b : InetAddress} {e e₁ e₂ : Endpoint}

theorem notMem_ntop (doc : Documented sys) {c : Char} (hc : c.isDigit = false) (hdot : c ≠ '.') (addr : UInt32) :
    c ∉ sys.inet_ntop addr := by
  intro h
  rcases doc.ntop_chars addr c h with h | h
  · rw [hc] at h; cases h
  · exact hdot h

theorem notMem_ntop6 (doc : Documented sys) {c : Char} (hc : c.isDigit = false)
    (hne : c ∉ ['a', 'b', 'c', 'd', 'e', 'f', ':', '.']) (addr : BitVec 128) : c ∉ sys.inet_ntop6 addr := by
  intro h
  rcases doc.ntop6_chars addr c h with h | h
  · rw [hc] at h; cases h
  · exact hne h

theorem notMem_nul (doc : Documented sys) (e : Endpoint) : nul ∉ e.ip sys := by
  cases e with
  | v4 addr port => exact notMem_ntop doc (by decide) (by decide) addr
  | v6 addr port => exact notMem_ntop6 doc (by decide) (by decide) addr

theorem ntop_fits {size : Nat} {str : List Char} (h : str.length < size) : ntop size str = .ok str := if_pos h

theorem sockets_toIp_v4 (doc : Documented sys) {size : Nat} (hsize : INET_ADDRSTRLEN ≤ size) (hf : family a = AF_INET) :
    Sockets.toIp sys size a = .ok (sys.inet_ntop (sockaddrInCast a).sin_addr) := by
  have hlen := doc.ntop_length (sockaddrInCast a).sin_addr
  rw [Sockets.toIp, if_pos hf, check_pos hsize, ok_bind, ntop_fits (by omega)]

theorem sockets_toIp_v6 (doc : Documented sys) {size : Nat} (hsize : INET6_ADDRSTRLEN ≤ size) {addr : SockaddrIn6}
    (hf : addr.sin6_family = AF_INET6) : Sockets.toIp sys size (addr6_ addr) = .ok (sys.inet_ntop6 addr.sin6_addr) := by
  have hlen := doc.ntop6_length addr.sin6_addr
  have hne : ¬ family (addr6_ addr) = AF_INET := by simp [family, hf, AF_INET, AF_INET6]
  rw [Sockets.toIp, if_neg hne, check_pos hsize, ok_bind, sockaddrIn6Cast, ok_bind, ntop_fits (by omega)]

theorem sockets_toIpPort_v4 (doc : Documented sys) (hf : family a = AF_INET) :
    Sockets.toIpPort sys 64 a = .ok (sys.inet_ntop (sockaddrInCast a).sin_addr ++
      ':' :: number (networkToHost16 (sockaddrInCast a).sin_port).toNat) := by
  have hlen := doc.ntop_length (sockaddrInCast a).sin_addr
  have hne : ¬ family a = AF_INET6 := by simp [hf, AF_INET, AF_INET6]
  unfold INET_ADDRSTRLEN at hlen
  have hfits : snprintf (64 - (sys.inet_ntop (sockaddrInCast a).sin_addr).length)
      (':' :: number (networkToHost16 (sockaddrInCast a).sin_port).toNat) =
      ':' :: number (networkToHost16 (sockaddrInCast a).sin_port).toNat := snprintf_port [':'] _ (by simp; omega)
  rw [Sockets.toIpPort, if_neg hne, sockets_toIp_v4 doc (by decide) hf, ok_bind, check_pos (by omega), ok_bind, hfits]
  rfl

theorem sockets_toIpPort_v6 (doc : Documented sys) {addr : SockaddrIn6} (hf : addr.sin6_family = AF_INET6) :
    Sockets.toIpPort sys 64 (addr6_ addr) = .ok ('[' :: sys.inet_ntop6 addr.sin6_addr ++
      ']' :: ':' :: number (networkToHost16 addr.sin6_port).toNat) := by
  have hlen := doc.ntop6_length addr.sin6_addr
  have hfam : family (addr6_ addr) = AF_INET6 := hf
  unfold INET6_ADDRSTRLEN at hlen
  have hfits : snprintf (64 - ('[' :: sys.inet_ntop6 addr.sin6_addr).length)
      (']' :: ':' :: number (networkToHost16 addr.sin6_port).toNat) =
      ']' :: ':' :: number (networkToHost16 addr.sin6_port).toNat := snprintf_port [']', ':'] _ (by simp; omega)
  rw [Sockets.toIpPort, if_pos hfam, sockets_toIp_v6 doc (by decide) hf, ok_bind, sockaddrIn6Cast, ok_bind,
    check_pos (by simp; omega), ok_bind, hfits]
  rfl

theorem toIp_eq (doc : Documented sys) (h : endpoint a = some e) : toIp sys a = .ok (e.ip sys) := by
  rcases endpoint_cases h with ⟨addr, rfl, hf⟩ | ⟨addr, rfl, hf | hf⟩
  · rw [endpoint_addr_ hf] at h
    cases h
    exact sockets_toIp_v4 doc (by decide) hf
  · rw [endpoint_addr6_v4 hf] at h
    cases h
    exact sockets_toIp_v4 doc (by decide) hf
  · rw [endpoint_addr6_ hf] at h
    cases h
    exact sockets_toIp_v6 doc (by decide) hf

theorem toPortIp_eq (doc : Documented sys) (h : endpoint a = some e) : toPortIp sys a = .ok (e.portIp sys) := by
  rcases endpoint_cases h with ⟨addr, rfl, hf⟩ | ⟨addr, rfl, hf | hf⟩
  · rw [endpoint_addr_ hf] at h
    cases h
    exact sockets_toIpPort_v4 doc hf
  · rw [endpoint_addr6_v4 hf] at h
    cases h
    exact sockets_toIpPort_v4 doc hf
  · rw [endpoint_addr6_ hf] at h
    cases h
    exact sockets_toIpPort_v6 doc hf

/-! ## Reading it back -/

theorem text_ofCString {s : List Char} (h : nul ∉ s) : text s = s := by
  rw [text, List.takeWhile_eq_self_iff]
  intro c hc
  simpa using fun heq : c = nul => h (heq ▸ hc)

theorem ofIp_v4 {portArg : UInt16} {str : List Char} {addr : UInt32} (hnul : nul ∉ str) (hcolon : ':' ∉ str)
    (h : sys.inet_pton str = some addr) : ofIp sys.toResolver (.ofCString str) portArg false =
      .ok (addr_ ⟨AF_INET, hostToNetwork16 portArg, addr⟩, []) := by
  have hread : read (View.ofCString str).data = .ok str := by rw [read_ofCString, text_ofCString hnul]
  simp [ofIp, strchr, fromIpPort, hread, hcolon, h]

theorem ofIp_v6 {portArg : UInt16} {str : List Char} {addr : BitVec 128} (hnul : nul ∉ str) (hcolon : ':' ∈ str)
    (h : sys.inet_pton6 str = some addr) : ofIp sys.toResolver (.ofCString str) portArg false =
      .ok (addr6_ ⟨AF_INET6, hostToNetwork16 portArg, 0, addr, 0⟩, []) := by
  have hread : read (View.ofCString str).data = .ok str := by rw [read_ofCString, text_ofCString hnul]
  simp [ofIp, strchr, fromIpPort6, hread, hcolon, h]

theorem ofIp_ip (doc : Documented sys) (e : Endpoint) :
    ∃ a, ofIp sys.toResolver (.ofCString (e.ip sys)) e.port false = .ok (a, []) ∧ endpoint a = some e := by
  cases e with
  | v4 addr port =>
    refine ⟨_, ofIp_v4 (notMem_nul doc (.v4 addr port)) (notMem_ntop doc (by decide) (by decide) addr)
      (doc.pton_ntop addr), ?_⟩
    rw [endpoint_addr_ rfl, Endpoint.port, networkToHost16_hostToNetwork16]
  | v6 addr port =>
    refine ⟨_, ofIp_v6 (notMem_nul doc (.v6 addr port)) (doc.ntop6_colon addr) (doc.pton6_ntop6 addr), ?_⟩
    rw [endpoint_addr6_ rfl, Endpoint.port, networkToHost16_hostToNetwork16]

theorem portIp_v4_ne_v6 (doc : Documented sys) {x : UInt32} {y : BitVec 128} {p q : UInt16} :
    (Endpoint.v4 x p).portIp sys ≠ (Endpoint.v6 y q).portIp sys := by
  intro h
  -- the text of IPv6 begins with a bracket, which no text of IPv4 contains
  have hmem : '[' ∈ (Endpoint.v4 x p).portIp sys := by rw [h]; simp [Endpoint.portIp]
  simp only [Endpoint.portIp, Endpoint.ip, List.mem_append, List.mem_cons] at hmem
  rcases hmem with hmem | hmem | hmem
  · exact notMem_ntop doc (by decide) (by decide) x hmem
  · exact absurd hmem (by decide)
  · exact notMem_port (by decide) p hmem

theorem portIp_inj (doc : Documented sys) (h : e₁.portIp sys = e₂.portIp sys) : e₁ = e₂ := by
  cases e₁ with
  | v4 x p =>
    cases e₂ with
    | v4 y q =>
      simp only [Endpoint.portIp, Endpoint.ip] at h
      rw [List.append_cons_inj_of_notMem (notMem_ntop doc (by decide) (by decide) x) (notMem_port (by decide) p)] at h
      obtain ⟨haddr, -, hport⟩ := h
      have hxy := doc.pton_ntop x
      rw [haddr, doc.pton_ntop y, Option.some.injEq] at hxy
      rw [hxy, port_inj hport]
    | v6 y q => exact absurd h (portIp_v4_ne_v6 doc)
  | v6 x p =>
    cases e₂ with
    | v4 y q => exact absurd h.symm (portIp_v4_ne_v6 doc)
    | v6 y q =>
      simp only [Endpoint.portIp, Endpoint.ip, List.cons_append, List.cons.injEq, true_and] at h
      have hrest : ']' ∉ ':' :: number p.toNat := by
        simpa using notMem_port (by decide) p
      rw [List.append_cons_inj_of_notMem (notMem_ntop6 doc (by decide) (by decide) x) hrest] at h
      obtain ⟨haddr, -, hport⟩ := h
      have hxy := doc.pton6_ntop6 x
      rw [haddr, doc.pton6_ntop6 y, Option.some.injEq] at hxy
      rw [hxy, port_inj (List.cons.inj hport).2]

end

/-! ## A library -/

def joined (base : Nat) (separator : Char) (ns : List Nat) : List Char :=
  [separator].intercalate (ns.map (Nat.toDigits base))

def digitValue (c : Char) : Nat := if c.isDigit then c.toNat - 48 else c.toNat - 87

def digitsValue (base : Nat) (cs : List Char) : Nat := cs.foldl (fun v c => base * v + digitValue c) 0

def splitNumbers (base : Nat) (separator : Char) (str : List Char) : List Nat :=
  (str.splitOn separator).map (digitsValue base)

theorem digitChar_spec {d : Nat} (hd : d < 16) : digitValue d.digitChar = d ∧
    (d.digitChar.isDigit ∨ d.digitChar ∈ ['a', 'b', 'c', 'd', 'e', 'f']) := by
  revert d
  decide

theorem toDigits_spec {base : Nat} (hb : 1 < base) (hb16 : base ≤ 16) (n : Nat) :
    digitsValue base (Nat.toDigits base n) = n ∧ ∀ c ∈ Nat.toDigits base n, ∃ d < base, c = d.digitChar := by
  induction n using Nat.strongRecOn with
  | ind n ih =>
    by_cases hn : n < base
    · rw [Nat.toDigits_of_lt_base hn]
      constructor
      · simp [digitsValue, (digitChar_spec (d := n) (by omega)).1]
      · intro c hc
        exact ⟨n, hn, List.mem_singleton.mp hc⟩
    · have hmod := Nat.mod_lt n (by omega : 0 < base)
      have hdiv : n / base < n := Nat.div_lt_self (by omega) hb
      rw [Nat.toDigits_of_base_le hb (by omega)]
      constructor
      · rw [digitsValue, List.foldl_append, ← digitsValue, (ih _ hdiv).1]
        simp only [List.foldl_cons, List.foldl_nil, (digitChar_spec (d := n % base) (by omega)).1]
        exact Nat.div_add_mod n base
      · intro c hc
        rcases List.mem_append.mp hc with hc | hc
        · exact (ih _ hdiv).2 c hc
        · exact ⟨n % base, hmod, List.mem_singleton.mp hc⟩

section
variable {base : Nat} {separator : Char}

theorem mem_joined (hb : 1 < base) (hb16 : base ≤ 16) {ns : List Nat} {c : Char} (hc : c ∈ joined base separator ns) :
    (∃ d < base, c = d.digitChar) ∨ c = separator := by
  induction ns with
  | nil => exact absurd hc (by simp [joined])
  | cons n ns ih =>
    cases ns with
    | nil =>
      rw [joined, List.map_singleton, List.intercalate_singleton] at hc
      exact .inl ((toDigits_spec hb hb16 n).2 c hc)
    | cons m ns =>
      rw [joined, List.map_cons, List.map_cons, List.intercalate_cons_cons, List.mem_append, List.mem_append,
        List.mem_singleton] at hc
      rcases hc with (hc | hc) | hc
      · exact .inl ((toDigits_spec hb hb16 n).2 c hc)
      · exact .inr hc
      · exact ih hc

theorem length_joined {k : Nat} {ns : List Nat} (hb : 1 < base) (hk : 0 < k) (hne : ns ≠ [])
    (hns : ∀ n ∈ ns, n < base ^ k) : (joined base separator ns).length < ns.length * (k + 1) := by
  induction ns with
  | nil => exact absurd rfl hne
  | cons n ns ih =>
    have hn := (Nat.length_toDigits_le_iff hb hk).mpr (hns n List.mem_cons_self)
    cases ns with
    | nil =>
      rw [joined, List.map_singleton, List.intercalate_singleton, List.length_singleton]
      omega
    | cons m ns =>
      have ih := ih (by simp) fun x hx => hns x (List.mem_cons_of_mem n hx)
      rw [joined, List.map_cons] at ih
      rw [joined, List.map_cons, List.map_cons, List.intercalate_cons_cons, List.length_append, List.length_append,
        List.length_singleton, List.length_cons, Nat.succ_mul]
      omega

theorem splitNumbers_joined (hb : 1 < base) (hb16 : base ≤ 16) (hsep : ∀ d < base, separator ≠ d.digitChar)
    {ns : List Nat} (hne : ns ≠ []) : splitNumbers base separator (joined base separator ns) = ns := by
  rw [splitNumbers, joined, List.splitOn_intercalate]
  · rw [List.map_map]
    exact List.map_id'' (fun n => (toDigits_spec hb hb16 n).1) ns
  · intro l hl hmem
    obtain ⟨n, -, rfl⟩ := List.mem_map.mp hl
    obtain ⟨d, hd, hc⟩ := (toDigits_spec hb hb16 n).2 separator hmem
    exact hsep d hd hc
  · simpa using hne

end

def octets (addr : UInt32) : List Nat :=
  [addr.toNat % 256, addr.toNat / 256 % 256, addr.toNat / 65536 % 256, addr.toNat / 16777216]

def ofOctets : List Nat → Option UInt32
  | [a, b, c, d] => some (.ofNat (a + 256 * (b + 256 * (c + 256 * d))))
  | _ => none

def groups (addr : BitVec 128) : List Nat :=
  [addr.toNat / 2 ^ 112, addr.toNat / 2 ^ 96 % 65536, addr.toNat / 2 ^ 80 % 65536, addr.toNat / 2 ^ 64 % 65536,
    addr.toNat / 2 ^ 48 % 65536, addr.toNat / 2 ^ 32 % 65536, addr.toNat / 2 ^ 16 % 65536, addr.toNat % 65536]

def ofGroups (ns : List Nat) : Option (BitVec 128) :=
  if ns.length = 8 then some (.ofNat 128 (ns.foldl (fun v n => 65536 * v + n) 0)) else none

/-- Every address is written in full. The library leaves out a run of zero groups, where there is one. -/
def uncompressed : Presentation where
  inet_pton str := ofOctets (splitNumbers 10 '.' str)
  inet_pton6 str := ofGroups (splitNumbers 16 ':' str)
  gethostbyname_r _ := (0, none)
  inet_ntop addr := joined 10 '.' (octets addr)
  inet_ntop6 addr := joined 16 ':' (groups addr)

theorem ofOctets_octets (addr : UInt32) : ofOctets (octets addr) = some addr := by
  have haddr := addr.toNat_lt
  rw [octets, ofOctets, Option.some.injEq]
  apply UInt32.toNat_inj.mp
  rw [UInt32.toNat_ofNat']
  omega

theorem ofGroups_groups (addr : BitVec 128) : ofGroups (groups addr) = some addr := by
  have haddr := addr.isLt
  simp only [groups, ofGroups, List.length_cons, List.length_nil, Nat.reduceAdd, if_true, Option.some.injEq,
    List.foldl_cons, List.foldl_nil]
  apply BitVec.eq_of_toNat_eq
  rw [BitVec.toNat_ofNat]
  omega

theorem uncompressed_documented : Documented uncompressed where
  ntop_chars addr c hc := by
    rcases mem_joined (by decide) (by decide) hc with ⟨d, hd, rfl⟩ | rfl
    · clear hc
      exact .inl (by revert d; decide)
    · exact .inr rfl
  ntop_length addr := by
    have haddr := addr.toNat_lt
    exact length_joined (k := 3) (by decide) (by decide) (by simp [octets]) (by simp [octets]; omega)
  pton_ntop addr := by
    simp only [uncompressed]
    rw [splitNumbers_joined (by decide) (by decide) (by decide) (by simp [octets]), ofOctets_octets]
  ntop6_chars addr c hc := by
    rcases mem_joined (by decide) (by decide) hc with ⟨d, hd, rfl⟩ | rfl
    · clear hc
      revert d
      decide
    · exact .inr (by decide)
  ntop6_colon addr := by
    simp [uncompressed, joined, groups, List.intercalate_cons_cons]
  ntop6_length addr := by
    have haddr := addr.isLt
    have hlen : (joined 16 ':' (groups addr)).length < (groups addr).length * (4 + 1) :=
      length_joined (by decide) (by decide) (by simp [groups]) (by simp [groups]; omega)
    exact hlen.trans (by simp [groups, INET6_ADDRSTRLEN])
  pton6_ntop6 addr := by
    simp only [uncompressed]
    rw [splitNumbers_joined (by decide) (by decide) (by decide) (by simp [groups]), ofGroups_groups]

/-- **An address is what its text says.** Take two objects that the constructors and the methods have made. The
text of each is written without a fault and in full. The text of the address and the port make an object
that leads where it does, without a line in the log. And the two have the same text with the port exactly
if they lead to the same endpoint. -/
theorem text_identifies (sys : Presentation) (doc : Documented sys) (a b : InetAddress) (ha : Made sys.toResolver a)
    (hb : Made sys.toResolver b) :
    ∃ ea eb, endpoint a = some ea ∧ endpoint b = some eb ∧
      (toIp sys a = .ok (ea.ip sys) ∧ toPortIp sys a = .ok (ea.portIp sys)) ∧
      (∃ back, ofIp sys.toResolver (.ofCString (ea.ip sys)) (port a) false = .ok (back, []) ∧ endpoint back = some ea) ∧
      (toPortIp sys a = toPortIp sys b ↔ ea = eb) := by
  obtain ⟨ea, hea⟩ := ha.endpoint
  obtain ⟨eb, heb⟩ := hb.endpoint
  refine ⟨ea, eb, hea, heb, ⟨toIp_eq doc hea, toPortIp_eq doc hea⟩, ?_, ?_⟩
  · rw [port_of_endpoint hea]
    exact ofIp_ip doc ea
  · rw [toPortIp_eq doc hea, toPortIp_eq doc heb, Except.ok.injEq]
    exact ⟨portIp_inj doc, fun h => h ▸ rfl⟩

theorem text_identifies_loopback : ∃ ea eb,
    (endpoint (ofPort 80 true false) = some ea ∧ ea.portIp uncompressed = "127.0.0.1:80".toList) ∧
      (endpoint (addr6_ ⟨AF_INET6, hostToNetwork16 443, 0, 0x20010db8000100020003000400050006, 2⟩) = some eb ∧
        eb.portIp uncompressed = "[2001:db8:1:2:3:4:5:6]:443".toList) ∧
      ¬ toPortIp uncompressed (ofPort 80 true false) = toPortIp uncompressed
        (addr6_ ⟨AF_INET6, hostToNetwork16 443, 0, 0x20010db8000100020003000400050006, 2⟩) := by
  obtain ⟨ea, eb, hea, heb, -, -, hiff⟩ := text_identifies uncompressed uncompressed_documented
    (ofPort 80 true false) (addr6_ ⟨AF_INET6, hostToNetwork16 443, 0, 0x20010db8000100020003000400050006, 2⟩)
    (.ofPort 80 true false) (.ofSockaddrIn6 (.inr rfl))
  have hport : networkToHost16 (hostToNetwork16 443) = 443 := by decide
  have ha : Endpoint.v4 0x0100007f 80 = ea := by
    rw [ofPort, if_neg (by decide), endpoint_addr_ rfl] at hea
    exact Option.some.inj (Eq.trans (by decide) hea)
  have hb : Endpoint.v6 0x20010db8000100020003000400050006 443 = eb := by
    rw [endpoint_addr6_ rfl, hport] at heb
    exact Option.some.inj heb
  subst ha hb
  exact ⟨_, _, ⟨hea, by decide⟩, ⟨heb, by decide⟩, fun h => absurd (hiff.mp h) (by decide)⟩

end MyLearning.InetAddress
