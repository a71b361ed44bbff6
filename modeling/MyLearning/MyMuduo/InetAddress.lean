import MyLearning.Lib.CString

/-!
# Addresses from text

The constructor of `InetAddress` from an IP and `InetAddress::resolve` take a `std::string_view` and hand its
`data()` to functions of the C library. So they read the string up to the next NUL, wherever the
view ends: they depend on the view alone exactly if the string in memory ends with it.

`inet_pton` and `gethostbyname_r` are parameters, functions of the string they are given. Each
function also returns the lines that it logs.
-/

namespace MyLearning

def AF_INET : Nat := 2

def AF_INET6 : Nat := 10

structure SockaddrIn where
  sin_family : Nat
  sin_port : UInt16
  sin_addr : UInt32
  deriving DecidableEq

structure SockaddrIn6 where
  sin6_family : Nat
  sin6_port : UInt16
  sin6_flowinfo : UInt32
  sin6_addr : BitVec 128
  sin6_scope_id : UInt32
  deriving DecidableEq

/-- The member of the union that was written last. -/
inductive InetAddress where
  | addr_ (addr : SockaddrIn)
  | addr6_ (addr : SockaddrIn6)
  deriving DecidableEq

/-- `h_addr` are the first four bytes that the pointer leads to. -/
structure Hostent where
  h_addrtype : Int
  h_length : Int
  h_addr : UInt32

/-- `inet_pton` for the two families, `none` where it returns zero or less, and the result of
`gethostbyname_r` with what it leaves in `he`. -/
structure Resolver where
  inet_pton : List Char → Option UInt32
  inet_pton6 : List Char → Option (BitVec 128)
  gethostbyname_r : List Char → Int × Option Hostent

namespace InetAddress

open CString

/-! ## The functions of the source -/

def hostToNetwork16 (host16 : UInt16) : UInt16 := (host16 <<< 8) ||| (host16 >>> 8)

section
variable (sys : Resolver)

def fromIpPort (ip : List Char) (port : UInt16) (addr : SockaddrIn) : Except Fault (SockaddrIn × List String) := do
  let addr := { addr with sin_family := AF_INET, sin_port := hostToNetwork16 port }
  match sys.inet_pton (← read ip) with
  | some sin_addr => return ({ addr with sin_addr := sin_addr }, [])
  | none => return (addr, ["fromIpPort()"])

def fromIpPort6 (ip : List Char) (port : UInt16) (addr : SockaddrIn6) : Except Fault (SockaddrIn6 × List String) := do
  let addr := { addr with sin6_family := AF_INET6, sin6_port := hostToNetwork16 port }
  match sys.inet_pton6 (← read ip) with
  | some sin6_addr => return ({ addr with sin6_addr := sin6_addr }, [])
  | none => return (addr, ["fromIpPort()"])

def ofIp (ip : View) (portArg : UInt16) (ipv6 : Bool) : Except Fault (InetAddress × List String) := do
  if ← (if ipv6 then pure true else strchr ip.data ':') then
    let (addr6, log) ← fromIpPort6 sys ip.data portArg ⟨0, 0, 0, 0, 0⟩
    return (addr6_ addr6, log)
  else
    let (addr, log) ← fromIpPort sys ip.data portArg ⟨0, 0, 0⟩
    return (addr_ addr, log)

/-- `out->addr_.sin_addr = ...`: in the other member these bytes are `sin6_flowinfo`. -/
def setSinAddr (out : InetAddress) (sin_addr : UInt32) : InetAddress :=
  match out with
  | addr_ addr => addr_ { addr with sin_addr := sin_addr }
  | addr6_ addr => addr6_ { addr with sin6_flowinfo := sin_addr }

/-- What the call returns, and `*out` afterwards. -/
def resolve (hostname : View) (out : Option InetAddress) : Except Fault ((Bool × InetAddress) × List String) := do
  match out with
  | none => .error .assertion
  | some out =>
    match sys.gethostbyname_r (← read hostname.data) with
    | (0, some he) =>
      check (he.h_addrtype = AF_INET ∧ he.h_length = 4)
      return ((true, setSinAddr out he.h_addr), [])
    | (ret, _) => return ((false, out), if ret ≠ 0 then ["resolve()"] else [])

end

/-! ## What the calls see of a view -/

section
variable {sys : Resolver} {str : List Char}

/-- The address of a string: a colon makes it one of IPv6. -/
def ofText (sys : Resolver) (str : List Char) (port : UInt16) (ipv6 : Bool) : InetAddress :=
  if ipv6 = true ∨ ':' ∈ str then
    addr6_ ⟨AF_INET6, hostToNetwork16 port, 0, (sys.inet_pton6 str).getD 0, 0⟩
  else addr_ ⟨AF_INET, hostToNetwork16 port, (sys.inet_pton str).getD 0⟩

theorem ofIp_read {ip : View} {port : UInt16} {ipv6 : Bool} (hread : read ip.data = .ok str) :
    (ofIp sys ip port ipv6).map Prod.fst = .ok (ofText sys str port ipv6) := by
  have hcolon : (if ipv6 then pure true else strchr ip.data ':') = .ok (decide (ipv6 = true ∨ ':' ∈ str)) := by
    cases ipv6 with
    | true => simp
    | false => simp [strchr, hread]
  unfold ofIp ofText
  rw [hcolon, ok_bind]
  by_cases h6 : ipv6 = true ∨ ':' ∈ str
  · simp only [h6, decide_true, if_true, fromIpPort6, hread, ok_bind]
    cases sys.inet_pton6 str with
    | none => rfl
    | some a => rfl
  · simp only [h6, decide_false, if_false, fromIpPort, hread, ok_bind]
    cases sys.inet_pton str with
    | none => rfl
    | some a => rfl

theorem resolve_read {v w : View} {out : Option InetAddress} (h : read v.data = read w.data) :
    resolve sys v out = resolve sys w out := by
  unfold resolve
  rw [h]

theorem read_within (s t : List Char) : read (View.within s t).data = .ok (text (s ++ t)) := read_terminated (s ++ t)

theorem read_ofCString (s : List Char) : read (View.ofCString s).data = .ok (text s) := read_terminated s

end

/-! ## Two runs -/

/-- The view of `s` in front of `t` gives the address that the string `s` gives. -/
def SameAddress (sys : Resolver) (s t : List Char) (port : UInt16) (ipv6 : Bool) : Prop :=
  (ofIp sys (.within s t) port ipv6).map Prod.fst = (ofIp sys (.ofCString s) port ipv6).map Prod.fst

def SameHost (sys : Resolver) (s t : List Char) (out : Option InetAddress) : Prop :=
  (resolve sys (.within s t) out).map Prod.fst = (resolve sys (.ofCString s) out).map Prod.fst

section
variable {sys : Resolver} {s t str : List Char} {port : UInt16} {ipv6 : Bool} {out : InetAddress}

theorem sameAddress_iff : SameAddress sys s t port ipv6 ↔
    ofText sys (text (s ++ t)) port ipv6 = ofText sys (text s) port ipv6 := by
  rw [SameAddress, ofIp_read (read_within s t), ofIp_read (read_ofCString s), Except.ok.injEq]

def knowsOnly (name : List Char) : Resolver where
  inet_pton str := if str = name then some 1 else none
  inet_pton6 str := if str = name then some 1 else none
  gethostbyname_r str := if str = name then (0, some ⟨AF_INET, 4, 1⟩) else (1, none)

theorem ofText_knowsOnly (hne : str ≠ s) : ofText (knowsOnly s) str port ipv6 ≠ ofText (knowsOnly s) s port ipv6 := by
  unfold ofText knowsOnly
  by_cases h : ipv6 = true ∨ ':' ∈ str
  · by_cases h' : ipv6 = true ∨ ':' ∈ s
    · simp [h, h', hne]
    · simp [h, h']
  · by_cases h' : ipv6 = true ∨ ':' ∈ s
    · simp [h, h']
    · simp [h, h', hne]

theorem resolve_knowsOnly {v : View} (hread : read v.data = .ok str) :
    (resolve (knowsOnly s) v (some out)).map Prod.fst =
      .ok (decide (str = s), if str = s then setSinAddr out 1 else out) := by
  unfold resolve knowsOnly
  simp only [hread, ok_bind]
  by_cases h : str = s
  · simp only [h, if_true, decide_true]
    rfl
  · simp only [h, if_false, decide_false]
    rfl

theorem sameAddress_forall_iff : (∀ sys, SameAddress sys s t port ipv6) ↔ Ends s t := by
  constructor
  · intro h
    by_contra hends
    rw [← text_append_iff] at hends
    exact ofText_knowsOnly hends (sameAddress_iff.mp (h (knowsOnly (text s))))
  · intro hends sys
    rw [sameAddress_iff, (text_append_iff s t).mpr hends]

theorem sameHost_forall_iff : (∀ sys, SameHost sys s t (some out)) ↔ Ends s t := by
  constructor
  · intro h
    by_contra hends
    rw [← text_append_iff] at hends
    have hsame := h (knowsOnly (text s))
    rw [SameHost, resolve_knowsOnly (read_within s t), resolve_knowsOnly (read_ofCString s)] at hsame
    simp [hends] at hsame
  · intro hends sys
    rw [SameHost, resolve_read (w := .ofCString s)]
    rw [read_within, read_ofCString, (text_append_iff s t).mpr hends]

end

/-- **What follows the view.** Whatever the library knows, the view of `s` in front of `t` gives the address
and the host that the string `s` gives, if and only if `s` has a NUL in it or `t` is empty or begins with one. -/
theorem depends_on_view_iff (s t : List Char) :
    (∀ port ipv6, (∀ sys, SameAddress sys s t port ipv6) ↔ Ends s t) ∧
      ∀ out, (∀ sys, SameHost sys s t (some out)) ↔ Ends s t :=
  ⟨fun _ _ => sameAddress_forall_iff, fun _ => sameHost_forall_iff⟩

def local4 : Resolver where
  inet_pton str := if str = "127.0.0.1".toList then some 0x0100007f else none
  inet_pton6 _ := none
  gethostbyname_r str := if str = "localhost".toList then (0, some ⟨AF_INET, 4, 0x0100007f⟩) else (0, none)

/-- The host part of a `host:port` is neither the address nor the name that it is by itself. -/
theorem host_of_host_port : ¬ SameAddress local4 "127.0.0.1".toList ":80".toList 80 false ∧
    ¬ SameHost local4 "localhost".toList ":80".toList (some (addr_ ⟨0, 0, 0⟩)) := by
  constructor
  · rw [sameAddress_iff]
    decide
  · unfold SameHost
    decide

end InetAddress

end MyLearning
