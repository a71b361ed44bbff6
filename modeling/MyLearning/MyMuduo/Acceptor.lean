import Mathlib.Data.List.Basic
import MyLearning.Lib.Checked
import MyLearning.Lib.Lts

/-!
# Accepting connections

`Acceptor::handleRead()` with the layers below it: `Socket::accept`, `sockets::accept`, which
sorts the errors of `accept4`, and the logger, whose destructor aborts on a fatal message.
What the kernel returns and what the output of a log statement leaves in `errno` is the
argument `Outcome`; `newConnectionCallback_` is whether one was set, and a call of it what it
is called with. Between two calls the rest of the process may open and close
descriptors, but none that the acceptor holds.

`conns` records for each accepted connection its peer, the addresses it was passed on with
and how often the acceptor closed it; no function reads them. An aborted process takes no step.
-/

namespace MyLearning

inductive Errno where
  | EAGAIN
  | ECONNABORTED
  | EINTR
  | EPERM
  | EMFILE
  | EBADF
  | EFAULT
  | EINVAL
  | ENFILE
  | ENOBUFS
  | ENOMEM
  | ENOTSOCK
  | EOPNOTSUPP
  | other (n : Nat)
  deriving DecidableEq, Repr

inductive LogLevel where
  | TRACE
  | DEBUG
  | INFO
  | WARN
  | ERROR
  | FATAL
  deriving DecidableEq, Repr

def LogLevel.ofToAbort (toAbort : Bool) : LogLevel := if toAbort then .FATAL else .ERROR

namespace Acceptor

/-- What a descriptor stands for; connections are known by their place in `conns`. -/
inductive Desc where
  | devNull
  | conn (k : Nat)
  | other
  deriving DecidableEq, Repr

structure Conn (A : Type) where
  peer : A
  passed : List A
  closes : Nat
  deriving DecidableEq, Repr

structure State (A : Type) where
  newConnectionCallback_ : Bool
  idleFd_ : Int
  errno : Errno
  fds : Nat → Option Desc
  conns : List (Conn A)
  aborted : Bool

def opened {A : Type} (fd : Nat) : State A where
  newConnectionCallback_ := false
  idleFd_ := fd
  errno := .other 0
  fds := Function.update (fun _ => none) fd (some .devNull)
  conns := []
  aborted := false

/-- What `accept4`, `accept` and `open` return in one call of `handleRead()`, and what a log
statement leaves in `errno` where it does not leave it alone. -/
structure Outcome (A : Type) where
  accept4 : Except Errno (Nat × A)
  log : Option Errno
  accept : Except Errno (Nat × A)
  devNull : Nat

variable {A : Type}

/-! ## The system calls -/

def accepted (s : State A) (fd : Nat) (peer : A) : State A :=
  { s with
    fds := Function.update s.fds fd (some (.conn s.conns.length)),
    conns := s.conns ++ [⟨peer, [], 0⟩] }

def sysAccept (s : State A) : Except Errno (Nat × A) → Int × Option A × State A
  | .ok (fd, peer) => (fd, some peer, accepted s fd peer)
  | .error e => (-1, none, { s with errno := e })

def sysClose (s : State A) : Int → State A
  | .ofNat fd =>
    match s.fds fd with
    | some (.conn k) =>
      { s with
        fds := Function.update s.fds fd none,
        conns := s.conns.modify k fun c => { c with closes := c.closes + 1 } }
    | some _ => { s with fds := Function.update s.fds fd none }
    | none => { s with errno := .EBADF }
  | .negSucc _ => { s with errno := .EBADF }

def openDevNull (s : State A) (fd : Nat) : Int × State A :=
  (fd, { s with fds := Function.update s.fds fd (some .devNull) })

/-! ## Logging -/

def log (level : LogLevel) (out : Option Errno) (s : State A) : Except Fault (State A) :=
  if level = .FATAL then .error .fatal else .ok { s with errno := out.getD s.errno }

def logFatal (out : Option Errno) (s : State A) : Except Fault (State A) := log .FATAL out s

def logSysErr (out : Option Errno) (s : State A) : Except Fault (State A) := log (.ofToAbort false) out s

def logSysFatal (out : Option Errno) (s : State A) : Except Fault (State A) := log (.ofToAbort true) out s

/-! ## The functions of the source -/

def socketsAccept (s : State A) (o : Outcome A) : Except Fault (Int × Option A × State A) := do
  let (connfd, addr, s) := sysAccept s o.accept4
  if connfd < 0 then
    let savedErrno := s.errno
    let s ← logSysFatal o.log s
    match savedErrno with
    | .EAGAIN | .ECONNABORTED | .EINTR | .EPERM | .EMFILE => return (connfd, addr, { s with errno := savedErrno })
    | .EBADF | .EFAULT | .EINVAL | .ENFILE | .ENOBUFS | .ENOMEM | .ENOTSOCK | .EOPNOTSUPP => do
      let s ← logFatal o.log s
      return (connfd, addr, s)
    | .other _ => do
      let s ← logFatal o.log s
      return (connfd, addr, s)
  else return (connfd, addr, s)

/-- `Socket::accept`; without an address `peeraddr` keeps its value. -/
def socketAccept (s : State A) (o : Outcome A) (peeraddr : A) : Except Fault (Int × A × State A) := do
  let (connfd, addr, s) ← socketsAccept s o
  if 0 ≤ connfd then return (connfd, addr.getD peeraddr, s) else return (connfd, peeraddr, s)

def newConnectionCallback (s : State A) (sockfd : Int) (peerAddr : A) : State A :=
  match s.fds sockfd.toNat with
  | some (.conn k) => { s with conns := s.conns.modify k fun c => { c with passed := c.passed ++ [peerAddr] } }
  | _ => s

/-- What `handleRead` does on `EMFILE`: the idle descriptor makes room for a connection, which is
closed at once. -/
def swapIdleFd (s : State A) (o : Outcome A) : State A :=
  let s := sysClose s s.idleFd_
  let (fd, _, s) := sysAccept s o.accept
  let s := sysClose { s with idleFd_ := fd } fd
  let (fd, s) := openDevNull s o.devNull
  { s with idleFd_ := fd }

def handleRead [Inhabited A] (s : State A) (o : Outcome A) : Except Fault (State A) := do
  let (connfd, peerAddr, s) ← socketAccept s o default
  if connfd > 0 then
    if s.newConnectionCallback_ then return newConnectionCallback s connfd peerAddr
    else return sysClose s connfd
  else
    let s ← logSysErr o.log s
    if s.errno = .EMFILE then return swapIdleFd s o else return s

/-! ## The system -/

inductive Act (A : Type) where
  | handleRead (o : Outcome A)
  | setNewConnectionCallback (cb : Bool)
  | others (fds : Nat → Option Desc) (errno : Errno)

/-- The kernel gives out only descriptors that are not open. -/
structure Delivered (s : State A) (o : Outcome A) : Prop where
  accept4 : ∀ fd peer, o.accept4 = .ok (fd, peer) → s.fds fd = none
  accept : ∀ fd peer, o.accept = .ok (fd, peer) → (s.fds fd = none ∨ s.idleFd_ = fd) ∧ ∀ peer, o.accept4 ≠ .ok (fd, peer)
  devNull : (s.fds o.devNull = none ∨ s.idleFd_ = o.devNull) ∧ ∀ peer, o.accept4 ≠ .ok (o.devNull, peer)

def Holds (s : State A) (fd : Nat) : Prop :=
  s.idleFd_ = fd ∨ ∃ k c, s.fds fd = some (.conn k) ∧ s.conns[k]? = some c ∧ c.passed = []

/-- The rest of the process makes no connections and leaves alone what the acceptor holds. -/
def Keeps (s : State A) (fds : Nat → Option Desc) : Prop :=
  ∀ fd, fds fd = s.fds fd ∨ ¬ Holds s fd ∧ (fds fd = none ∨ fds fd = some .other)

def next (s : State A) : Except Fault (State A) → State A
  | .ok t => t
  | .error _ => { s with aborted := true }

def lts [Inhabited A] : Lts (State A) (Act A) where
  init s := (∃ fd : Nat, s.idleFd_ = fd ∧ s.fds fd = some .devNull) ∧ s.conns = [] ∧ s.aborted = false
  step s a t := s.aborted = false ∧
    match a with
    | .handleRead o => Delivered s o ∧ t = next s (handleRead s o)
    | .setNewConnectionCallback cb => t = { s with newConnectionCallback_ := cb }
    | .others fds errno => Keeps s fds ∧ t = { s with fds := fds, errno := errno }

end Acceptor

end MyLearning
