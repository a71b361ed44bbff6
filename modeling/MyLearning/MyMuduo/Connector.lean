import Mathlib.Data.List.Nodup
import MyLearning.Lib.Checked
import MyLearning.Lib.Lts

/-!
# The connector

`Connector` opens a socket, connects it without blocking and watches it with a
channel until it is writable; a failed attempt is retried after a delay that grows.
`start()` and `stop()` only set the flag `connect_` and queue the rest for the loop,
`restart()` runs in the loop thread at once. The functions are those of the source;
a socket is the number of its creation.

The outcome of `connect(2)` and what `handleWrite` reads from the socket are
arguments of the actions. While the channel's callbacks run (`todo` are those still
to come) and while `newConnectionCallback_` runs (`inUser`), control is not in the loop.
`created`, `closed`, `passed`, `request` and `refused` record what happened to the
sockets, the last user call and whether a non-retryable errno was met; no function
reads them.
-/

namespace MyLearning.Connector

def kInitRetryDelayMs : Nat := 500
def kMaxRetryDelayMs : Nat := 30 * 1000

inductive States where
  | kDisConnected
  | kConnecting
  | kConnected
  deriving DecidableEq, Repr

/-- `errno` after `connect(2)`, 0 where it succeeded. -/
inductive SavedError where
  | zero
  | EINPROGRESS
  | EINTR
  | EISCONN
  | EAGAIN
  | EADDRINUSE
  | EADDRNOTAVAIL
  | ECONNREFUSED
  | ENETUNREACH
  | EACCES
  | EPERM
  | EAFNOSUPPORT
  | EALREADY
  | EBADF
  | EFAULT
  | ENOTSOCK
  | other (errno : Nat)
  deriving DecidableEq, Repr

inductive PendingFunctor where
  | startInLoop
  | stopInLoop
  | resetChannel
  deriving DecidableEq, Repr

inductive Callback where
  | write
  | error
  deriving DecidableEq, Repr

inductive Request where
  | start
  | stop
  | restart
  deriving DecidableEq, Repr

structure Channel where
  fd : Nat
  registered : Bool
  deriving DecidableEq, Repr

structure State where
  connect : Bool
  state : States
  channel : Option Channel
  retryDelayMs : Nat
  pendingFunctors : List PendingFunctor
  timers : List Nat
  todo : List Callback
  inUser : Bool
  created : Nat
  closed : List Nat
  passed : List Nat
  request : Option Request
  refused : Bool
  deriving DecidableEq, Repr

def initial : State where
  connect := false
  state := .kDisConnected
  channel := none
  retryDelayMs := kInitRetryDelayMs
  pendingFunctors := []
  timers := []
  todo := []
  inUser := false
  created := 0
  closed := []
  passed := []
  request := none
  refused := false

/-! ## The functions of the source -/

def setState (s : State) (x : States) : State := { s with state := x }

def close (s : State) (sockfd : Nat) : State := { s with closed := s.closed ++ [sockfd] }

def queueInLoop (s : State) (cb : PendingFunctor) : State := { s with pendingFunctors := s.pendingFunctors ++ [cb] }

def start (s : State) : State := queueInLoop { s with connect := false, request := some .start } .startInLoop

def stop (s : State) : State := queueInLoop { s with connect := false, request := some .stop } .stopInLoop

def retry (s : State) (sockfd : Nat) : State :=
  let s := setState (close s sockfd) .kDisConnected
  if s.connect then
    { s with timers := s.timers ++ [s.retryDelayMs], retryDelayMs := min (s.retryDelayMs * 2) kMaxRetryDelayMs }
  else s

def connecting (s : State) (sockfd : Nat) : Except Fault State := do
  let s := setState s .kConnecting
  check (s.channel = none)
  return { s with channel := some ⟨sockfd, true⟩ }

def connect (s : State) (savedError : SavedError) : Except Fault State :=
  let sockfd := s.created
  let s := { s with created := s.created + 1 }
  match savedError with
  | .zero | .EINPROGRESS | .EINTR | .EISCONN => connecting s sockfd
  | .EAGAIN | .EADDRINUSE | .EADDRNOTAVAIL | .ECONNREFUSED | .ENETUNREACH => .ok (retry s sockfd)
  | .EACCES | .EPERM | .EAFNOSUPPORT | .EALREADY | .EBADF | .EFAULT | .ENOTSOCK | .other _ =>
    .ok (close { s with refused := true } sockfd)

def startInLoop (s : State) (savedError : SavedError) : Except Fault State := do
  check (s.state = .kDisConnected)
  if s.connect then connect s savedError else return s

def restart (s : State) (savedError : SavedError) : Except Fault State :=
  startInLoop { setState s .kDisConnected with
    retryDelayMs := kInitRetryDelayMs, connect := true, request := some .restart } savedError

def removeAndResetChannel (s : State) : Except Fault (Nat × State) :=
  match s.channel with
  | none => .error .dangling
  | some c => .ok (c.fd, queueInLoop { s with channel := some { c with registered := false } } .resetChannel)

def resetChannel (s : State) : State := { s with channel := none }

def stopInLoop (s : State) : Except Fault State :=
  if s.state = .kConnecting then do
    let (sockfd, s) ← removeAndResetChannel (setState s .kDisConnected)
    return retry s sockfd
  else .ok s

/-- The call hands the socket over; what the user does in it are the next actions. -/
def newConnectionCallback (s : State) (sockfd : Nat) : State :=
  { s with passed := s.passed ++ [sockfd], inUser := true }

def handleWrite (s : State) (err isSelfConnect : Bool) : Except Fault State :=
  if s.state = .kConnecting then do
    let (sockfd, s) ← removeAndResetChannel s
    if err then return retry s sockfd
    else if isSelfConnect then return retry s sockfd
    else
      let s := setState s .kConnected
      if s.connect then return newConnectionCallback s sockfd else return close s sockfd
  else do
    check (s.state = .kDisConnected)
    return s

def handleError (s : State) : Except Fault State :=
  if s.state = .kConnecting then do
    let (sockfd, s) ← removeAndResetChannel s
    return retry s sockfd
  else .ok s

/-! ## The system -/

inductive Act where
  | start
  | stop
  | restart (savedError : SavedError)
  | runFunctor (savedError : SavedError)
  | runTimer (i : Nat) (savedError : SavedError)
  | handleEvent (callbacks : List Callback)
  | callback (err isSelfConnect : Bool)
  | endUser
  deriving DecidableEq, Repr

/-- Control is in the loop, outside the channel's callbacks. -/
def InLoop (s : State) : Prop := s.todo = [] ∧ s.inUser = false

instance (s : State) : Decidable (InLoop s) := inferInstanceAs (Decidable (_ ∧ _))

/-- The loop runs the queued functors in order and the retry timers in any order. An
event on the channel runs some of its callbacks, each at most once. -/
def step (s : State) : Act → Option (Except Fault State)
  | .start => some (.ok (start s))
  | .stop => some (.ok (stop s))
  | .restart savedError => if s.todo = [] ∨ s.inUser = true then some (restart s savedError) else none
  | .runFunctor savedError =>
    if InLoop s then
      match s.pendingFunctors with
      | [] => none
      | .startInLoop :: rest => some (startInLoop { s with pendingFunctors := rest } savedError)
      | .stopInLoop :: rest => some (stopInLoop { s with pendingFunctors := rest })
      | .resetChannel :: rest => some (.ok (resetChannel { s with pendingFunctors := rest }))
    else none
  | .runTimer i savedError =>
    if InLoop s ∧ i < s.timers.length then
      some (startInLoop { s with timers := s.timers.eraseIdx i } savedError)
    else none
  | .handleEvent callbacks =>
    if InLoop s ∧ s.channel.any (·.registered) = true ∧ callbacks.Nodup then
      some (.ok { s with todo := callbacks })
    else none
  | .callback err isSelfConnect =>
    if s.inUser = true then none
    else
      match s.todo with
      | [] => none
      | .write :: rest => some (handleWrite { s with todo := rest } err isSelfConnect)
      | .error :: rest => some (handleError { s with todo := rest })
  | .endUser => if s.inUser = true then some (.ok { s with inUser := false }) else none

def lts : Lts State Act where
  init s := s = initial
  step s a t := step s a = some (.ok t)

end MyLearning.Connector
