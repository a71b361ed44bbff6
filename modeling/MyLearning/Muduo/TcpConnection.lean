import MyLearning.Lib.Checked

/-!
# Connections of the old reactor

`TcpConnection`, the connection map of `TcpServe` and the functors queued in the loop,
all in the loop's thread. The source defines `TcpConnection::handleRead` twice; the
second body is `handleClose` here. It calls `disableAll` of the channel and
`removeChannel` of the loop and does not define them, so they are parameters. What has
been called is recorded in `calls`.
-/

namespace MyLearning.Muduo

inductive StateE where
  | kConnecting
  | kConnected
  | kDisconnected
  deriving DecidableEq, Repr

structure TcpConnection (χ : Type) where
  name : String
  state : StateE
  channel : χ

inductive Call where
  | message (conn : Addr) (n : Int)
  | error (conn : Addr)
  | close (conn : Addr)
  | erase (conn : Addr) (n : Nat)
  | queue (conn : Addr)
  | destroy (conn : Addr) (state : StateE)
  | connection (conn : Addr)
  | wakeup
  deriving DecidableEq, Repr

/-- `pendingFunctors` are the connections whose `connectDestroyed` is queued. -/
structure State (χ : Type) where
  conns : Heap (TcpConnection χ)
  connections : String → Option Addr
  pendingFunctors : List Addr
  callingPendingFunctors : Bool
  calls : List Call

/-- What the source calls and does not define, and whether assertions are compiled in. -/
structure Env (χ : Type) where
  ndebug : Bool
  disableAll : χ → Except Fault χ
  removeChannel : χ → Except Fault χ

variable {χ : Type} (E : Env χ)

def assert (p : Prop) [Decidable p] : Except Fault Unit := if E.ndebug then .ok () else check p

def called (s : State χ) (c : Call) : State χ := { s with calls := s.calls ++ [c] }

def onChannel (s : State χ) (conn : Addr) (f : χ → Except Fault χ) : Except Fault (State χ) := do
  let c ← s.conns.deref conn
  let channel ← f c.channel
  return { s with conns := s.conns.write conn { c with channel := channel } }

/-- In the loop's own thread `queueInLoop` wakes the loop up only while it runs functors. -/
def queueInLoop (s : State χ) (conn : Addr) : State χ :=
  let s := called { s with pendingFunctors := s.pendingFunctors ++ [conn] } (.queue conn)
  if s.callingPendingFunctors then called s .wakeup else s

def erase (s : State χ) (name : String) : Nat × State χ :=
  match s.connections name with
  | none => (0, s)
  | some _ => (1, { s with connections := Function.update s.connections name none })

def removeConnection (s : State χ) (conn : Addr) : Except Fault (State χ) := do
  let c ← s.conns.deref conn
  let (n, s) := erase s c.name
  let s := called s (.erase conn n)
  assert E (n = 1)
  return queueInLoop s conn

def closeCallback (s : State χ) (conn : Addr) : Except Fault (State χ) :=
  removeConnection E (called s (.close conn)) conn

def handleClose (s : State χ) (conn : Addr) : Except Fault (State χ) := do
  let c ← s.conns.deref conn
  assert E (c.state = .kConnected)
  let s ← onChannel s conn E.disableAll
  let s ← closeCallback E s conn
  closeCallback E s conn

/-- A read event; `n` is what `readFd` returned. -/
def handleRead (s : State χ) (conn : Addr) (n : Int) : Except Fault (State χ) :=
  if n > 0 then .ok (called s (.message conn n))
  else if n = 0 then handleClose E s conn
  else .ok (called s (.error conn))

def connectDestroyed (s : State χ) (conn : Addr) : Except Fault (State χ) := do
  let c ← s.conns.deref conn
  let s := called s (.destroy conn c.state)
  assert E (c.state = .kConnected)
  let s := { s with conns := s.conns.write conn { c with state := .kDisconnected } }
  let s ← onChannel s conn E.disableAll
  onChannel (called s (.connection conn)) conn E.removeChannel

def runFunctors (s : State χ) : List Addr → Except Fault (State χ)
  | [] => .ok s
  | conn :: functors => do
    let s ← connectDestroyed E s conn
    runFunctors s functors

def doPendingFunctors (s : State χ) : Except Fault (State χ) := do
  let functors := s.pendingFunctors
  let s ← runFunctors E { s with callingPendingFunctors := true, pendingFunctors := [] } functors
  return { s with callingPendingFunctors := false }

/-! ## Runs -/

inductive Act where
  | handleRead (conn : Addr) (n : Int)
  | doPendingFunctors
  deriving DecidableEq, Repr

def step (s : State χ) : Act → Except Fault (State χ)
  | .handleRead conn n => handleRead E s conn n
  | .doPendingFunctors => doPendingFunctors E s

def exec (s : State χ) : List Act → Except Fault (State χ)
  | [] => .ok s
  | a :: tr => do
    let s ← step E s a
    exec s tr

end MyLearning.Muduo
