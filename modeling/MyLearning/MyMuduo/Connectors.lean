import MyLearning.MyMuduo.ConnectorSockets
import MyLearning.MyMuduo.EventLoopDispatch

/-!
# Connectors on a loop

Any number of connectors on one loop with its poller. A functor of the loop is one of a connector or another one, and
so is a channel; the channels of a connector are numbered by their sockets. A step of a connector is one of its own
system together with what its functions ask of the loop: `connecting()` enables the channel it makes,
`removeAndResetChannel()` disables it, removes it and queues the functor that destroys it.

The functions of a connector run in the loop thread in one piece, but for `start()` and `stop()`, which any thread may
call. Its retry timers run while the channel of the timer queue is handled, which is one of the others.
-/

namespace MyLearning.Connectors

inductive Functor (κ F : Type) where
  | connector (k : κ) (f : Connector.PendingFunctor)
  | other (f : F)
  deriving DecidableEq

inductive Chan (κ C : Type) where
  | connector (k : κ) (sockfd : Nat)
  | other (c : C)
  deriving DecidableEq

abbrev Loop (T κ F C : Type) := Dispatch.State T (Functor κ F) (Chan κ C)

abbrev LoopAct (T κ F C : Type) := Dispatch.Act T (Functor κ F) (Chan κ C)

structure State (T κ F C : Type) where
  sys : Loop T κ F C
  conn : κ → Connector.State

inductive Act (T κ F C : Type) where
  | start (th : T) (k : κ)
  | stop (th : T) (k : κ)
  | restart (k : κ) (savedError : Connector.SavedError)
  | runFunctor (savedError : Connector.SavedError)
  | runTimer (k : κ) (i : Nat) (savedError : Connector.SavedError)
  | handleEvent (callbacks : List Connector.Callback)
  | callback (err isSelfConnect : Bool)
  | endUser
  | plain (a : LoopAct T κ F C)

variable {T κ F C : Type}

def chan (k : κ) (sockfd : Nat) : Ready (Chan κ C) := .channel (.connector k sockfd)

def isOther : Ready (Chan κ C) → Bool
  | .channel (.connector ..) => false
  | _ => true

variable (threadId : T)

/-- What a function of the connector `k` that takes its channel from `x` to `y` asks of the loop. -/
def asks (k : κ) (x y : Option Connector.Channel) : List (LoopAct T κ F C) :=
  match x, y with
  | none, some ⟨sockfd, true⟩ => [.channel (.enableWriting (chan k sockfd))]
  | some ⟨sockfd, true⟩, some ⟨_, false⟩ =>
    [.channel (.disableAll (chan k sockfd)), .channel (.remove (chan k sockfd)),
      .loop (.queueInLoop threadId (.connector k .resetChannel))]
  | _, _ => []

/-- The loop thread runs code of the user: a callback of another channel, `newConnectionCallback_` of a connector,
or a functor that is not one of a connector. -/
def inUser (s : State T κ F C) : Bool :=
  match s.sys.loop.phase with
  | .handling (.connector k _) _ => (s.conn k).inUser
  | .inFunctor (.connector ..) _ => false
  | p => p.inUser

variable [DecidableEq T]

/-- The connector that takes part in an action, what it does, and what the loop does before. -/
def part (s : State T κ F C) : Act T κ F C → Option (κ × Connector.Act × List (LoopAct T κ F C))
  | .start th k =>
    if EventLoop.canCall threadId s.sys.loop th = true then
      some (k, .start, [.loop (.queueInLoop th (.connector k .startInLoop))])
    else none
  | .stop th k =>
    if EventLoop.canCall threadId s.sys.loop th = true then
      some (k, .stop, [.loop (.queueInLoop th (.connector k .stopInLoop))])
    else none
  | .restart k e => if inUser s = true ∧ s.sys.loop.call threadId = .idle then some (k, .restart e, []) else none
  | .runFunctor e =>
    match s.sys.loop.phase with
    | .running (.connector k _ :: _) => some (k, .runFunctor e, [.loop .runFunctor])
    | _ => none
  | .runTimer k i e =>
    match s.sys.loop.phase with
    | .handling (.other _) _ => if s.sys.loop.call threadId = .idle then some (k, .runTimer i e, []) else none
    | _ => none
  | .handleEvent callbacks =>
    match s.sys.loop.phase with
    | .dispatch (.channel (.connector k _) :: _) => some (k, .handleEvent callbacks, [.handleEvent])
    | _ => none
  | .callback err self =>
    match s.sys.loop.phase with
    | .handling (.connector k _) _ =>
      if s.sys.loop.call threadId = .idle then some (k, .callback err self, []) else none
    | _ => none
  | .endUser =>
    match s.sys.loop.phase with
    | .handling (.connector k _) _ => if s.sys.loop.call threadId = .idle then some (k, .endUser, []) else none
    | _ => none
  | .plain _ => none

def plain (s : State T κ F C) : LoopAct T κ F C → Bool
  | .loop (.queueInLoop _ (.connector ..)) | .loop (.runInLoop _ (.connector ..)) => false
  | .loop .runFunctor =>
    match s.sys.loop.phase with
    | .running (.connector .. :: _) => false
    | _ => true
  | .loop .endHandle =>
    match s.sys.loop.phase with
    | .handling (.connector k _) _ => decide (Connector.InLoop (s.conn k))
    | _ => true
  | .loop _ | .poll _ => true
  | .handleEvent =>
    match s.sys.loop.phase with
    | .dispatch (.channel (.connector ..) :: _) => false
    | _ => true
  | .channel a => inUser s && isOther a.channel

variable [DecidableEq κ] [DecidableEq C] (flags : EventFlags) (fd : Ready (Chan κ C) → Int)

def perform (d : Loop T κ F C) : List (LoopAct T κ F C) → Option (Except Fault (Loop T κ F C))
  | [] => some (.ok d)
  | a :: tr =>
    match Dispatch.step threadId flags fd d a with
    | some (.ok d) => perform d tr
    | r => r

def step (s : State T κ F C) : Act T κ F C → Option (Except Fault (State T κ F C))
  | .plain a =>
    if plain s a = true then
      (Dispatch.step threadId flags fd s.sys a).map fun r => r.map fun sys => { s with sys := sys }
    else none
  | a =>
    match part threadId s a with
    | none => none
    | some (k, b, first) =>
      match Connector.step (s.conn k) b with
      | none => none
      | some (.error f) => some (.error f)
      | some (.ok c) =>
        (perform threadId flags fd s.sys (first ++ asks threadId k (s.conn k).channel c.channel)).map fun r =>
          r.map fun sys => ⟨sys, Function.update s.conn k c⟩

def lts : Lts (State T κ F C) (Act T κ F C) where
  init s := (Dispatch.lts threadId flags fd).init s.sys ∧ s.conn = fun _ => Connector.initial
  step s a t := step threadId flags fd s a = some (.ok t)

/-- The kernel gives the next socket of `k` a descriptor that belongs to no open socket: of no connector, and of no
other channel that is registered. -/
structure Unused (fd : Ready (Chan κ C) → Int) (s : State T κ F C) (k : κ) : Prop where
  sockets : ∀ j n, Connector.Open (s.conn j) n → fd (chan j n) ≠ fd (chan k (s.conn k).created)
  others : ∀ c, isOther c = true → s.sys.poller.channels (fd c) = some c → fd c ≠ fd (chan k (s.conn k).created)

/-- A socket that a step opens gets an unused descriptor. -/
def Opens (threadId : T) (fd : Ready (Chan κ C) → Int) (s : State T κ F C) (a : Act T κ F C) : Prop :=
  ∀ k b first c, part threadId s a = some (k, b, first) → Connector.step (s.conn k) b = some (.ok c) →
    (s.conn k).created < c.created → Unused fd s k

end MyLearning.Connectors
