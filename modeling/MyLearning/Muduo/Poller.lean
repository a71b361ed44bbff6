import Mathlib.Data.BitVec
import Mathlib.Data.List.Basic
import MyLearning.Lib.Checked
import MyLearning.Lib.Lts

/-!
# The poll poller

A `Channel` says which events its descriptor wants and where its entry is in the vector
that `Poller` gives to `poll(2)`; `EventLoop` hands the events that come back to the
channels. The functions are those of the source. A failed assertion aborts, and an access
out of the range of a container throws and leaves what was done before as it is, so
`updateChannel` returns the state in any case.

A callback is whether one was set, and what runs in one iteration is its result; the callbacks
leave the channels of the active list as they are.
-/

namespace MyLearning.Muduo

/-! ## Channels -/

def POLLIN : BitVec 32 := 0x001
def POLLPRI : BitVec 32 := 0x002
def POLLOUT : BitVec 32 := 0x004
def POLLERR : BitVec 32 := 0x008
def POLLNVAL : BitVec 32 := 0x020
def POLLRDHUP : BitVec 32 := 0x2000

structure Channel where
  fd : Int
  events : BitVec 32
  revents : BitVec 32
  index : Int
  eventHandling : Bool
  readCallback : Bool
  writeCallback : Bool
  errorCallback : Bool
  deriving DecidableEq, Repr

namespace Channel

def create (fd : Int) : Channel where
  fd := fd
  events := 0
  revents := 0
  index := -1
  eventHandling := false
  readCallback := false
  writeCallback := false
  errorCallback := false

inductive Callback where
  | read
  | write
  | error
  deriving DecidableEq, Repr

def kNoneEvent : BitVec 32 := 0
def kReadEvent : BitVec 32 := POLLIN ||| POLLPRI

def isNoneEvent (c : Channel) : Bool := c.events == kNoneEvent

def dispatch (c : Channel) (mask : BitVec 32) (set : Bool) (cb : Callback) : List Callback :=
  if c.revents &&& mask ≠ 0 ∧ set = true then [cb] else []

/-- The second component is the callbacks that run, in order. -/
def handleEvent (c : Channel) : Channel × List Callback :=
  let c := { c with eventHandling := true }
  let ran := c.dispatch (POLLERR ||| POLLNVAL) c.errorCallback .error ++
    c.dispatch (POLLPRI ||| POLLRDHUP) c.readCallback .read ++ c.dispatch POLLOUT c.writeCallback .write
  ({ c with eventHandling := false }, ran)

end Channel

/-! ## The poller -/

structure PollFd where
  fd : Int
  events : BitVec 16
  revents : BitVec 16
  deriving DecidableEq, Repr

structure Poller (ι : Type) where
  pollfds_ : List PollFd
  channels_ : Int → Option ι

namespace Poller

structure State (ι : Type) extends Poller ι where
  channel : ι → Channel

variable {ι : Type} [DecidableEq ι]

def setChannel (s : State ι) (c : ι) (channel : Channel) : State ι :=
  { s with channel := Function.update s.channel c channel }

@[simp] theorem setChannel_self (s : State ι) (c : ι) (x : Channel) : (setChannel s c x).channel c = x :=
  Function.update_self ..

@[simp] theorem setChannel_channels_ (s : State ι) (c : ι) (x : Channel) :
    (setChannel s c x).channels_ = s.channels_ := rfl

@[simp] theorem setChannel_pollfds_ (s : State ι) (c : ι) (x : Channel) :
    (setChannel s c x).pollfds_ = s.pollfds_ := rfl

theorem setChannel_of_ne {s : State ι} {c d : ι} {x : Channel} (h : d ≠ c) :
    (setChannel s c x).channel d = s.channel d := Function.update_of_ne h ..

def setRevents (s : State ι) (c : ι) (revt : BitVec 32) : State ι :=
  setChannel s c { s.channel c with revents := revt }

/-- `Poller::updateChannel`; `revents` is what the member of a new entry happens to hold,
since the statement that should set it compares. -/
def updateChannel (s : State ι) (c : ι) (revents : BitVec 16) : Except Fault Unit × State ι :=
  let channel := s.channel c
  if channel.index < 0 then
    if s.channels_ channel.fd ≠ none then (.error .assertion, s)
    else
      let pfd : PollFd := ⟨channel.fd, channel.events.truncate 16, revents⟩
      let s := { s with pollfds_ := s.pollfds_ ++ [pfd] }
      let idx : Int := s.pollfds_.length - 1
      let s := setChannel s c { channel with index := idx }
      -- `at` makes no entry for a key that is not there, but throws
      match s.channels_ pfd.fd with
      | none => (.error .bounds, s)
      | some _ => (.ok (), { s with channels_ := Function.update s.channels_ pfd.fd (some c) })
  else
    if s.channels_ channel.fd = none then (.error .assertion, s)
    else if ¬ s.channels_ channel.fd ≠ some c then (.error .assertion, s)
    else
      let idx := channel.index
      match s.pollfds_[idx.toNat]? with
      | none => (.error .assertion, s)
      | some pfd =>
        if ¬ (pfd.fd = channel.fd ∨ pfd.fd = -1) then (.error .assertion, s)
        else
          let pfd := { pfd with events := channel.events.truncate 16, revents := 0 }
          let pfd := if channel.isNoneEvent then { pfd with fd := -1 } else pfd
          (.ok (), { s with pollfds_ := s.pollfds_.set idx.toNat pfd })

def fillActiveChannels : List PollFd → Int → State ι → List ι → Except Fault (State ι × List ι)
  | [], _, s, activeChannels => .ok (s, activeChannels)
  | pfd :: pfds, numEvents, s, activeChannels =>
    if 0 < numEvents then
      if 0 < pfd.revents.toInt then
        match s.channels_ pfd.fd with
        | none => .error .assertion
        | some c => do
          check ((s.channel c).fd = pfd.fd)
          let s := setRevents s c (pfd.revents.signExtend 32)
          fillActiveChannels pfds (numEvents - 1) s (activeChannels ++ [c])
      else fillActiveChannels pfds numEvents s activeChannels
    else .ok (s, activeChannels)

/-- `Poller::poll`, where `poll(2)` returns `numEvents` and leaves `pollfds` in the vector. -/
def poll (s : State ι) (numEvents : Int) (pollfds : List PollFd) (activeChannels : List ι) :
    Except Fault (State ι × List ι) :=
  let s := { s with pollfds_ := pollfds }
  if 0 < numEvents then fillActiveChannels s.pollfds_ numEvents s activeChannels else .ok (s, activeChannels)

end Poller

/-! ## The loop -/

inductive Task (ι F : Type) where
  | callback (c : ι) (cb : Channel.Callback)
  | functor (f : F)
  deriving DecidableEq, Repr

structure EventLoop (ι F : Type) where
  poller : Poller.State ι
  activeChannels_ : List ι
  callingPendingFunctors_ : Bool
  pendingFunctors_ : List F

namespace EventLoop

variable {ι F : Type} [DecidableEq ι]

def handleEvents : List ι → Poller.State ι → Poller.State ι × List (Task ι F)
  | [], s => (s, [])
  | c :: activeChannels, s =>
    let (channel, cbs) := (s.channel c).handleEvent
    let (s, tasks) := handleEvents activeChannels (Poller.setChannel s c channel)
    (s, cbs.map (.callback c) ++ tasks)

def doPendingFunctors (l : EventLoop ι F) : EventLoop ι F × List (Task ι F) :=
  let l := { l with callingPendingFunctors_ := true }
  let functors := l.pendingFunctors_
  let l := { l with pendingFunctors_ := [] }
  ({ l with callingPendingFunctors_ := false }, functors.map .functor)

def iteration (l : EventLoop ι F) (numEvents : Int) (pollfds : List PollFd) :
    Except Fault (EventLoop ι F × List (Task ι F)) := do
  let l := { l with activeChannels_ := [] }
  let (poller, activeChannels) ← Poller.poll l.poller numEvents pollfds l.activeChannels_
  let (poller, tasks) := handleEvents activeChannels poller
  let (l, tasks') := doPendingFunctors { l with poller := poller, activeChannels_ := activeChannels }
  return (l, tasks ++ tasks')

end EventLoop

end MyLearning.Muduo
