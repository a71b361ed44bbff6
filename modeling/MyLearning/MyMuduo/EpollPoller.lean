import MyLearning.Lib.Checked
import MyLearning.Lib.Lts

/-!
# The epoll poller

A `Channel` says which events its descriptor wants and carries the index the poller
keeps on it; `EpollPoller` maps descriptors to channels and forwards every change to
the kernel's interest list with `epoll_ctl`. The functions are those of the source.
A call that fails is fatal, but for a failing `EPOLL_CTL_DEL`, which is only logged:
`failed` is that log.

The flags a channel combines have no definition in the library, so they are a
parameter, as are the descriptors of the channels.
-/

namespace MyLearning

structure EventFlags where
  kNoneEvent : BitVec 32
  kReadEvent : BitVec 32
  kWriteEvent : BitVec 32
  deriving DecidableEq

structure Channel where
  events : BitVec 32
  index : Int
  deriving DecidableEq

/-! ## The kernel -/

inductive CtlOp where
  | add
  | mod
  | del
  deriving DecidableEq, Repr

inductive CtlErrno where
  | exist
  | noent
  deriving DecidableEq, Repr

structure EpollEvent (ι : Type) where
  events : BitVec 32
  data : ι
  deriving DecidableEq

abbrev InterestList (ι : Type) := Int → Option (EpollEvent ι)

def epollCtl {ι : Type} (l : InterestList ι) (op : CtlOp) (fd : Int) (event : EpollEvent ι) :
    Except CtlErrno (InterestList ι) :=
  match op, l fd with
  | .add, none | .mod, some _ => .ok (Function.update l fd (some event))
  | .del, some _ => .ok (Function.update l fd none)
  | .add, some _ => .error .exist
  | .mod, none | .del, none => .error .noent

structure EpollPoller (ι : Type) where
  channels : Int → Option ι
  epollfd : InterestList ι

namespace EpollPoller

def kNew : Int := -1
def kAdded : Int := 1
def kDeleted : Int := 2

structure State (ι : Type) extends EpollPoller ι where
  channel : ι → Channel
  failed : List (CtlOp × Int)

variable {ι : Type} [DecidableEq ι] (k : EventFlags) (fd : ι → Int)

def isNoneEvent (s : State ι) (c : ι) : Bool := (s.channel c).events == k.kNoneEvent

def setIndex (s : State ι) (c : ι) (idx : Int) : State ι :=
  { s with channel := Function.update s.channel c { s.channel c with index := idx } }

def setEvents (s : State ι) (c : ι) (events : BitVec 32) : State ι :=
  { s with channel := Function.update s.channel c { s.channel c with events := events } }

/-! ## The functions of the source -/

def update (s : State ι) (operation : CtlOp) (c : ι) : Except Fault (State ι) :=
  match epollCtl s.epollfd operation (fd c) ⟨(s.channel c).events, c⟩ with
  | .ok l => .ok { s with epollfd := l }
  | .error _ =>
    match operation with
    | .del => .ok { s with failed := s.failed ++ [(operation, fd c)] }
    | .add | .mod => .error .fatal

def register (s : State ι) (c : ι) : Except Fault (State ι) :=
  if (s.channel c).index = kNew then do
    check (s.channels (fd c) = none)
    return { s with channels := Function.update s.channels (fd c) (some c) }
  else do
    check (s.channels (fd c) ≠ none)
    check (s.channels (fd c) = some c)
    return s

def updateChannel (s : State ι) (c : ι) : Except Fault (State ι) := do
  let index := (s.channel c).index
  if index = kNew ∨ index = kDeleted then do
    let s ← register fd s c
    update fd (setIndex s c kAdded) .add c
  else do
    check (s.channels (fd c) ≠ none)
    check (s.channels (fd c) = some c)
    check (index = kAdded)
    if isNoneEvent k s c then do
      let s ← update fd s .del c
      return setIndex s c kDeleted
    else update fd s .mod c

def removeChannel (s : State ι) (c : ι) : Except Fault (State ι) := do
  check (s.channels (fd c) ≠ none)
  check (s.channels (fd c) = some c)
  check (isNoneEvent k s c = true)
  let index := (s.channel c).index
  check (index = kAdded ∨ index = kDeleted)
  let n := if s.channels (fd c) = none then 0 else 1
  let s := { s with channels := Function.update s.channels (fd c) none }
  check (n = 1)
  let s ← (if index = kAdded then update fd s .del c else .ok s : Except Fault (State ι))
  return setIndex s c kNew

/-- The common form of the functions of `Channel` that change its events. -/
def change (s : State ι) (c : ι) (events : BitVec 32) : Except Fault (State ι) :=
  updateChannel k fd (setEvents s c events) c

def enableReading (s : State ι) (c : ι) : Except Fault (State ι) :=
  change k fd s c ((s.channel c).events ||| k.kReadEvent)

def disableReading (s : State ι) (c : ι) : Except Fault (State ι) :=
  change k fd s c ((s.channel c).events &&& ~~~k.kReadEvent)

def enableWriting (s : State ι) (c : ι) : Except Fault (State ι) :=
  change k fd s c ((s.channel c).events ||| k.kWriteEvent)

def disableWriting (s : State ι) (c : ι) : Except Fault (State ι) :=
  change k fd s c ((s.channel c).events &&& ~~~k.kWriteEvent)

def disableAll (s : State ι) (c : ι) : Except Fault (State ι) := change k fd s c k.kNoneEvent

/-! ## The system -/

inductive Act (ι : Type) where
  | enableReading (c : ι)
  | disableReading (c : ι)
  | enableWriting (c : ι)
  | disableWriting (c : ι)
  | disableAll (c : ι)
  | remove (c : ι)
  deriving DecidableEq

/-- A channel is removed only where it is registered and wants no event. -/
def step (s : State ι) : Act ι → Option (Except Fault (State ι))
  | .enableReading c => some (enableReading k fd s c)
  | .disableReading c => some (disableReading k fd s c)
  | .enableWriting c => some (enableWriting k fd s c)
  | .disableWriting c => some (disableWriting k fd s c)
  | .disableAll c => some (disableAll k fd s c)
  | .remove c =>
    if s.channels (fd c) = some c ∧ isNoneEvent k s c = true then some (removeChannel k fd s c) else none

def lts : Lts (State ι) (Act ι) where
  init s := s.channels = (fun _ => none) ∧ s.epollfd = (fun _ => none) ∧ s.failed = [] ∧
    ∀ c, (s.channel c).index = kNew
  step s a t := step k fd s a = some (.ok t)

end EpollPoller

end MyLearning
