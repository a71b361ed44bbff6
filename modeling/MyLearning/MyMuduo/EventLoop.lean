import Mathlib.Algebra.Ring.Nat
import Mathlib.Data.List.Basic
import MyLearning.Lib.Lts

/-!
# The event loop

One thread runs `EventLoop::loop()`: poll, dispatch the ready channels, run the
pending functors, and again. Any thread may call `queueInLoop`, `runInLoop`, `quit` and
`wakeup`. The functions are those of the source, cut where another thread can
interfere: between the locked push of `queueInLoop` and its `wakeup()`, between the
store of `quit` and its test, and between any two steps of the loop thread.

`phase` is where the loop thread stands and `call` what each thread is in the middle
of. What a callback or a functor does is left open: while one runs, the loop thread
may make any calls. `pushed` and `executed` record the functors pushed and started,
in order, and `quitDone` the threads whose `quit` has returned; no function reads
them.
-/

namespace MyLearning

inductive Ready (C : Type) where
  | wakeup
  | channel (c : C)
  deriving DecidableEq

def Ready.isWakeup {C : Type} : Ready C → Bool
  | wakeup => true
  | channel _ => false

structure EventLoop (F C : Type) where
  looping : Bool
  quit : Bool
  eventHandling : Bool
  callingPendingFunctors : Bool
  iteration : Nat
  wakeupFd : Nat
  activeChannel : List (Ready C)
  currentActivceChannel : Option (Ready C)
  pendingFunctors : List F

namespace EventLoop

/-- Where the loop thread stands. `init` is before `loop()`, `entered` inside it
before `quit_` is cleared, and `poll` from a while test that goes on to the return
of the poller. `handling` and `inFunctor` are inside a callback and a functor. -/
inductive Phase (F C : Type) where
  | init
  | entered
  | test
  | poll
  | dispatch (todo : List (Ready C))
  | handling (c : C) (todo : List (Ready C))
  | swapping
  | running (rest : List F)
  | inFunctor (f : F) (rest : List F)
  | exited
  deriving DecidableEq

namespace Phase

variable {F C : Type}

def rest : Phase F C → List F
  | running rest | inFunctor _ rest => rest
  | _ => []

def isCalling : Phase F C → Bool
  | swapping | running _ | inFunctor .. => true
  | _ => false

def inUser : Phase F C → Bool
  | init | handling .. | inFunctor .. | exited => true
  | _ => false

end Phase

inductive Call where
  | idle
  | queueing
  | quitting
  deriving DecidableEq, Repr

structure State (T F C : Type) extends EventLoop F C where
  phase : Phase F C
  call : T → Call
  pushed : List F
  executed : List F
  quitDone : List T

variable {T F C : Type}

def initial : State T F C where
  looping := false
  quit := false
  eventHandling := false
  callingPendingFunctors := false
  iteration := 0
  wakeupFd := 0
  activeChannel := []
  currentActivceChannel := none
  pendingFunctors := []
  phase := .init
  call _ := .idle
  pushed := []
  executed := []
  quitDone := []

/-! ## The functions of the source -/

/-- A write of 1 to the eventfd; it fails where the counter would overflow. -/
def wakeup (s : State T F C) : State T F C :=
  { s with wakeupFd := if s.wakeupFd + 1 < 2 ^ 64 - 1 then s.wakeupFd + 1 else s.wakeupFd }

def handleRead (s : State T F C) : State T F C := { s with wakeupFd := 0 }

def queueSize (s : State T F C) : Nat := s.pendingFunctors.length

def push (s : State T F C) (cb : F) : State T F C :=
  { s with pendingFunctors := s.pendingFunctors ++ [cb], pushed := s.pushed ++ [cb] }

variable [DecidableEq T] (threadId : T)

def setCall (s : State T F C) (th : T) (c : Call) : State T F C :=
  { s with call := Function.update s.call th c }

def wakeupAfterPush (s : State T F C) (th : T) : State T F C :=
  if th ≠ threadId ∨ s.callingPendingFunctors = true then wakeup s else s

/-- The rest of `quit`. -/
def wakeupAfterQuit (s : State T F C) (th : T) : State T F C :=
  if th = threadId then wakeup s else s

/-! ## The system -/

inductive Act (T F C : Type) where
  | queueInLoop (th : T) (cb : F)
  | endQueueInLoop (th : T)
  | runInLoop (th : T) (cb : F)
  | quit (th : T)
  | endQuit (th : T)
  | wakeup (th : T)
  | loop
  | clearQuit
  | test
  | poll (active : List (Ready C))
  | handleEvent
  | endHandle
  | doPendingFunctors
  | swap
  | runFunctor
  | endFunctor
  | endRound
  deriving DecidableEq

def canCall (s : State T F C) (th : T) : Bool :=
  decide (s.call th = .idle) && (decide (th ≠ threadId) || s.phase.inUser)

/-- `runInLoop` in the loop thread runs its functor on the spot; what the functor
does are the next steps of the thread. -/
def step (s : State T F C) : Act T F C → Option (State T F C)
  | .queueInLoop th cb => if canCall threadId s th then some (setCall (push s cb) th .queueing) else none
  | .endQueueInLoop th =>
    if s.call th = .queueing then some (setCall (wakeupAfterPush threadId s th) th .idle) else none
  | .runInLoop th cb =>
    if canCall threadId s th then
      if th = threadId then some s else some (setCall (push s cb) th .queueing)
    else none
  | .quit th => if canCall threadId s th then some (setCall { s with quit := true } th .quitting) else none
  | .endQuit th =>
    if s.call th = .quitting then
      some (setCall { wakeupAfterQuit threadId s th with quitDone := s.quitDone ++ [th] } th .idle)
    else none
  | .wakeup th => if canCall threadId s th then some (wakeup s) else none
  | .loop =>
    match s.phase with
    | .init =>
      if s.call threadId = .idle ∧ s.looping = false then some { s with looping := true, phase := .entered } else none
    | _ => none
  | .clearQuit =>
    match s.phase with
    | .entered => some { s with quit := false, phase := .test }
    | _ => none
  | .test =>
    match s.phase with
    | .test =>
      some (if s.quit then { s with looping := false, phase := .exited }
        else { s with activeChannel := [], phase := .poll })
    | _ => none
  | .poll active =>
    match s.phase with
    | .poll =>
      if active.any Ready.isWakeup = true → 0 < s.wakeupFd then
        some { s with
          activeChannel := active, iteration := s.iteration + 1, eventHandling := true, phase := .dispatch active }
      else none
    | _ => none
  | .handleEvent =>
    match s.phase with
    | .dispatch (.wakeup :: todo) =>
      some { handleRead s with currentActivceChannel := some .wakeup, phase := .dispatch todo }
    | .dispatch (.channel c :: todo) =>
      some { s with currentActivceChannel := some (.channel c), phase := .handling c todo }
    | _ => none
  | .endHandle =>
    match s.phase with
    | .handling _ todo => if s.call threadId = .idle then some { s with phase := .dispatch todo } else none
    | _ => none
  | .doPendingFunctors =>
    match s.phase with
    | .dispatch [] =>
      some { s with
        currentActivceChannel := none, eventHandling := false, callingPendingFunctors := true, phase := .swapping }
    | _ => none
  | .swap =>
    match s.phase with
    | .swapping => some { s with pendingFunctors := [], phase := .running s.pendingFunctors }
    | _ => none
  | .runFunctor =>
    match s.phase with
    | .running (f :: rest) => some { s with executed := s.executed ++ [f], phase := .inFunctor f rest }
    | _ => none
  | .endFunctor =>
    match s.phase with
    | .inFunctor _ rest => if s.call threadId = .idle then some { s with phase := .running rest } else none
    | _ => none
  | .endRound =>
    match s.phase with
    | .running [] => some { s with callingPendingFunctors := false, phase := .test }
    | _ => none

def lts : Lts (State T F C) (Act T F C) where
  init s := s = initial
  step s a t := step threadId s a = some t

end EventLoop

end MyLearning
