import MyLearning.MyMuduo.EventLoopEffect
import MyLearning.MyMuduo.Thread

/-!
# The thread of an event loop

`EventLoopThread` starts a thread that makes an `EventLoop` on its stack, lets the init callback
see it, publishes its address in `loop_` and runs it. `startLoop()` waits for the
address; the destructor quits the loop it finds and joins the thread. The three are cut
where they can interfere: at the critical sections of `mutex_`, between the destructor's
test of `loop_` and its call of `quit()`, inside that call behind the store of the flag, and at
every step of the loop itself.

`threadFunc` ends with an assignment of `nullptr` to its local `loop`, which leaves the
member `loop_` as it is; the condition given to `cond_.wait` is read as its predicate.
`published` and `quits` record the address that was published and each use the destructor's `quit()`
makes of the one it finds, with whether a loop lived there; no function reads them.
-/

namespace MyLearning.EventLoopThread

/-- Where `threadFunc` stands: `callback` from the loop's construction to its publication,
`looping` in `loop()`, `cleared` behind the last critical section. -/
inductive Func where
  | notStarted
  | entered
  | callback (loop : Addr)
  | looping (loop : Addr)
  | cleared (loop : Addr)
  | finished
  deriving DecidableEq, Repr

inductive Starting where
  | notCalled
  | waiting
  | returned (loop : Option Addr)
  deriving DecidableEq, Repr

/-- Where the destructor stands: `quitting` in front of `quit()`, `inQuit` inside it, behind the store of
the flag, and `crashed` behind a use of no loop. -/
inductive Dtor where
  | notCalled
  | quitting
  | inQuit
  | joining
  | finished
  | crashed
  deriving DecidableEq, Repr

structure State (T F C : Type) where
  loop_ : Option Addr
  exiting : Bool
  thread : Thread.State
  loops : Heap (EventLoop.State T F C)
  func : Func
  starting : Starting
  dtor : Dtor
  published : List (Addr × Bool)
  quits : List (Addr × Bool)

variable {T F C : Type}

def initial : State T F C where
  loop_ := none
  exiting := false
  thread := Thread.initial
  loops _ := none
  func := .notStarted
  starting := .notCalled
  dtor := .notCalled
  published := []
  quits := []

/-- The loop on the stack of the thread, while it is there. -/
def Func.loop? : Func → Option Addr
  | callback p | looping p | cleared p => some p
  | _ => none

/-- A call that any thread may make on a loop; the other actions are those of `loop()`. -/
def isCall : EventLoop.Act T F C → Bool
  | .queueInLoop .. | .endQueueInLoop _ | .runInLoop .. | .quit _ | .endQuit _ | .wakeup _ => true
  | _ => false

def hasExited : EventLoop.Phase F C → Bool
  | .exited => true
  | _ => false

/-! ## The functions of the source -/

def startLoop (s : State T F C) (tid : Option Nat) : Except Fault (State T F C) := do
  check (s.thread.started = false)
  let thread ← Thread.start s.thread tid
  return { s with thread := thread, starting := .waiting, func := .entered }

def publish (s : State T F C) (p : Addr) : State T F C :=
  { s with loop_ := some p, func := .looping p, published := s.published ++ [(p, (s.loops p).isSome)] }

/-- The destructor up to its test of `loop_`. Without a loop it is over, and the members are destroyed. -/
def enterDtor (s : State T F C) : State T F C :=
  if s.loop_ ≠ none then { s with exiting := true, dtor := .quitting }
  else { s with exiting := true, dtor := .finished, thread := Thread.destroy s.thread }

variable [DecidableEq T] (threadId owner : T)

/-- `loop_->quit()` in the destructor, up to the store of the flag. -/
def quit (s : State T F C) (p : Addr) : Option (State T F C) :=
  match s.loops p with
  | none => some { s with dtor := .crashed, quits := s.quits ++ [(p, false)] }
  | some l => (EventLoop.step threadId l (.quit owner)).map fun l =>
    { s with loops := s.loops.write p l, dtor := .inQuit, quits := s.quits ++ [(p, true)] }

/-- The rest of that `quit()`, which asks the loop for its thread. -/
def endQuit (s : State T F C) (p : Addr) : Option (State T F C) :=
  match s.loops p with
  | none => some { s with dtor := .crashed, quits := s.quits ++ [(p, false)] }
  | some l => (EventLoop.step threadId l (.endQuit owner)).map fun l =>
    { s with loops := s.loops.write p l, dtor := .joining, quits := s.quits ++ [(p, true)] }

/-- The end of the destructor's own `quit()`, which is no step of the loop alone. -/
def isDtorCall (s : State T F C) : EventLoop.Act T F C → Bool
  | .endQuit th => decide (th = owner ∧ s.dtor = .inQuit)
  | _ => false

/-! ## The system -/

inductive Act (T F C : Type) where
  | startLoop (tid : Option Nat)
  | construct (p : Addr)
  | loop (a : EventLoop.Act T F C)
  | publish
  | clear
  | destroy
  | endStartLoop
  | enterDtor
  | quit
  | endQuit
  | join

/-- `threadId` is the new thread and `owner` the one that runs the destructor. -/
def step (s : State T F C) : Act T F C → Option (Except Fault (State T F C))
  | .startLoop tid => if s.starting = .notCalled then some (startLoop s tid) else none
  | .construct p =>
    if s.func = .entered ∧ s.loops p = none then
      some (.ok { s with loops := s.loops.write p EventLoop.initial, func := .callback p })
    else none
  | .loop a =>
    match s.func.loop? with
    | some p =>
      if (isCall a = true ∨ s.func = .looping p) ∧ isDtorCall owner s a = false then
        ((s.loops p).bind fun l => EventLoop.step threadId l a).map fun l => .ok { s with loops := s.loops.write p l }
      else none
    | none => none
  | .publish =>
    match s.func with
    | .callback p =>
      if (s.loops p).any (fun l => decide (l.call threadId = .idle)) = true then some (.ok (publish s p)) else none
    | _ => none
  | .clear =>
    match s.func with
    | .looping p =>
      if (s.loops p).any (fun l => decide (l.call threadId = .idle) && hasExited l.phase) = true then
        some (.ok { s with func := .cleared p })
      else none
    | _ => none
  | .destroy =>
    match s.func with
    | .cleared p => some (.ok { s with loops := Function.update s.loops p none, func := .finished })
    | _ => none
  | .endStartLoop =>
    if s.starting = .waiting ∧ s.loop_ ≠ none then some (.ok { s with starting := .returned s.loop_ }) else none
  | .enterDtor => if s.dtor = .notCalled then some (.ok (enterDtor s)) else none
  | .quit =>
    match s.dtor, s.loop_ with
    | .quitting, some p => (quit threadId owner s p).map .ok
    | _, _ => none
  | .endQuit =>
    match s.dtor, s.loop_ with
    | .inQuit, some p => (endQuit threadId owner s p).map .ok
    | _, _ => none
  | .join =>
    if s.dtor = .joining then
      some ((Thread.join s.thread).map fun thread =>
        { s with thread := Thread.destroy thread, dtor := .finished })
    else none

def lts : Lts (State T F C) (Act T F C) where
  init s := s = initial
  step s a t := step threadId owner s a = some (.ok t)

end MyLearning.EventLoopThread
