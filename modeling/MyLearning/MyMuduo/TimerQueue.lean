import Mathlib.Data.Prod.Lex
import MyLearning.Lib.Lts
import MyLearning.Lib.OrdSet
import MyLearning.MyMuduo.Timer

/-!
# The timer queue

`TimerQueue` keeps every waiting timer in two sets, `timers` ordered by
expiration and `activeTimers` ordered by address, and the ids cancelled while
expired callbacks run in `cancelingTimers`. The functions are those of the
source; each failed assertion and each use of a freed `Timer` is a `Fault`.

`handleRead` runs callbacks that may add and cancel timers, so the system cuts it
where a callback can interfere: the clock is read (`entered`), the expired batch
is collected and its callbacks run one by one (`calling`), and the batch is put
back or deleted one timer at a time (`resetting`). Between two of these steps the
clock may advance. `created`, `pending`, `passed` and `deleted` record the ids
handed out, the timers not yet passed to `addTimerInLoop`, and the sequence
numbers of those passed to it and of those deleted; no function reads them.
-/

namespace MyLearning

structure Entry where
  when_ : Int
  timer : Addr
  deriving DecidableEq, Repr

structure ActiveTimer where
  timer : Addr
  sequence : Nat
  deriving DecidableEq, Repr

namespace Entry

def key (e : Entry) : Int ×ₗ Nat := toLex (e.when_, e.timer)

theorem key_injective : Function.Injective key := by
  intro a b h
  cases a; cases b
  simpa [key] using h

instance : LinearOrder Entry := LinearOrder.lift' key key_injective

theorem lt_iff {a b : Entry} : a < b ↔ a.when_ < b.when_ ∨ a.when_ = b.when_ ∧ a.timer < b.timer :=
  Prod.Lex.toLex_lt_toLex

theorem le_iff {a b : Entry} : a ≤ b ↔ a.when_ < b.when_ ∨ a.when_ = b.when_ ∧ a.timer ≤ b.timer :=
  Prod.Lex.toLex_le_toLex

theorem when_le {a b : Entry} (h : a ≤ b) : a.when_ ≤ b.when_ := by
  rcases le_iff.mp h with h | h
  · exact le_of_lt h
  · exact le_of_eq h.1

end Entry

namespace ActiveTimer

def key (a : ActiveTimer) : Nat ×ₗ Nat := toLex (a.timer, a.sequence)

theorem key_injective : Function.Injective key := by
  intro a b h
  cases a; cases b
  simpa [key] using h

instance : LinearOrder ActiveTimer := LinearOrder.lift' key key_injective

end ActiveTimer

structure TimerQueue where
  timerfd : TimerFd
  timers : OrdSet Entry
  activeTimers : OrdSet ActiveTimer
  callingExpiredTimer : Bool
  cancelingTimers : OrdSet ActiveTimer

namespace TimerQueue

/-- Where the loop thread stands in `handleRead`. -/
inductive Pc where
  | idle
  | entered (now : Int)
  | calling (now : Int) (ran todo : List Entry)
  | resetting (now : Int) (todo : List Entry)
  deriving DecidableEq, Repr

namespace Pc

/-- The part of the expired batch that is not yet reset. -/
def batch : Pc → List Entry
  | idle | entered _ => []
  | calling _ ran todo => ran ++ todo
  | resetting _ todo => todo

def unrun : Pc → List Entry
  | calling _ _ todo => todo
  | _ => []

def isCalling : Pc → Bool
  | calling .. => true
  | _ => false

/-- The loop thread runs code of the user: a callback of the batch, or whatever
it does outside `handleRead`. -/
def inUser : Pc → Bool
  | idle => true
  | calling _ ran _ => !ran.isEmpty
  | _ => false

end Pc

structure State extends TimerQueue where
  heap : Heap Timer
  numCreate : Nat
  clock : Int
  pc : Pc
  created : List TimerId
  pending : List Addr
  passed : List Nat
  deleted : List Nat

def initial (clock : Int) : State where
  timerfd := ⟨none, 0⟩
  timers := .empty
  activeTimers := .empty
  callingExpiredTimer := false
  cancelingTimers := .empty
  heap := fun _ => none
  numCreate := 0
  clock := clock
  pc := .idle
  created := []
  pending := []
  passed := []
  deleted := []

/-! ## The functions of the source -/

def newTimer (s : State) (p : Addr) (when_ : Int) (interval : ℚ) : State :=
  { s with
    heap := s.heap.write p (Timer.create when_ interval s.numCreate)
    numCreate := s.numCreate + 1
    created := s.created ++ [⟨p, s.numCreate⟩]
    pending := s.pending ++ [p] }

def deleteTimer (s : State) (p : Addr) : Except Fault State := do
  let t ← s.heap.deref p
  let heap ← s.heap.free p
  return { s with heap := heap, deleted := s.deleted ++ [t.sequence] }

def insert (s : State) (timer : Addr) : Except Fault (State × Bool) := do
  check (s.timers.size = s.activeTimers.size)
  let t ← s.heap.deref timer
  let earliestChanged := match s.timers.begin? with
    | none => true
    | some it => decide (t.expiration < it.when_)
  let timers := s.timers.insert ⟨t.expiration, timer⟩
  check (timers.2 = true)
  let active := s.activeTimers.insert ⟨timer, t.sequence⟩
  check (active.2 = true)
  check (timers.1.size = active.1.size)
  return ({ s with timers := timers.1, activeTimers := active.1 }, earliestChanged)

def addTimerInLoop (s : State) (timer : Addr) : Except Fault State := do
  let r ← insert s timer
  if r.2 then do
    let t ← r.1.heap.deref timer
    let fd ← resetTimerfd r.1.timerfd t.expiration r.1.clock
    return { r.1 with timerfd := fd }
  else return r.1

def cancelInLoop (s : State) (timerid : TimerId) : Except Fault State := do
  check (s.timers.size = s.activeTimers.size)
  let timer : ActiveTimer := ⟨timerid.timer, timerid.sequence⟩
  let s ←
    if timer ∈ s.activeTimers then do
      let t ← s.heap.deref timer.timer
      let timers := s.timers.erase ⟨t.expiration, timer.timer⟩
      check (timers.2 = 1)
      let s ← deleteTimer { s with timers := timers.1 } timer.timer
      pure { s with activeTimers := (s.activeTimers.erase timer).1 }
    else if s.callingExpiredTimer then
      pure { s with cancelingTimers := (s.cancelingTimers.insert timer).1 }
    else pure s
  check (s.timers.size = s.activeTimers.size)
  return s

def eraseExpired (heap : Heap Timer) : List Entry → OrdSet ActiveTimer → Except Fault (OrdSet ActiveTimer)
  | [], active => .ok active
  | it :: rest, active => do
    let t ← heap.deref it.timer
    let r := active.erase ⟨it.timer, t.sequence⟩
    check (r.2 = 1)
    eraseExpired heap rest r.1

def getExpired (s : State) (now : Int) : Except Fault (State × List Entry) := do
  check (s.timers.size = s.activeTimers.size)
  let sentry : Entry := ⟨now, uintptrMax⟩
  let rest := s.timers.eraseBelow sentry
  check (rest.begin?.all fun e => decide (now < e.when_))
  let expired := s.timers.below sentry
  let active ← eraseExpired s.heap expired s.activeTimers
  check (rest.size = active.size)
  return ({ s with timers := rest, activeTimers := active }, expired)

def resetTimer (s : State) (now : Int) (it : Entry) : Except Fault State := do
  let t ← s.heap.deref it.timer
  if t.repeat_ = true ∧ (⟨it.timer, t.sequence⟩ : ActiveTimer) ∉ s.cancelingTimers then do
    let t ← t.restart now
    let r ← insert { s with heap := s.heap.write it.timer t } it.timer
    return r.1
  else deleteTimer s it.timer

def nextExpire (s : State) : Except Fault Int :=
  match s.timers.begin? with
  | some it => do
    let t ← s.heap.deref it.timer
    return t.expiration
  | none => return Timestamp.invalid

def rearm (s : State) : Except Fault State := do
  let expire ← nextExpire s
  if Timestamp.valid expire then do
    let fd ← resetTimerfd s.timerfd expire s.clock
    return { s with timerfd := fd }
  else return s

def collect (s : State) (now : Int) : Except Fault State := do
  let r ← getExpired { s with timerfd := s.timerfd.read.1 } now
  return { r.1 with callingExpiredTimer := true, cancelingTimers := .empty, pc := .calling now [] r.2 }

/-! ## The system -/

def hand (s : State) (p : Addr) : State :=
  { s with pending := s.pending.erase p, passed := s.passed ++ ((s.heap p).map Timer.sequence).toList }

inductive Act where
  | newTimer (p : Addr) (when_ : Int) (interval : ℚ)
  | addTimerInLoop (p : Addr)
  | addTimer (p : Addr) (when_ : Int) (interval : ℚ)
  | cancelInLoop (id : TimerId)
  | handleRead
  | collect
  | runTimer
  | endCalls
  | resetTimer
  | rearm
  | tick (now : Int)
  deriving DecidableEq

/-- An address the allocator may return. -/
def freeAddr (s : State) (p : Addr) : Bool := decide (s.heap p = none ∧ p ≠ 0 ∧ p < uintptrMax)

/-- `none` where the action cannot happen. `newTimer` is the allocation in an
`addTimer` of another thread, whose `addTimerInLoop` comes later; `addTimer` is
a call in the loop thread, which goes through at once. -/
def step (s : State) : Act → Option (Except Fault State)
  | .newTimer p w i => if freeAddr s p then some (.ok (newTimer s p w i)) else none
  | .addTimerInLoop p => if s.pc.inUser ∧ p ∈ s.pending then some (addTimerInLoop (hand s p) p) else none
  | .addTimer p w i =>
    if s.pc.inUser ∧ freeAddr s p then some (addTimerInLoop (hand (newTimer s p w i) p) p) else none
  | .cancelInLoop id => if s.pc.inUser then some (cancelInLoop s id) else none
  | .handleRead =>
    match s.pc with
    | .idle => some (.ok { s with pc := .entered s.clock })
    | _ => none
  | .collect =>
    match s.pc with
    | .entered now => some (collect s now)
    | _ => none
  | .runTimer =>
    match s.pc with
    | .calling now ran (it :: todo) =>
      some ((s.heap.deref it.timer).map fun _ => { s with pc := .calling now (ran ++ [it]) todo })
    | _ => none
  | .endCalls =>
    match s.pc with
    | .calling now ran [] => some (.ok { s with callingExpiredTimer := false, pc := .resetting now ran })
    | _ => none
  | .resetTimer =>
    match s.pc with
    | .resetting now (it :: todo) => some (resetTimer { s with pc := .resetting now todo } now it)
    | _ => none
  | .rearm =>
    match s.pc with
    | .resetting _ [] => some (rearm { s with pc := .idle })
    | _ => none
  | .tick now => if s.clock ≤ now then some (.ok { s with clock := now, timerfd := s.timerfd.elapse now }) else none

def lts (P : Int → Prop) : Lts State Act where
  init s := ∃ clock₀, P clock₀ ∧ s = initial clock₀
  step s a t := step s a = some (.ok t)

end TimerQueue

end MyLearning
