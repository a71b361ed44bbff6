import MyLearning.MyMuduo.EventLoopThreadPool
import MyLearning.MyMuduo.EventLoopThreadQuit

/-!
# A pool and its threads

`EventLoopThreadPool` with the threads it starts, each an `EventLoopThread` of its own. The base
thread runs `start()`, which waits in `startLoop()` for the loop of one thread after the other,
`getNextLoop()` and the destructor, which destroys the threads in the order they were made;
in between every thread goes on, and any thread calls into any loop. Objects that live have
different addresses, so a new loop is at none where another one lives.

`tids i` is the thread of the `i`-th `EventLoopThread` and `base` that of the base loop. What the
init callback does to the base loop, where `start()` calls it there, is left open.
-/

namespace MyLearning.PoolThreads

/-- Where the base thread stands: `starting i` at the head of the loop of `start`, `waiting i` in
`startLoop` in its turn `i`, `destroying i` at the `i`-th element of `threads_`. -/
inductive Pc where
  | outside
  | starting (i : Nat)
  | waiting (i : Nat)
  | destroying (i : Nat)
  deriving DecidableEq, Repr

structure State (T F C : Type) where
  pool : EventLoopThreadPool (Option Addr)
  pc : Pc
  threads : List (EventLoopThread.State T F C)

variable {T F C : Type}

def initial (baseLoop : Addr) (name : List Char) (numThreads : Int) : State T F C where
  pool := .setThreadNum (.create (some baseLoop) name) numThreads
  pc := .outside
  threads := []

def isOwn : EventLoopThread.Act T F C → Bool
  | .construct _ | .loop _ | .publish | .clear | .destroy => true
  | .startLoop _ | .endStartLoop | .enterDtor | .quit | .endQuit | .join => false

def isDtor : EventLoopThread.Act T F C → Bool
  | .enterDtor | .quit | .endQuit | .join => true
  | _ => false

def Free (s : State T F C) (p : Addr) : Prop := s.pool.baseLoop_ ≠ some p ∧ ∀ t ∈ s.threads, t.loops p = none

def Placed (s : State T F C) : EventLoopThread.Act T F C → Prop
  | .construct p => Free s p
  | _ => True

def put (s : State T F C) (i : Nat) (t : EventLoopThread.State T F C) : State T F C :=
  { s with threads := s.threads.set i t }

/-! ## The functions of the source -/

variable [DecidableEq T] (tids : Nat → T) (base : T)

def start (s : State T F C) (th : T) : Except Fault (State T F C) := do
  check (s.pool.started_ = false)
  EventLoopThreadPool.assertInLoopThread (fun _ => base) s.pool.baseLoop_ th
  return { s with pool := { s.pool with started_ := true }, pc := .starting 0 }

/-- One turn of the loop of `start` up to the wait in `startLoop`. -/
def newThread (s : State T F C) (i : Nat) (tid : Option Nat) : Except Fault (State T F C) := do
  let t ← EventLoopThread.startLoop EventLoopThread.initial tid
  return { s with
    pool := { s.pool with threads_ := s.pool.threads_ ++ [s.pool.threadName i] }
    pc := .waiting i
    threads := s.threads ++ [t] }

def pushLoop (s : State T F C) (i : Nat) (t : EventLoopThread.State T F C) : State T F C :=
  match t.starting with
  | .returned loop =>
    { put s i t with pool := { s.pool with loops_ := s.pool.loops_ ++ [loop] }, pc := .starting (i + 1) }
  | _ => put s i t

def destroyThread (s : State T F C) (i : Nat) (t : EventLoopThread.State T F C) : State T F C :=
  { put s i t with pc := if t.dtor = .finished then .destroying (i + 1) else .destroying i }

/-! ## The system -/

inductive Act (T F C : Type) where
  | start (th : T)
  | newThread (tid : Option Nat)
  | thread (i : Nat) (a : EventLoopThread.Act T F C)
  | endStartLoop
  | endStart
  | getNextLoop (th : T)
  | destroy
  | dtor (a : EventLoopThread.Act T F C)

def threadStep (s : State T F C) (i : Nat) (a : EventLoopThread.Act T F C) :
    Option (Except Fault (EventLoopThread.State T F C)) :=
  s.threads[i]?.bind fun t => EventLoopThread.step (tids i) base t a

instance (s : State T F C) (p : Addr) : Decidable (Free s p) := inferInstanceAs (Decidable (_ ∧ _))

instance (s : State T F C) : ∀ a, Decidable (Placed s a)
  | .construct p => inferInstanceAs (Decidable (Free s p))
  | .startLoop _ | .loop _ | .publish | .clear | .destroy | .endStartLoop | .enterDtor | .quit | .endQuit | .join =>
    inferInstanceAs (Decidable True)

def step (s : State T F C) : Act T F C → Option (Except Fault (State T F C))
  | .start th => if s.pc = .outside then some (start base s th) else none
  | .newThread tid =>
    match s.pc with
    | .starting i => if (i : Int) < s.pool.numThreads_ then some (newThread s i tid) else none
    | _ => none
  | .thread i a =>
    if isOwn a = true ∧ Placed s a then (threadStep tids base s i a).map fun r => r.map (put s i) else none
  | .endStartLoop =>
    match s.pc with
    | .waiting i => (threadStep tids base s i .endStartLoop).map fun r => r.map (pushLoop s i)
    | _ => none
  | .endStart =>
    match s.pc with
    | .starting i => if (i : Int) < s.pool.numThreads_ then none else some (.ok { s with pc := .outside })
    | _ => none
  | .getNextLoop th =>
    if s.pc = .outside then
      some ((EventLoopThreadPool.getNextLoop (fun _ => base) s.pool th).map fun r => { s with pool := r.2 })
    else none
  | .destroy => if s.pc = .outside then some (.ok { s with pc := .destroying 0 }) else none
  | .dtor a =>
    match s.pc with
    | .destroying i =>
      if isDtor a = true then (threadStep tids base s i a).map fun r => r.map (destroyThread s i) else none
    | _ => none

/-- `numThreads` is an `int`. -/
def lts : Lts (State T F C) (Act T F C) where
  init s := ∃ baseLoop name numThreads, 0 ≤ numThreads ∧ numThreads < 2 ^ 31 ∧ s = initial baseLoop name numThreads
  step s a t := step tids base s a = some (.ok t)

/-! ## What one step does -/

inductive Effect : State T F C → Act T F C → State T F C → Prop
  | start {s} : s.pc = .outside → s.pool.started_ = false →
      Effect s (.start base) { s with pool := { s.pool with started_ := true }, pc := .starting 0 }
  | newThread {s} {i : Nat} {tid t} : s.pc = .starting i → (i : Int) < s.pool.numThreads_ →
      EventLoopThread.startLoop EventLoopThread.initial tid = .ok t → Effect s (.newThread tid)
        { s with
          pool := { s.pool with threads_ := s.pool.threads_ ++ [s.pool.threadName i] }
          pc := .waiting i
          threads := s.threads ++ [t] }
  | thread {s i a t t'} : s.threads[i]? = some t → isOwn a = true → Placed s a →
      (EventLoopThread.lts (tids i) base).step t a t' → Effect s (.thread i a) (put s i t')
  | endStartLoop {s i t p} : s.pc = .waiting i → s.threads[i]? = some t → t.starting = .waiting → t.loop_ = some p →
      Effect s .endStartLoop
        { put s i { t with starting := .returned (some p) } with
          pool := { s.pool with loops_ := s.pool.loops_ ++ [some p] }, pc := .starting (i + 1) }
  | endStart {s} {i : Nat} : s.pc = .starting i → ¬ (i : Int) < s.pool.numThreads_ →
      Effect s .endStart { s with pc := .outside }
  | getNextLoop {s th r} : s.pc = .outside → EventLoopThreadPool.getNextLoop (fun _ => base) s.pool th = .ok r →
      Effect s (.getNextLoop th) { s with pool := r.2 }
  | destroy {s} : s.pc = .outside → Effect s .destroy { s with pc := .destroying 0 }
  | dtor {s i a t t'} : s.pc = .destroying i → s.threads[i]? = some t → isDtor a = true →
      (EventLoopThread.lts (tids i) base).step t a t' → Effect s (.dtor a) (destroyThread s i t')

variable {tids base} {s t : State T F C} {a : Act T F C}

theorem threadStep_eq {i : Nat} {a : EventLoopThread.Act T F C} {r : Except Fault (EventLoopThread.State T F C)} :
    threadStep tids base s i a = some r ↔ ∃ t, s.threads[i]? = some t ∧ EventLoopThread.step (tids i) base t a = some r :=
  Option.bind_eq_some_iff

theorem step_effect (h : (lts tids base).step s a t) : Effect tids base s a t := by
  cases a with
  | start th =>
    simp only [lts, step, Option.ite_none_right_eq_some, Option.some.injEq] at h
    obtain ⟨hpc, h⟩ := h
    obtain ⟨hs, h⟩ := check_bind_eq_ok.mp h
    obtain ⟨_, hth, h⟩ := bind_eq_ok.mp h
    cases h
    cases EventLoopThreadPool.assertInLoopThread_eq_ok hth
    exact .start hpc hs
  | newThread tid =>
    simp only [lts, step] at h
    split at h
    · rename_i i hpc
      simp only [Option.ite_none_right_eq_some, Option.some.injEq] at h
      obtain ⟨hi, h⟩ := h
      obtain ⟨t, ht, h⟩ := bind_eq_ok.mp h
      cases h
      exact .newThread hpc hi ht
    · cases h
  | thread i a =>
    simp only [lts, step, Option.ite_none_right_eq_some, Option.map_eq_some_iff] at h
    obtain ⟨⟨ha, hp⟩, r, hr, h⟩ := h
    obtain ⟨t, ht, hr⟩ := threadStep_eq.mp hr
    obtain ⟨t', rfl, rfl⟩ := map_eq_ok.mp h
    exact .thread ht ha hp hr
  | endStartLoop =>
    simp only [lts, step] at h
    split at h
    · rename_i i hpc
      obtain ⟨r, hr, h⟩ := Option.map_eq_some_iff.mp h
      obtain ⟨t, ht, hr⟩ := threadStep_eq.mp hr
      obtain ⟨t', rfl, rfl⟩ := map_eq_ok.mp h
      cases EventLoopThread.step_effect hr with
      | endStartLoop hs hl =>
        have he : Effect tids base s .endStartLoop _ := .endStartLoop hpc ht hs hl
        rw [← hl] at he
        exact he
    · cases h
  | endStart =>
    simp only [lts, step] at h
    split at h
    · rename_i i hpc
      simp only [Option.ite_none_left_eq_some, Option.some.injEq] at h
      obtain ⟨hi, h⟩ := h
      cases h
      exact .endStart hpc hi
    · cases h
  | getNextLoop th =>
    simp only [lts, step, Option.ite_none_right_eq_some, Option.some.injEq] at h
    obtain ⟨hpc, h⟩ := h
    obtain ⟨r, hr, rfl⟩ := map_eq_ok.mp h
    exact .getNextLoop hpc hr
  | destroy =>
    simp only [lts, step, Option.ite_none_right_eq_some, Option.some.injEq] at h
    obtain ⟨hpc, h⟩ := h
    cases h
    exact .destroy hpc
  | dtor a =>
    simp only [lts, step] at h
    split at h
    · rename_i i hpc
      simp only [Option.ite_none_right_eq_some, Option.map_eq_some_iff] at h
      obtain ⟨ha, r, hr, h⟩ := h
      obtain ⟨t, ht, hr⟩ := threadStep_eq.mp hr
      obtain ⟨t', rfl, rfl⟩ := map_eq_ok.mp h
      exact .dtor hpc ht ha hr
    · cases h

end MyLearning.PoolThreads
