import MyLearning.MyMuduo.EventLoop
import MyLearning.MyMuduo.TimerQueue

/-!
# Timers across threads

`addTimer` and `cancel` go through `runInLoop`: in the loop thread they act on the
queue at once, in any other thread they push a functor. The system is the event loop
together with the timer queue of its thread. The functors are those two and any
others; the channels are the one of the timer descriptor, whose callback is
`TimerQueue::handleRead`, and any others.

`adding` is where a thread stands in `addTimer`, and `returned` records the ids that
`addTimer` has returned; a thread can only cancel one of those. `addTimer` reads the
sequence number of its timer last, when the loop thread may have deleted the timer.
-/

namespace MyLearning

open TimerQueue (freeAddr newTimer hand)

namespace TimerThreads

inductive Functor where
  | addTimerInLoop (timer : Addr)
  | cancelInLoop (timerid : TimerId)
  | user (n : Nat)
  deriving DecidableEq

inductive Chan where
  | timerfd
  | user (n : Nat)
  deriving DecidableEq

inductive Adding where
  | allocated (id : TimerId)
  | handed (id : TimerId)
  deriving DecidableEq

structure State (T : Type) where
  loop : EventLoop.State T Functor Chan
  queue : TimerQueue.State
  adding : T → Option Adding
  returned : List TimerId

variable {T : Type}

def initial (clock : Int) : State T where
  loop := EventLoop.initial
  queue := TimerQueue.initial clock
  adding _ := none
  returned := []

/-- The loop thread runs code of the user: a callback of a timer, of another channel,
or a functor that is not one of the timer queue. -/
def inUser (s : State T) : Bool :=
  match s.loop.phase with
  | .handling .timerfd _ => s.queue.pc.isCalling && s.queue.pc.inUser
  | .inFunctor (.addTimerInLoop _) _ | .inFunctor (.cancelInLoop _) _ => false
  | p => p.inUser

inductive Act (T : Type) where
  | newTimer (th : T) (p : Addr) (when_ : Int) (interval : ℚ)
  | runAddTimer (th : T)
  | returnId (th : T)
  | addTimer (p : Addr) (when_ : Int) (interval : ℚ)
  | cancel (th : T) (id : TimerId)
  | runTimerFunctor
  | handleTimerfd
  | timerfd (a : TimerQueue.Act)
  | loop (a : EventLoop.Act T Functor Chan)
  | tick (now : Int)

def inHandleRead : TimerQueue.Act → Bool
  | .collect | .runTimer | .endCalls | .resetTimer | .rearm => true
  | _ => false

variable [DecidableEq T] (threadId : T)

/-- The thread is in no call, and in code of the user where it is the loop's. -/
def canCall (s : State T) (th : T) : Bool :=
  EventLoop.canCall threadId s.loop th && s.adding th == none && (decide (th ≠ threadId) || inUser s)

def plain (s : State T) : EventLoop.Act T Functor Chan → Bool
  | .queueInLoop th (.user _) | .runInLoop th (.user _) | .quit th | .wakeup th => canCall threadId s th
  | .queueInLoop _ _ | .runInLoop _ _ => false
  | .runFunctor =>
    match s.loop.phase with
    | .running (.user _ :: _) => true
    | _ => false
  | .handleEvent =>
    match s.loop.phase with
    | .dispatch (.channel .timerfd :: _) => false
    | _ => true
  | .endHandle => decide (s.queue.pc = .idle)
  | _ => true

def runInLoop (s : State T) (th : T) (f : Functor) : Option (State T) :=
  (EventLoop.step threadId s.loop (.runInLoop th f)).map fun l => { s with loop := l }

def execFunctor (q : TimerQueue.State) : Functor → Except Fault TimerQueue.State
  | .addTimerInLoop p => TimerQueue.addTimerInLoop (hand q p) p
  | .cancelInLoop id => TimerQueue.cancelInLoop q id
  | .user _ => .ok q

/-- `none` where the action cannot happen. -/
def step (s : State T) : Act T → Option (Except Fault (State T))
  | .newTimer th p w i =>
    if th ≠ threadId ∧ canCall threadId s th = true ∧ freeAddr s.queue p = true then
      some (.ok { s with
        queue := newTimer s.queue p w i
        adding := Function.update s.adding th (some (.allocated ⟨p, s.queue.numCreate⟩)) })
    else none
  | .runAddTimer th =>
    match s.adding th with
    | some (.allocated id) =>
      (runInLoop threadId s th (.addTimerInLoop id.timer)).map fun s =>
        .ok { s with adding := Function.update s.adding th (some (.handed id)) }
    | _ => none
  | .returnId th =>
    match s.adding th with
    | some (.handed id) =>
      if s.loop.call th = .idle then
        some (if (s.queue.heap id.timer).any (fun t => t.sequence == id.sequence) = true then
          .ok { s with adding := Function.update s.adding th none, returned := s.returned ++ [id] }
        else .error .dangling)
      else none
    | _ => none
  | .addTimer p w i =>
    if canCall threadId s threadId = true ∧ freeAddr s.queue p = true then
      some ((TimerQueue.addTimerInLoop (hand (newTimer s.queue p w i) p) p).map fun q =>
        { s with queue := q, returned := s.returned ++ [⟨p, s.queue.numCreate⟩] })
    else none
  | .cancel th id =>
    if canCall threadId s th = true ∧ id ∈ s.returned then
      if th = threadId then some ((TimerQueue.cancelInLoop s.queue id).map fun q => { s with queue := q })
      else (runInLoop threadId s th (.cancelInLoop id)).map .ok
    else none
  | .runTimerFunctor =>
    match s.loop.phase with
    | .running (f :: _) =>
      match f with
      | .user _ => none
      | f =>
        (EventLoop.step threadId s.loop .runFunctor).map fun l =>
          (execFunctor s.queue f).map fun q => { s with loop := l, queue := q }
    | _ => none
  | .handleTimerfd =>
    match s.loop.phase with
    | .dispatch (.channel .timerfd :: _) =>
      (EventLoop.step threadId s.loop .handleEvent).bind fun l =>
        (TimerQueue.step s.queue .handleRead).map fun r => r.map fun q => { s with loop := l, queue := q }
    | _ => none
  | .timerfd a =>
    match s.loop.phase with
    | .handling .timerfd _ =>
      if inHandleRead a = true ∧ s.loop.call threadId = .idle then
        (TimerQueue.step s.queue a).map fun r => r.map fun q => { s with queue := q }
      else none
    | _ => none
  | .loop a =>
    if plain threadId s a = true then (EventLoop.step threadId s.loop a).map fun l => .ok { s with loop := l }
    else none
  | .tick now => (TimerQueue.step s.queue (.tick now)).map fun r => r.map fun q => { s with queue := q }

def lts : Lts (State T) (Act T) where
  init s := ∃ clock, s = initial clock
  step s a t := step threadId s a = some (.ok t)

/-! ## The loop of the threads -/

theorem runInLoop_loop {s s' : State T} {th : T} {f : Functor} (h : runInLoop threadId s th f = some s') :
    EventLoop.step threadId s.loop (.runInLoop th f) = some s'.loop := by
  obtain ⟨l, hl, rfl⟩ := Option.map_eq_some_iff.mp h
  exact hl

theorem step_loop {s t : State T} {a : Act T} (h : (lts threadId).step s a t) :
    t.loop = s.loop ∨ ∃ b, EventLoop.step threadId s.loop b = some t.loop := by
  cases a with
  | newTimer th p w i =>
    simp only [lts, step, Option.ite_none_right_eq_some, Option.some.injEq, Except.ok.injEq] at h
    obtain ⟨-, rfl⟩ := h
    exact .inl rfl
  | runAddTimer th =>
    simp only [lts, step] at h
    split at h
    · obtain ⟨s', hs', h⟩ := Option.map_eq_some_iff.mp h
      have hl := runInLoop_loop threadId hs'
      cases h
      exact .inr ⟨_, hl⟩
    · cases h
  | returnId th =>
    simp only [lts, step] at h
    split at h
    · simp only [Option.ite_none_right_eq_some, Option.some.injEq] at h
      obtain ⟨-, h⟩ := h
      split at h
      · cases h; exact .inl rfl
      · cases h
    · cases h
  | addTimer p w i =>
    simp only [lts, step, Option.ite_none_right_eq_some, Option.some.injEq] at h
    obtain ⟨-, h⟩ := h
    obtain ⟨q, -, rfl⟩ := map_eq_ok.mp h
    exact .inl rfl
  | cancel th id =>
    simp only [lts, step, Option.ite_none_right_eq_some] at h
    obtain ⟨-, h⟩ := h
    split at h
    · obtain ⟨q, -, rfl⟩ := map_eq_ok.mp (Option.some.inj h)
      exact .inl rfl
    · obtain ⟨s', hs', h⟩ := Option.map_eq_some_iff.mp h
      have hl := runInLoop_loop threadId hs'
      cases h
      exact .inr ⟨_, hl⟩
  | runTimerFunctor =>
    simp only [lts, step] at h
    split at h
    · split at h
      · cases h
      · obtain ⟨l, hl, h⟩ := Option.map_eq_some_iff.mp h
        obtain ⟨q, -, rfl⟩ := map_eq_ok.mp h
        exact .inr ⟨_, hl⟩
    · cases h
  | handleTimerfd =>
    simp only [lts, step] at h
    split at h
    · obtain ⟨l, hl, h⟩ := Option.bind_eq_some_iff.mp h
      obtain ⟨r, -, h⟩ := Option.map_eq_some_iff.mp h
      obtain ⟨q, -, rfl⟩ := map_eq_ok.mp h
      exact .inr ⟨_, hl⟩
    · cases h
  | timerfd a =>
    simp only [lts, step] at h
    split at h
    · simp only [Option.ite_none_right_eq_some] at h
      obtain ⟨-, h⟩ := h
      obtain ⟨r, -, h⟩ := Option.map_eq_some_iff.mp h
      obtain ⟨q, -, rfl⟩ := map_eq_ok.mp h
      exact .inl rfl
    · cases h
  | loop a =>
    simp only [lts, step, Option.ite_none_right_eq_some, Option.map_eq_some_iff, Except.ok.injEq] at h
    obtain ⟨-, l, hl, rfl⟩ := h
    exact .inr ⟨_, hl⟩
  | tick now =>
    simp only [lts, step] at h
    obtain ⟨r, -, h⟩ := Option.map_eq_some_iff.mp h
    obtain ⟨q, -, rfl⟩ := map_eq_ok.mp h
    exact .inl rfl

theorem loop_simulation :
    Lts.Simulation (lts threadId) (EventLoop.lts threadId) fun s l => l = s.loop where
  init s h := by
    obtain ⟨clock, rfl⟩ := h
    exact ⟨_, rfl, rfl⟩
  step s a t l h hs := by
    subst h
    rcases step_loop threadId hs with hl | ⟨b, hb⟩
    · exact ⟨[], t.loop, hl ▸ .nil _, rfl⟩
    · exact ⟨[b], t.loop, .single hb, rfl⟩

theorem loop_reachable {s : State T} (h : (lts threadId).Reachable s) :
    (EventLoop.lts threadId).Reachable s.loop := by
  obtain ⟨l, hl, rfl⟩ := (loop_simulation threadId).reachable h
  exact hl

end TimerThreads

end MyLearning
