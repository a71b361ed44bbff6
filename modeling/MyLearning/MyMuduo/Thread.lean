import MyLearning.Lib.Checked
import MyLearning.Lib.Lts

/-!
# The life of a thread

`Thread` starts an OS thread once, and `join()` or the destructor gives it up. The functions
are those of the source; what `pthread_create` does is an argument of `start`, and a failed
one is fatal. `os` records for each OS thread that was created how often it was joined and
detached, and `ended` that `~Thread` has returned; no function reads them.

No function ever sets `started_`, so a thread that was started cannot be joined, and is not
detached either.
-/

namespace MyLearning

structure OsThread where
  joins : Nat
  detaches : Nat
  deriving DecidableEq, Repr

structure Thread where
  started : Bool
  joined : Bool
  pthreadId : Nat
  tid : Nat
  latch : Nat
  deriving DecidableEq, Repr

namespace Thread

structure State extends Thread where
  os : List OsThread
  ended : Bool
  deriving DecidableEq, Repr

def initial : State where
  started := false
  joined := false
  pthreadId := 0
  tid := 0
  latch := 1
  os := []
  ended := false

/-! ## The functions of the source -/

/-- `pthread_create`: a new OS thread is known by its place in `os`. -/
def pthreadCreate (s : State) : State :=
  { s with pthreadId := s.os.length, os := s.os ++ [⟨0, 0⟩] }

def pthreadJoin (s : State) : State :=
  { s with os := s.os.modify s.pthreadId fun o => { o with joins := o.joins + 1 } }

def pthreadDetach (s : State) : State :=
  { s with os := s.os.modify s.pthreadId fun o => { o with detaches := o.detaches + 1 } }

def runInThread (s : State) (tid : Nat) : State := { s with tid := tid, latch := s.latch - 1 }

/-- `tid` is the id of the new OS thread, and `none` where `pthread_create` fails: then
`started_` is cleared and the log statement aborts. -/
def start (s : State) (tid : Option Nat) : Except Fault State := do
  check (s.started = false)
  match tid with
  | none => .error .fatal
  | some tid => do
    let s := runInThread (pthreadCreate s) tid
    check (0 < s.tid)
    return s

def join (s : State) : Except Fault State := do
  check (s.started = true)
  check (s.joined = false)
  return pthreadJoin { s with joined := true }

def destroy (s : State) : State :=
  let s := if s.started = true ∧ s.joined = false then pthreadDetach s else s
  { s with ended := true }

/-! ## The system -/

inductive Act where
  | start (tid : Option Nat)
  | join
  | destroy
  deriving DecidableEq, Repr

/-- A successful start comes once, a join after it and once, the destructor last. -/
def Permitted (s : State) : Act → Prop
  | .start tid => s.ended = false ∧ s.os = [] ∧ ∀ n, tid = some n → 0 < n
  | .join => s.ended = false ∧ s.os ≠ [] ∧ s.joined = false
  | .destroy => s.ended = false

def exec (s : State) : Act → Except Fault State
  | .start tid => start s tid
  | .join => join s
  | .destroy => .ok (destroy s)

def lts : Lts State Act where
  init s := s = initial
  step s a t := Permitted s a ∧ exec s a = .ok t

/-! ## Threads are never started -/

/-- `started_` is false, and no OS thread was given up. -/
structure Leaked (s : State) : Prop where
  started : s.started = false
  os : ∀ o ∈ s.os, o = ⟨0, 0⟩

theorem initial_leaked : Leaked initial := ⟨rfl, fun o h => by cases h⟩

section
variable {s t : State} (l : Leaked s)
include l

theorem Leaked.join : join s = .error .assertion := by
  unfold Thread.join
  exact check_bind_error (by simp [l.started])

theorem Leaked.destroy : Thread.destroy s = { s with ended := true } := by
  unfold Thread.destroy
  simp [l.started]

theorem Leaked.start {tid : Option Nat} (h : start s tid = .ok t) :
    ∃ n, tid = some n ∧ t = runInThread (pthreadCreate s) n := by
  unfold Thread.start at h
  rw [check_pos l.started, ok_bind] at h
  cases tid with
  | none => cases h
  | some n =>
    obtain ⟨-, h⟩ := check_bind_eq_ok.mp h
    cases h
    exact ⟨n, rfl, rfl⟩

theorem Leaked.created (n : Nat) : Leaked (runInThread (pthreadCreate s) n) := by
  refine ⟨l.started, ?_⟩
  intro o ho
  rcases List.mem_append.mp ho with ho | ho
  · exact l.os o ho
  · exact List.mem_singleton.mp ho

theorem Leaked.step {a : Act} (h : lts.step s a t) : Leaked t := by
  obtain ⟨-, h⟩ := h
  cases a with
  | start tid =>
    obtain ⟨n, -, rfl⟩ := l.start h
    exact l.created n
  | join =>
    change Thread.join s = .ok t at h
    rw [l.join] at h
    cases h
  | destroy =>
    cases h
    rw [l.destroy]
    exact ⟨l.started, l.os⟩

end

/-! ## Joined or detached -/

/-- A thread that was started is known to be, can be joined where that is permitted, and at the
end every OS thread was joined once or detached once. -/
structure GivenUp (s : State) : Prop where
  started : s.os ≠ [] → s.started = true
  joinable : Permitted s .join → ∃ t, exec s .join = .ok t
  once : s.ended = true → ∀ o ∈ s.os, o = ⟨1, 0⟩ ∨ o = ⟨0, 1⟩

theorem givenUp_iff {s : State} (l : Leaked s) : GivenUp s ↔ s.os = [] := by
  constructor
  · intro h
    by_contra hne
    have := h.started hne
    rw [l.started] at this
    cases this
  · intro h
    refine ⟨fun hne => absurd h hne, fun hp => absurd h hp.2.1, ?_⟩
    intro _ o ho
    rw [h] at ho
    cases ho

def Starts (a : Act) : Prop := ∃ tid, a = .start (some tid)

theorem step_givenUp_iff {s t : State} {a : Act} (l : Leaked s) (g : GivenUp s) (h : lts.step s a t) :
    GivenUp t ↔ ¬ Starts a := by
  have hos := (givenUp_iff l).mp g
  rw [givenUp_iff (l.step h)]
  obtain ⟨hp, h⟩ := h
  cases a with
  | start tid =>
    obtain ⟨n, rfl, rfl⟩ := l.start h
    refine iff_of_false ?_ fun hn => hn ⟨n, rfl⟩
    intro hnil
    exact List.append_ne_nil_of_right_ne_nil _ (List.cons_ne_nil _ _) hnil
  | join => exact absurd hos hp.2.1
  | destroy =>
    cases h
    rw [l.destroy]
    refine iff_of_true hos ?_
    intro hn
    obtain ⟨tid, hn⟩ := hn
    cases hn

end Thread

end MyLearning
