import MyLearning.Lib.Checked
import MyLearning.Lib.Lts

/-!
# The token buckets

The table of buckets, the thread `thr_alrm` that fills them, and any number of threads
that make and destroy buckets and fetch and return tokens. What happens while `mut_job`
or a bucket's `mut` is held is one step; the alarm thread holds `mut_job` for a whole
sweep over the table and takes each `mut` in turn. A thread in `pthread_cond_wait` may
also wake up by itself.
-/

namespace MyLearning

def mytbfMax : Nat := 1024

structure MytbfSt where
  cps : Int
  brust : Int
  token : Int
  pos : Nat
  deriving DecidableEq, Repr

namespace Mytbf

def add (me : MytbfSt) (size : Int) : Except Fault MytbfSt := do
  let token ← int32 (me.token + size)
  return { me with token := if token > me.brust then me.brust else token }

protected def min (a b : Int) : Int := if a > b then b else a

/-- Where a thread stands: `locking` before the lock of `mytbf_fetchtocken`, or of the
mutex after a wait. -/
inductive Pc where
  | idle
  | placing (me : Addr)
  | locking (me : Addr) (size : Int)
  | waiting (me : Addr) (size : Int)
  | freeing (me : Addr)
  deriving DecidableEq, Repr

/-- `alarm` is the next place of the table that the alarm thread looks at, while it holds `mut_job`. -/
structure State (T : Type) where
  loaded : Bool
  job : Nat → Option Addr
  heap : Heap MytbfSt
  pc : T → Pc
  alarm : Option Nat

inductive Event where
  | ticked (me : Addr)
  | fetched (me : Addr) (n : Int)
  | returned (me : Addr) (size : Int)
  deriving DecidableEq, Repr

variable {T : Type} [DecidableEq T]

def State.setPc (s : State T) (t : T) (pc : Pc) : State T := { s with pc := Function.update s.pc t pc }

def Pc.broadcast (me : Addr) : Pc → Pc
  | .waiting p size => if p = me then .locking p size else .waiting p size
  | pc => pc

/-- `pthread_cond_broadcast`: who waits for the bucket goes for its mutex. -/
def State.broadcast (s : State T) (me : Addr) : State T := { s with pc := fun t => (s.pc t).broadcast me }

/-! ## Making and destroying a bucket -/

def getFreePosUnlocked (job : Nat → Option Addr) : Option Nat := (List.range mytbfMax).find? fun i => job i = none

/-- `mytbf_init` up to the lock of `mut_job`; the first call starts the alarm thread. -/
def init (s : State T) (t : T) (cps brust : Int) (me : Addr) : State T :=
  { s with loaded := true, heap := s.heap.write me ⟨cps, brust, 0, 0⟩ }.setPc t (.placing me)

def place (s : State T) (t : T) (me : Addr) : Except Fault (State T) :=
  match getFreePosUnlocked s.job with
  | none => do
    let h ← s.heap.free me
    return { s with heap := h }.setPc t .idle
  | some pos => do
    let st ← s.heap.deref me
    return { s with
      heap := s.heap.write me { st with pos := pos }
      job := Function.update s.job pos (some me) }.setPc t .idle

/-- `mytbf_destory` up to the unlock of `mut_job`. -/
def destory (s : State T) (t : T) (me : Addr) : Except Fault (State T) := do
  let st ← s.heap.deref me
  return { s with job := Function.update s.job st.pos none }.setPc t (.freeing me)

def free (s : State T) (t : T) (me : Addr) : Except Fault (State T) := do
  let h ← s.heap.free me
  return { s with heap := h }.setPc t .idle

/-! ## Tokens -/

/-- `mytbf_fetchtocken` from where it gets the mutex: to the end, or into `pthread_cond_wait`. -/
def fetchtocken (s : State T) (t : T) (me : Addr) (size : Int) : Except Fault (State T × Option Event) := do
  let st ← s.heap.deref me
  if st.token ≤ 0 then return (s.setPc t (.waiting me size), none)
  else do
    let n := Mytbf.min st.token size
    let token ← int32 (st.token - n)
    return ({ s with heap := s.heap.write me { st with token := token } }.setPc t .idle, some (.fetched me n))

def returntoken (s : State T) (me : Addr) (size : Int) : Except Fault (State T × Option Event) := do
  let st ← s.heap.deref me
  let st ← add st size
  return ({ s with heap := s.heap.write me st }.broadcast me, some (.returned me size))

/-- One turn of the loop of `thr_alrm` over the table. -/
def thrAlrm (s : State T) (i : Nat) : Except Fault (State T × Option Event) :=
  match s.job i with
  | none => return ({ s with alarm := some (i + 1) }, none)
  | some me => do
    let st ← s.heap.deref me
    let st ← add st st.cps
    return ({ s with heap := s.heap.write me st, alarm := some (i + 1) }.broadcast me, some (.ticked me))

/-! ## The system -/

inductive Act (T : Type) where
  | init (t : T) (cps brust : Int) (me : Addr)
  | place (t : T) (me : Addr)
  | destory (t : T) (me : Addr)
  | free (t : T) (me : Addr)
  | fetchtocken (t : T) (me : Addr) (size : Int)
  | lock (t : T) (me : Addr) (size : Int)
  | wake (t : T) (me : Addr) (size : Int)
  | returntoken (t : T) (me : Addr) (size : Int)
  | alarmLock
  | alarmTurn (i : Nat)
  | alarmUnlock

def enabled (s : State T) : Act T → Prop
  | .init t _ _ me => s.pc t = .idle ∧ s.heap me = none
  | .place t me => s.pc t = .placing me ∧ s.alarm = none
  | .destory t _ => s.pc t = .idle ∧ s.alarm = none
  | .free t me => s.pc t = .freeing me
  | .fetchtocken t _ _ => s.pc t = .idle
  | .lock t me size => s.pc t = .locking me size
  | .wake t me size => s.pc t = .waiting me size
  | .returntoken t _ _ => s.pc t = .idle
  | .alarmLock => s.loaded = true ∧ s.alarm = none
  | .alarmTurn i => s.alarm = some i ∧ i < mytbfMax
  | .alarmUnlock => s.alarm = some mytbfMax

def exec (s : State T) : Act T → Except Fault (State T × Option Event)
  | .init t cps brust me => return (init s t cps brust me, none)
  | .place t me => (place s t me).map (·, none)
  | .destory t me => (destory s t me).map (·, none)
  | .free t me => (free s t me).map (·, none)
  | .fetchtocken t me size => return (s.setPc t (.locking me size), none)
  | .lock t me size => fetchtocken s t me size
  | .wake t me size => return (s.setPc t (.locking me size), none)
  | .returntoken _ me size => returntoken s me size
  | .alarmLock => return ({ s with alarm := some 0 }, none)
  | .alarmTurn i => thrAlrm s i
  | .alarmUnlock => return ({ s with alarm := none }, none)

def initial : State T := ⟨false, fun _ => none, fun _ => none, fun _ => .idle, none⟩

/-- A step is labelled with what it did to the tokens. -/
def lts : Lts (State T) (Act T × Option Event) where
  init s := s = initial
  step s l t := enabled s l.1 ∧ exec s l.1 = .ok (t, l.2)

end Mytbf

end MyLearning
