import MyLearning.Lib.Checked

/-!
# Timestamps, timers and the timer descriptor

A timestamp is a signed 64-bit count of microseconds since the epoch, kept as an
`Int`; zero and negative counts are invalid. A `Timer` carries its next expiration and, when
it repeats, the interval `restart` adds to the clock. `TimerFd` is the kernel's
side of a timer descriptor: one armed deadline at most, and the number of
expirations nobody has read yet.
-/

namespace MyLearning

/-! ## Timestamps -/

namespace Timestamp

def kMicrosecondsPerSecond : Int := 1000 * 1000

def invalid : Int := 0

def valid (t : Int) : Bool := decide (0 < t)

theorem valid_iff {t : Int} : valid t = true ↔ 0 < t := by simp [valid]

end Timestamp

/-- `seconds` is an `int`: a fractional argument has lost its fraction before. -/
def addTime (t : Int) (seconds : Int) : Except Fault Int := do
  let delta ← int64 (seconds * Timestamp.kMicrosecondsPerSecond)
  int64 (delta + t)

theorem addTime_error {t : Int} {n : Int} {f : Fault} (h : addTime t n = .error f) : f = .overflow := by
  unfold addTime at h
  cases hd : int64 (n * Timestamp.kMicrosecondsPerSecond) with
  | error e => rw [hd] at h; cases h; exact int64_error hd
  | ok d => rw [hd] at h; exact int64_error h

theorem addTime_ok {t u : Int} {n : Int} (h : addTime t n = .ok u) :
    u = t + n * Timestamp.kMicrosecondsPerSecond := by
  obtain ⟨d, hd, hu⟩ := bind_eq_ok.mp h
  rw [← (int64_eq_ok.mp hu).2, ← (int64_eq_ok.mp hd).2, Int.add_comm]

/-! ## Timers -/

/-- `repeat_` is fixed by the constructor; `expiration` is the only field that
changes. -/
structure Timer where
  expiration : Int
  interval : ℚ
  repeat_ : Bool
  sequence : Nat
  repeat_eq : repeat_ = decide (0 < interval)

namespace Timer

def create (when_ : Int) (interval : ℚ) (sequence : Nat) : Timer :=
  ⟨when_, interval, decide (0 < interval), sequence, rfl⟩

def restart (t : Timer) (now : Int) : Except Fault Timer :=
  if t.repeat_ then do
    let seconds ← toInt32 t.interval
    let expiration ← addTime now seconds
    return { t with expiration := expiration }
  else return { t with expiration := Timestamp.invalid }

theorem restart_error {t : Timer} {now : Int} {f : Fault} (h : t.restart now = .error f) :
    f = .overflow := by
  unfold restart at h
  split at h
  · cases hn : toInt32 t.interval with
    | error e => rw [hn] at h; cases h; exact int32_error hn
    | ok n =>
      cases ha : addTime now n with
      | error e => rw [hn, ok_bind, ha] at h; cases h; exact addTime_error ha
      | ok u => rw [hn, ok_bind, ha] at h; cases h
  · cases h

theorem restart_ok {t u : Timer} {now : Int} (h : t.restart now = .ok u) :
    u.sequence = t.sequence ∧ u.repeat_ = t.repeat_ ∧ (t.repeat_ = true → now ≤ u.expiration) := by
  unfold restart at h
  split at h
  · rename_i hr
    obtain ⟨n, hn, h⟩ := bind_eq_ok.mp h
    obtain ⟨e, he, h⟩ := bind_eq_ok.mp h
    cases h
    refine ⟨rfl, rfl, ?_⟩
    intro _
    have hpos : 0 < t.interval := by simpa [t.repeat_eq] using hr
    have hn0 : 0 ≤ n := by
      rw [← (int32_eq_ok.mp hn).2]; exact truncate_nonneg (le_of_lt hpos)
    have := addTime_ok he
    simp only [Timestamp.kMicrosecondsPerSecond] at this
    show now ≤ e
    omega
  · rename_i hr
    cases h
    exact ⟨rfl, rfl, fun h => absurd h hr⟩

end Timer

/-- What `addTimer` hands out: the timer's address and its sequence number. -/
structure TimerId where
  timer : Addr
  sequence : Nat
  deriving DecidableEq, Repr

/-! ## The timer descriptor -/

structure Timespec where
  tvSec : Int
  tvNsec : Int
  deriving DecidableEq, Repr

namespace Timespec

def isZero (ts : Timespec) : Bool := decide (ts.tvSec = 0 ∧ ts.tvNsec = 0)

def micros (ts : Timespec) : Int := ts.tvSec * Timestamp.kMicrosecondsPerSecond + ts.tvNsec / 1000

end Timespec

structure Arm where
  deadline : Int
  armedAt : Int
  deriving DecidableEq, Repr

structure TimerFd where
  arm : Option Arm
  expirations : Nat
  deriving DecidableEq, Repr

namespace TimerFd

def readable (fd : TimerFd) : Bool := decide (0 < fd.expirations)

/-- A relative, one-shot `timerfd_settime`: the old expiration count is dropped,
and an all-zero value disarms. -/
def settime (fd : TimerFd) (value : Timespec) (now : Int) : TimerFd :=
  if value.isZero then { fd with arm := none, expirations := 0 }
  else { fd with arm := some ⟨now + value.micros, now⟩, expirations := 0 }

def read (fd : TimerFd) : TimerFd × Option Nat :=
  if fd.readable then ({ fd with expirations := 0 }, some fd.expirations) else (fd, none)

def elapse (fd : TimerFd) (now : Int) : TimerFd :=
  match fd.arm with
  | some a => if a.deadline ≤ now then { fd with arm := none, expirations := fd.expirations + 1 } else fd
  | none => fd

end TimerFd

def howMuchTimeFromNow (when_ now : Int) : Except Fault Timespec := do
  let microseconds ← int64 (when_ - now)
  let microseconds := if microseconds < 100 then 100 else microseconds
  return { tvSec := microseconds.tdiv Timestamp.kMicrosecondsPerSecond
           tvNsec := microseconds.tmod Timestamp.kMicrosecondsPerSecond * 1000 }

def resetTimerfd (fd : TimerFd) (expired now : Int) : Except Fault TimerFd := do
  let value ← howMuchTimeFromNow expired now
  return fd.settime value now

theorem howMuchTimeFromNow_error {w n : Int} {f : Fault} (h : howMuchTimeFromNow w n = .error f) :
    f = .overflow := by
  unfold howMuchTimeFromNow at h
  cases hd : int64 (w - n) with
  | error e => rw [hd] at h; cases h; exact int64_error hd
  | ok d => rw [hd] at h; cases h

theorem resetTimerfd_error {fd : TimerFd} {w n : Int} {f : Fault} (h : resetTimerfd fd w n = .error f) :
    f = .overflow := by
  unfold resetTimerfd at h
  cases hd : howMuchTimeFromNow w n with
  | error e => rw [hd] at h; cases h; exact howMuchTimeFromNow_error hd
  | ok d => rw [hd] at h; cases h

theorem howMuchTimeFromNow_ok {w n : Int} {ts : Timespec} (h : howMuchTimeFromNow w n = .ok ts) :
    ts.isZero = false ∧ ts.micros = max (w - n) 100 := by
  obtain ⟨d, hd, h⟩ := bind_eq_ok.mp h
  cases h
  obtain ⟨-, rfl⟩ := int64_eq_ok.mp hd
  have key : ∀ m : Int, 100 ≤ m →
      Timespec.isZero ⟨m.tdiv 1000000, m.tmod 1000000 * 1000⟩ = false ∧
        Timespec.micros ⟨m.tdiv 1000000, m.tmod 1000000 * 1000⟩ = m := by
    intro m hm
    have h0 : (0 : Int) ≤ m := by omega
    simp only [Timespec.isZero, Timespec.micros, Timestamp.kMicrosecondsPerSecond,
      Int.tdiv_eq_ediv_of_nonneg h0, Int.tmod_eq_emod_of_nonneg h0, decide_eq_false_iff_not]
    omega
  simp only [Timestamp.kMicrosecondsPerSecond]
  split
  · have := key 100 (by omega)
    exact ⟨this.1, by rw [max_eq_right (by omega)]; exact this.2⟩
  · have := key (w - n) (by omega)
    exact ⟨this.1, by rw [max_eq_left (by omega)]; exact this.2⟩

theorem resetTimerfd_ok {fd fd' : TimerFd} {w n : Int} (h : resetTimerfd fd w n = .ok fd') :
    fd' = ⟨some ⟨max w (n + 100), n⟩, 0⟩ := by
  obtain ⟨ts, hts, h⟩ := bind_eq_ok.mp h
  cases h
  obtain ⟨hz, hm⟩ := howMuchTimeFromNow_ok hts
  simp only [TimerFd.settime, hz, Bool.false_eq_true, ite_false, hm]
  congr 3
  omega

end MyLearning
