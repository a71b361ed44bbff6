import Mathlib.Algebra.Order.Field.Basic
import Mathlib.Tactic.Linarith
import Mathlib.Tactic.NormNum
import Mathlib.Tactic.Ring
import MyLearning.MyMuduo.Connector
import MyLearning.MyMuduo.TimerCancel

/-!
# Delays in seconds

`runAfter` and `runEvery` of the loop take a `double`, a repeating timer keeps one, and a
connector asks for `retryDelayMs_/1000.0`; `addTime` takes an `int`, so each of them loses
the fraction of its seconds. A delay is kept to the microsecond exactly when that
fraction is below one, and a retry waits its milliseconds exactly when they make
whole seconds. A timer that is not repeated never starts before its expiration.
-/

namespace MyLearning

/-! ## Seconds and microseconds -/

/-- `x` microseconds after `now` is a time that 64 bits can hold, and the seconds of `x` are an `int`. -/
structure InRange (now : Int) (x : ℚ) : Prop where
  seconds : ⌊x⌋ < 2 ^ 31
  low : -2 ^ 63 ≤ now + ⌊x⌋ * 10 ^ 6
  high : now + ⌊x⌋ * 10 ^ 6 < 2 ^ 63

/-- The fraction of the seconds `x` is less than a microsecond. -/
structure WholeSeconds (now : Int) (x : ℚ) : Prop where
  range : InRange now x
  fraction : Int.fract x < 1 / 10 ^ 6

theorem floor_micros (x : ℚ) : ⌊x * 10 ^ 6⌋ = ⌊x⌋ * 10 ^ 6 + ⌊Int.fract x * 10 ^ 6⌋ := by
  have h : x * 10 ^ 6 = ((⌊x⌋ * 10 ^ 6 : ℤ) : ℚ) + Int.fract x * 10 ^ 6 := by
    unfold Int.fract
    push_cast
    ring
  rw [h, Int.floor_intCast_add]

theorem floor_micros_eq (x : ℚ) : ⌊x * 10 ^ 6⌋ = ⌊x⌋ * 10 ^ 6 ↔ Int.fract x < 1 / 10 ^ 6 := by
  have h0 : (0 : ℚ) ≤ Int.fract x * 10 ^ 6 := mul_nonneg (Int.fract_nonneg x) (by norm_num)
  rw [floor_micros, add_eq_left, Int.floor_eq_zero_iff, Set.mem_Ico, lt_div_iff₀ (by norm_num)]
  exact and_iff_right h0

theorem addTime_toInt32 {now : Int} {x : ℚ} (hx : 0 ≤ x) {u : Int} :
    (toInt32 x >>= addTime now) = .ok u ↔ InRange now x ∧ u = now + ⌊x⌋ * 10 ^ 6 := by
  have h0 : 0 ≤ ⌊x⌋ := Int.floor_nonneg.mpr hx
  unfold toInt32 truncate addTime Timestamp.kMicrosecondsPerSecond
  rw [if_pos hx]
  simp only [bind_eq_ok, int32_eq_ok, int64_eq_ok]
  constructor
  · intro h
    obtain ⟨_, ⟨⟨-, hs⟩, rfl⟩, _, ⟨-, rfl⟩, ⟨hl, hh⟩, rfl⟩ := h
    exact ⟨⟨hs, by omega, by omega⟩, by omega⟩
  · intro ⟨⟨hs, hl, hh⟩, hu⟩
    exact ⟨⌊x⌋, ⟨⟨by omega, hs⟩, rfl⟩, ⌊x⌋ * (1000 * 1000), ⟨⟨by omega, by omega⟩, rfl⟩, ⟨by omega, by omega⟩, by omega⟩

/-! ## Timer::restart -/

namespace Timer

theorem restart_repeating {t : Timer} (h : 0 < t.interval) (now : Int) {u : Timer} :
    t.restart now = .ok u ↔ InRange now t.interval ∧ u = { t with expiration := now + ⌊t.interval⌋ * 10 ^ 6 } := by
  have hr : t.repeat_ = true := by rw [t.repeat_eq, decide_eq_true_iff]; exact h
  have hbind : t.restart now =
      (toInt32 t.interval >>= addTime now) >>= fun e => pure { t with expiration := e } := by
    unfold restart
    rw [if_pos hr, bind_assoc]
  rw [hbind, bind_eq_ok]
  simp only [addTime_toInt32 (le_of_lt h), pure_eq_ok, Except.ok.injEq]
  constructor
  · intro hex
    obtain ⟨e, ⟨hin, rfl⟩, rfl⟩ := hex
    exact ⟨hin, rfl⟩
  · intro h
    obtain ⟨hin, hu⟩ := h
    exact ⟨_, ⟨hin, rfl⟩, hu.symm⟩

theorem restart_exact_iff {t : Timer} (h : 0 < t.interval) (now : Int) :
    t.restart now = .ok { t with expiration := now + ⌊t.interval * 10 ^ 6⌋ } ↔ WholeSeconds now t.interval := by
  rw [restart_repeating h]
  constructor
  · intro ⟨hin, hu⟩
    refine ⟨hin, (floor_micros_eq _).mp ?_⟩
    have he := congrArg expiration hu
    simp only at he
    omega
  · intro hw
    exact ⟨hw.range, by rw [(floor_micros_eq _).mpr hw.fraction]⟩

theorem restart_later_iff {t : Timer} (h : 0 < t.interval) (now : Int) :
    (∃ u, t.restart now = .ok u ∧ now < u.expiration) ↔ 1 ≤ t.interval ∧ InRange now t.interval := by
  simp only [restart_repeating h]
  have hone : 1 ≤ t.interval ↔ 1 ≤ ⌊t.interval⌋ := by rw [Int.le_floor]; norm_num
  rw [hone]
  constructor
  · intro hex
    obtain ⟨u, ⟨hin, rfl⟩, hlt⟩ := hex
    simp only at hlt
    exact ⟨by omega, hin⟩
  · intro h
    obtain ⟨hle, hin⟩ := h
    refine ⟨_, ⟨hin, rfl⟩, ?_⟩
    simp only
    omega

end Timer

namespace TimerQueue

/-! ## The loop's functions -/

/-- `addTimer` in the loop thread goes through at once; in another thread its
`addTimerInLoop` is left to the loop. -/
def addTimer (s : State) (inLoopThread : Bool) (p : Addr) (when_ : Int) (interval : ℚ) : Except Fault State :=
  let s := newTimer s p when_ interval
  if inLoopThread then addTimerInLoop (hand s p) p else .ok s

def runAt (s : State) (inLoopThread : Bool) (p : Addr) (time : Int) : Except Fault State :=
  addTimer s inLoopThread p time 0

def runAfter (s : State) (inLoopThread : Bool) (p : Addr) (delay : ℚ) : Except Fault State := do
  let time ← toInt32 delay >>= addTime s.clock
  runAt s inLoopThread p time

def runEvery (s : State) (inLoopThread : Bool) (p : Addr) (interval : ℚ) : Except Fault State := do
  let time ← toInt32 interval >>= addTime s.clock
  addTimer s inLoopThread p time interval

def runRetry (s : State) (p : Addr) (retryDelayMs : Nat) : Except Fault State :=
  runAfter s true p ((retryDelayMs : ℚ) / 1000)

structure CanAdd (s : State) (inLoopThread : Bool) (p : Addr) : Prop where
  free : freeAddr s p = true
  thread : inLoopThread = true → s.pc.inUser = true

def addAct (inLoopThread : Bool) (p : Addr) (when_ : Int) (interval : ℚ) : Act :=
  if inLoopThread then .addTimer p when_ interval else .newTimer p when_ interval

section
variable {s : State} {inLoopThread : Bool} {p : Addr} {w : Int} {i : ℚ}

theorem step_addAct (hc : CanAdd s inLoopThread p) :
    step s (addAct inLoopThread p w i) = some (addTimer s inLoopThread p w i) := by
  cases inLoopThread with
  | true =>
    have hu := hc.thread rfl
    simp [addAct, addTimer, step, hu, hc.free]
  | false => simp [addAct, addTimer, step, hc.free]

theorem addTimerInLoop_ok {m : Slots} (g : Good s m) {t : Timer} (hm : m p = some ⟨.pending, t⟩)
    (hfit : -2 ^ 63 ≤ t.expiration - s.clock ∧ t.expiration - s.clock < 2 ^ 63) :
    ∃ u, addTimerInLoop (hand s p) p = .ok u := by
  have ht : s.heap p = some t := by rw [g.heap, hm]; rfl
  have hins := insert_eq (s := hand s p) (m := m) g.index (p := p) (t := t) ht
    (fun u hu => by rw [hm] at hu; cases hu)
  unfold addTimerInLoop
  rw [hins, ok_bind]
  dsimp only
  split
  · have hd : Heap.deref (hand s p).heap p = .ok t := Heap.deref_some ht
    have h64 : int64 (t.expiration - (hand s p).clock) = .ok (t.expiration - s.clock) := int64_eq_ok.mpr ⟨hfit, rfl⟩
    rw [hd, ok_bind]
    unfold resetTimerfd howMuchTimeFromNow
    rw [h64]
    exact ⟨_, rfl⟩
  · exact ⟨_, rfl⟩

theorem addTimer_ok {m : Slots} (g : Good s m) (hc : CanAdd s inLoopThread p)
    (hfit : -2 ^ 63 ≤ w - s.clock ∧ w - s.clock < 2 ^ 63) : ∃ t, addTimer s inLoopThread p w i = .ok t := by
  obtain ⟨hp, ha⟩ := freeAddr_iff g hc.free
  cases inLoopThread with
  | true =>
    have g' := g.newTimer (w := w) (i := i) hp ha
    exact addTimerInLoop_ok g' (t := Timer.create w i s.numCreate) (by simp) hfit
  | false => exact ⟨_, rfl⟩

theorem registered {m : Slots} (g : Good s m) (hc : CanAdd s inLoopThread p) {t : State}
    (h : addTimer s inLoopThread p w i = .ok t) :
    t.heap p = some (Timer.create w i s.numCreate) ∧ t.clock = s.clock ∧ t.pc = s.pc ∧ s.numCreate < t.numCreate ∧
      (inLoopThread = true → ⟨w, p⟩ ∈ t.timers) := by
  obtain ⟨m', he, g'⟩ := step_ok g ((step_addAct hc).trans (congrArg some h))
  cases inLoopThread with
  | true =>
    cases he with
    | addTimer _ h₁ h₂ =>
      cases h₁ with
      | newTimer _ _ =>
        cases h₂ with
        | addTimerInLoop _ hp =>
          rw [Function.update_self] at hp
          cases hp
          exact ⟨Heap.write_self .., rfl, rfl, Nat.lt_succ_self _, fun _ => OrdSet.mem_insert.mpr (.inl rfl)⟩
  | false =>
    cases h
    exact ⟨Heap.write_self .., rfl, rfl, Nat.lt_succ_self _, fun hf => by cases hf⟩

theorem addAfter_iff {m : Slots} (g : Good s m) (hc : CanAdd s inLoopThread p) {delay : ℚ} (hd : 0 ≤ delay) :
    (∃ t, (toInt32 delay >>= addTime s.clock >>= fun time => addTimer s inLoopThread p time i) = .ok t ∧
      (t.heap p).map Timer.expiration = some (s.clock + ⌊delay * 10 ^ 6⌋)) ↔ WholeSeconds s.clock delay := by
  constructor
  · intro hex
    obtain ⟨t, ht, hexp⟩ := hex
    obtain ⟨u, hu, ht⟩ := bind_eq_ok.mp ht
    obtain ⟨hin, rfl⟩ := (addTime_toInt32 hd).mp hu
    rw [(registered g hc ht).1] at hexp
    have he := Option.some.inj hexp
    simp only [Timer.create] at he
    exact ⟨hin, (floor_micros_eq _).mp (by omega)⟩
  · intro hw
    have hin := hw.range
    have h0 : 0 ≤ ⌊delay⌋ := Int.floor_nonneg.mpr hd
    have hs := hin.seconds
    obtain ⟨t, ht⟩ := addTimer_ok (w := s.clock + ⌊delay⌋ * 10 ^ 6) (i := i) g hc ⟨by omega, by omega⟩
    rw [(addTime_toInt32 hd).mpr ⟨hin, rfl⟩, ok_bind]
    refine ⟨t, ht, ?_⟩
    rw [(registered g hc ht).1, (floor_micros_eq _).mpr hw.fraction]
    rfl

end

theorem runAfter_exact_iff {s : State} (h : anyClock.Reachable s) {inLoopThread : Bool} {p : Addr}
    (hc : CanAdd s inLoopThread p) {delay : ℚ} (hd : 0 ≤ delay) :
    (∃ t, runAfter s inLoopThread p delay = .ok t ∧
      (t.heap p).map Timer.expiration = some (s.clock + ⌊delay * 10 ^ 6⌋)) ↔ WholeSeconds s.clock delay := by
  obtain ⟨m, g⟩ := reachable_good h
  exact addAfter_iff g hc hd

theorem runEvery_exact_iff {s : State} (h : anyClock.Reachable s) {inLoopThread : Bool} {p : Addr}
    (hc : CanAdd s inLoopThread p) {interval : ℚ} (hi : 0 < interval) :
    (∃ t, runEvery s inLoopThread p interval = .ok t ∧
      (t.heap p).map Timer.expiration = some (s.clock + ⌊interval * 10 ^ 6⌋)) ↔ WholeSeconds s.clock interval := by
  obtain ⟨m, g⟩ := reachable_good h
  exact addAfter_iff g hc (le_of_lt hi)

end TimerQueue

end MyLearning
