import MyLearning.MyMuduo.TimerRetries

/-!
# How a connector backs off

The delay of a retry is that of the one before, doubled up to a bound, and `restart()` goes back to the first. Here the
retries since the last `restart()` are counted along every run, whatever the user calls in between and in
whatever order the timers run. The delays then meet the timer queue, which keeps whole seconds only.
-/

namespace MyLearning.Connector

def delay (k : Nat) : Nat := min (kInitRetryDelayMs * 2 ^ k) kMaxRetryDelayMs

/-- What an action has done to the timers and the delay before it can retry. -/
def base (s : State) : Act → State
  | .runTimer i _ => { s with timers := s.timers.eraseIdx i }
  | .restart _ => { s with retryDelayMs := kInitRetryDelayMs }
  | _ => s

def isRestart : Act → Bool
  | .restart _ => true
  | _ => false

def counted : Lts (State × Nat) Act where
  init x := lts.init x.1 ∧ x.2 = 0
  step x a y := lts.step x.1 a y.1 ∧
    y.2 = (if isRestart a then 0 else x.2) + (y.1.timers.length - (base x.1 a).timers.length)

/-! ## One retry at most -/

inductive Scheduled (s t : State) : Prop
  | no (htimers : t.timers = s.timers) (hdelay : t.retryDelayMs = s.retryDelayMs)
  | one (htimers : t.timers = s.timers ++ [s.retryDelayMs])
      (hdelay : t.retryDelayMs = min (s.retryDelayMs * 2) kMaxRetryDelayMs)

section
variable {s t : State} {k : Nat}

theorem Scheduled.of_eq {u : State} (h : Scheduled u t) (htimers : u.timers = s.timers)
    (hdelay : u.retryDelayMs = s.retryDelayMs) : Scheduled s t := by
  cases h with
  | no ht hd => exact .no (ht.trans htimers) (hd.trans hdelay)
  | one ht hd => exact .one (by rw [ht, htimers, hdelay]) (by rw [hd, hdelay])

theorem scheduled_retry (s : State) (sockfd : Nat) : Scheduled s (retry s sockfd) := by
  rw [retry_eq]
  cases s.connect with
  | false => exact .no rfl rfl
  | true => exact .one rfl rfl

theorem Attempt.scheduled (h : Attempt s t) : Scheduled s t := by
  cases h with
  | connecting _ => exact .no rfl rfl
  | retry => exact (scheduled_retry _ _).of_eq rfl rfl
  | refused => exact .no rfl rfl

theorem Due.base_eq {a : Act} {s₀ : State} (h : Due s a s₀) :
    s₀.timers = (base s a).timers ∧ s₀.retryDelayMs = (base s a).retryDelayMs := by
  cases h with
  | functor _ _ => exact ⟨rfl, rfl⟩
  | timer _ _ => exact ⟨rfl, rfl⟩

theorem Effect.scheduled {a : Act} (h : Effect s a t) : Scheduled (base s a) t := by
  cases h with
  | restart _ ha => exact ha.scheduled.of_eq rfl rfl
  | attempt hd _ _ ha => exact ha.scheduled.of_eq hd.base_eq.1 hd.base_eq.2
  | doNotConnect hd _ _ => exact .no hd.base_eq.1 hd.base_eq.2
  | stopInLoop _ _ _ _ => exact (scheduled_retry _ _).of_eq rfl rfl
  | failed _ _ _ _ => exact (scheduled_retry _ _).of_eq rfl rfl
  | _ => exact .no rfl rfl

/-! ## The delays of a run -/

structure BacksOff (s : State) (k : Nat) : Prop where
  next : s.retryDelayMs = delay k
  waiting : ∀ m ∈ s.timers, ∃ j, m = delay j

theorem delay_succ (k : Nat) : min (delay k * 2) kMaxRetryDelayMs = delay (k + 1) := by
  unfold delay
  rw [pow_succ, ← Nat.mul_assoc]
  omega

theorem BacksOff.scheduled (b : BacksOff s k) (h : Scheduled s t) : BacksOff t (k + (t.timers.length - s.timers.length)) := by
  cases h with
  | no htimers hdelay =>
    rw [htimers, Nat.sub_self, Nat.add_zero]
    exact ⟨hdelay.trans b.next, htimers ▸ b.waiting⟩
  | one htimers hdelay =>
    have hlen : t.timers.length - s.timers.length = 1 := by
      rw [htimers, List.length_append, List.length_singleton]
      omega
    rw [hlen]
    refine ⟨by rw [hdelay, b.next, delay_succ], ?_⟩
    intro m hm
    rw [htimers, List.mem_append, List.mem_singleton] at hm
    rcases hm with hm | rfl
    · exact b.waiting m hm
    · exact ⟨k, b.next⟩

theorem BacksOff.base (b : BacksOff s k) (a : Act) : BacksOff (base s a) (if isRestart a then 0 else k) := by
  cases a with
  | restart _ => exact ⟨rfl, b.waiting⟩
  | runTimer i _ => exact ⟨b.next, fun m hm => b.waiting m (List.eraseIdx_subset hm)⟩
  | _ => exact b

theorem reachable_backsOff {x : State × Nat} (h : counted.Reachable x) : BacksOff x.1 x.2 := by
  refine h.invariant (I := fun x => BacksOff x.1 x.2) ?_ ?_
  · rintro ⟨s, k⟩ ⟨hs, rfl⟩
    cases hs
    exact ⟨rfl, fun m hm => by cases hm⟩
  · intro x a y b hs
    rw [hs.2]
    exact (b.base a).scheduled (step_effect hs.1).scheduled

theorem counted_reachable {x : State × Nat} (h : counted.Reachable x) : lts.Reachable x.1 := by
  refine h.invariant (I := fun x => lts.Reachable x.1) ?_ ?_
  · intro x hx
    exact .init hx.1
  · intro x a y hr hs
    exact hr.step hs.1

end

/-- **The delays of the retries.** In every run, behind `k` retries since the last `restart()` the next delay is
`500 * 2 ^ k` milliseconds, and 30 seconds from then on. Of the retries that wait, the timer queue can run those with the
first delay before it is over, and no others. -/
theorem backs_off {s : State} {k : Nat} (h : counted.Reachable (s, k)) :
    s.retryDelayMs = min (500 * 2 ^ k) 30000 ∧
      ∀ m ∈ s.timers, (∃ j, m = min (500 * 2 ^ j) 30000) ∧ (TimerQueue.RetryNotEarly m ↔ m ≠ 500) := by
  have b := reachable_backsOff h
  refine ⟨b.next, ?_⟩
  intro m hm
  exact ⟨b.waiting m hm, retries_early_iff (counted_reachable h) hm⟩

theorem backs_off_twice : ∃ s, counted.Reachable (s, 2) ∧ s.retryDelayMs = 2000 ∧ s.timers = [1000] ∧
    TimerQueue.RetryNotEarly 1000 := by
  have h₀ : counted.Reachable (initial, 0) := .init ⟨rfl, rfl⟩
  have hfirst : counted.Reachable (_, 1) := h₀.step (a := .restart .ECONNREFUSED) (by exact ⟨rfl, rfl⟩)
  have hsecond : counted.Reachable (_, 2) := hfirst.step (a := .runTimer 0 .ECONNREFUSED) (by exact ⟨rfl, rfl⟩)
  obtain ⟨hdelay, hwaiting⟩ := backs_off hsecond
  exact ⟨_, hsecond, hdelay, rfl, (hwaiting 1000 (.head _)).2.mpr (by decide)⟩

end MyLearning.Connector
