import MyLearning.MyMuduo.ConnectorEffect
import MyLearning.MyMuduo.TimerDelays

/-!
# How long a retry waits

A timer in the expired batch was due when the clock was read, and a timer that does not repeat
keeps its expiration, so its callback never starts early. A retry of `m` milliseconds
is registered for the whole seconds in them: it is never early if those are all of
them, and otherwise a run in which the clock stops at its expiration starts it early.
-/

namespace MyLearning

namespace TimerQueue

/-! ## Callbacks start on time -/

structure OnTime (s : State) (m : Slots) : Prop where
  entered : ∀ now, s.pc = .entered now → now ≤ s.clock
  batch : ∀ p t, m p = some ⟨.batch, t⟩ → t.expiration ≤ s.clock

section
variable {s t : State} {m m' : Slots} {a : Act}

theorem initial_onTime (clock : Int) : OnTime (initial clock) fun _ => none :=
  ⟨fun now h => by simp [initial] at h, fun p t h => by cases h⟩

theorem OnTime.update (v : OnTime s m) {p : Addr} {x : Option Slot} (hx : ∀ t, x ≠ some ⟨.batch, t⟩)
    (hpc : ∀ now, t.pc = .entered now → s.pc = .entered now) (hclock : t.clock = s.clock) :
    OnTime t (Function.update m p x) where
  entered now h := by rw [hclock]; exact v.entered now (hpc now h)
  batch q u h := by
    rw [hclock]
    rcases update_some h with ⟨-, he⟩ | ⟨-, h⟩
    · exact absurd he (hx u)
    · exact v.batch q u h

theorem OnTime.frame (v : OnTime s m) (hpc : ∀ now, t.pc = .entered now → now ≤ t.clock) (hclock : s.clock ≤ t.clock) :
    OnTime t m :=
  ⟨hpc, fun p u h => le_trans (v.batch p u h) hclock⟩

theorem Effect.onTime (h : Effect s m a t m') (g : Good s m) (v : OnTime s m) : OnTime t m' := by
  induction h with
  | newTimer _ _ => exact v.update (fun t h => by cases h) (fun _ h => h) rfl
  | addTimerInLoop _ _ => exact v.update (fun t h => by cases h) (fun _ h => h) rfl
  | addTimer _ h₁ _ ih₁ ih₂ => exact ih₂ (h₁.good g) (ih₁ g v)
  | cancelQueued _ _ _ => exact v.update (fun t h => by cases h) (fun _ h => h) rfl
  | cancelOther _ _ =>
    split
    · exact v.frame v.entered (le_refl _)
    · exact v
  | handleRead _ =>
    refine v.frame ?_ (le_refl _)
    intro now h
    cases h
    exact le_refl _
  | @collect s m now A l hpc _ hmem _ _ _ =>
    refine ⟨fun now h => by simp at h, ?_⟩
    intro p u h
    unfold collectSlots at h
    split at h
    · rename_i hp
      obtain ⟨e, he, rfl⟩ := List.mem_map.mp hp
      obtain ⟨hT, hle⟩ := (hmem e).mp he
      obtain ⟨t, ht, hw⟩ := (g.index.timers e.when_ e.timer).mp hT
      rw [ht] at h
      cases h
      have hnow := v.entered now hpc
      show t.expiration ≤ s.clock
      omega
    · exact v.batch p u h
  | runTimer _ => exact v.frame (fun now h => by simp at h) (le_refl _)
  | endCalls _ => exact v.frame (fun now h => by simp at h) (le_refl _)
  | resetDelete _ _ _ => exact v.update (fun t h => by cases h) (fun _ h => by simp at h) rfl
  | resetInsert _ _ _ _ _ => exact v.update (fun t h => by cases h) (fun _ h => by simp [queued] at h) rfl
  | rearmValid _ _ _ => exact v.frame (fun now h => by simp at h) (le_refl _)
  | rearmInvalid _ _ => exact v.frame (fun now h => by simp at h) (le_refl _)
  | tick hle => exact v.frame (fun now h => le_trans (v.entered now h) hle) hle

theorem reachable_onTime (h : anyClock.Reachable s) : ∃ m, Good s m ∧ OnTime s m := by
  refine Lts.Reachable.invariant (I := fun s => ∃ m, Good s m ∧ OnTime s m) ?_ ?_ h
  · intro s h
    obtain ⟨c, -, rfl⟩ := h
    exact ⟨_, initial_good c, initial_onTime c⟩
  · intro s a t h hs
    obtain ⟨m, g, v⟩ := h
    obtain ⟨m', he, g'⟩ := step_ok g hs
    exact ⟨m', g', he.onTime g v⟩

/-! ## A timer that does not repeat -/

/-- The timer `k`, where it still lives, expires at `w` and does not repeat. -/
structure OneShot (s : State) (m : Slots) (k : Nat) (w : Int) : Prop where
  old : k < s.numCreate
  shot : ∀ p c, m p = some c → c.timer.sequence = k → c.timer.expiration = w ∧ c.timer.repeat_ = false

theorem OneShot.update {k : Nat} {w : Int} (o : OneShot s m k w) {p : Addr} {x : Option Slot}
    (hx : ∀ c, x = some c → c.timer.sequence = k → c.timer.expiration = w ∧ c.timer.repeat_ = false)
    (hnum : s.numCreate ≤ t.numCreate) : OneShot t (Function.update m p x) k w where
  old := lt_of_lt_of_le o.old hnum
  shot q c h hk := by
    rcases update_some h with ⟨-, he⟩ | ⟨-, h⟩
    · exact hx c he hk
    · exact o.shot q c h hk

theorem Effect.oneShot {k : Nat} {w : Int} (h : Effect s m a t m') (o : OneShot s m k w) : OneShot t m' k w := by
  induction h with
  | newTimer _ _ =>
    refine o.update ?_ (Nat.le_succ _)
    intro c hc hk
    cases hc
    exact absurd hk.symm (Nat.ne_of_lt o.old)
  | addTimerInLoop _ hm =>
    refine o.update ?_ (le_refl _)
    intro c hc hk
    cases hc
    exact o.shot _ ⟨.pending, _⟩ hm hk
  | addTimer _ _ _ ih₁ ih₂ => exact ih₂ (ih₁ o)
  | cancelQueued _ _ _ => exact o.update (fun c hc => by cases hc) (le_refl _)
  | cancelOther _ _ =>
    split
    · exact ⟨o.old, o.shot⟩
    · exact o
  | collect _ _ _ _ _ _ =>
    refine ⟨o.old, ?_⟩
    intro p c h hk
    unfold collectSlots at h
    split at h
    · obtain ⟨c', hc', rfl⟩ := Option.map_eq_some_iff.mp h
      exact o.shot p c' hc' hk
    · exact o.shot p c h hk
  | resetDelete _ _ _ => exact o.update (fun c hc => by cases hc) (le_refl _)
  | resetInsert _ hm hr _ hu =>
    refine o.update ?_ (le_refl _)
    intro c hc hk
    cases hc
    have hseq := (Timer.restart_ok hu).1
    have := (o.shot _ _ hm (hseq.symm.trans hk)).2
    rw [this] at hr
    cases hr
  | handleRead _ => exact ⟨o.old, o.shot⟩
  | runTimer _ => exact ⟨o.old, o.shot⟩
  | endCalls _ => exact ⟨o.old, o.shot⟩
  | rearmValid _ _ _ => exact ⟨o.old, o.shot⟩
  | rearmInvalid _ _ => exact ⟨o.old, o.shot⟩
  | tick _ => exact ⟨o.old, o.shot⟩

theorem run_oneShot {k : Nat} {w : Int} {u : State} {tr : List Act} (hr : anyClock.Run s tr u)
    (h : ∃ m, Good s m ∧ OnTime s m ∧ OneShot s m k w) : ∃ m, Good u m ∧ OnTime u m ∧ OneShot u m k w := by
  refine hr.invariant (I := fun s => ∃ m, Good s m ∧ OnTime s m ∧ OneShot s m k w) ?_ h
  intro s a t h hs
  obtain ⟨m, g, v, o⟩ := h
  obtain ⟨m', he, g'⟩ := step_ok g hs
  exact ⟨m', g', he.onTime g v, he.oneShot o⟩

theorem OneShot.starts_late {k : Nat} {w : Int} (o : OneShot s m k w) (g : Good s m) (v : OnTime s m)
    (hs : Starts s k) : w ≤ s.clock := by
  obtain ⟨now, ran, it, todo, t, hpc, ht, hk⟩ := hs
  obtain ⟨u, hu⟩ := (g.batch it.timer).mp (by rw [hpc]; simp [Pc.batch])
  rw [g.heap, hu] at ht
  cases ht
  rw [← (o.shot _ _ hu hk).1]
  exact v.batch _ _ hu

theorem starts_when_due (g : Good s m) (hpc : s.pc = .idle) {e : Entry} (he : e ∈ s.timers) (hle : e.when_ ≤ s.clock)
    {x : Timer} (hx : s.heap e.timer = some x) :
    ∃ tr u, anyClock.Run s tr u ∧ Starts u x.sequence ∧ u.clock = s.clock := by
  have h₁ : step s .handleRead = some (.ok { s with pc := .entered s.clock }) := by simp only [step, hpc]
  obtain ⟨m₁, e₁, g₁⟩ := step_ok g h₁
  obtain ⟨A, l, hget, -, hmem, -⟩ :=
    getExpired_eq (s := { s with timerfd := s.timerfd.read.1, pc := .entered s.clock }) g.index g.heap s.clock
      g.ledger.addr
  have h₂ : step { s with pc := .entered s.clock } .collect = some (.ok
      { s with timerfd := s.timerfd.read.1, timers := s.timers.eraseBelow ⟨s.clock, uintptrMax⟩, activeTimers := A
               callingExpiredTimer := true, cancelingTimers := .empty, pc := .calling s.clock [] l }) := by
    simp only [step, collect]
    rw [hget]
    rfl
  obtain ⟨m₂, e₂, g₂⟩ := step_ok g₁ h₂
  obtain ⟨before, after, rfl⟩ := List.append_of_mem ((hmem e).mpr ⟨he, hle⟩)
  obtain ⟨tr, hr⟩ := run_to_waiting before g₂ rfl
  refine ⟨.handleRead :: .collect :: tr, _, .cons h₁ (.cons h₂ hr.of_restrict), ?_, rfl⟩
  exact ⟨s.clock, _, e, after, x, rfl, hx, rfl⟩

end

/-! ## Retries -/

/-- A retry with the delay `m`, scheduled anywhere, is never run before its `m` milliseconds are over. -/
def RetryNotEarly (m : ℕ) : Prop :=
  ∀ s p t, anyClock.Reachable s → CanAdd s true p → runRetry s p m = .ok t →
    ∀ tr u, anyClock.Run t tr u → Starts u s.numCreate → s.clock + m * 1000 ≤ u.clock

theorem floor_retry (m : ℕ) : ⌊(m : ℚ) / 1000⌋ = ((m / 1000 : ℕ) : ℤ) := by
  have h := Rat.floor_natCast_div_natCast m 1000
  push_cast at h ⊢
  exact h

theorem retryNotEarly_of_dvd {m : ℕ} (hm : 1000 ∣ m) : RetryNotEarly m := by
  intro s p t h hc ht tr u hr hs
  obtain ⟨ms, g, v⟩ := reachable_onTime h
  obtain ⟨w, hw, ht⟩ := bind_eq_ok.mp ht
  obtain ⟨-, rfl⟩ := (addTime_toInt32 (by positivity)).mp hw
  obtain ⟨mt, he, gt⟩ := step_ok g ((step_addAct hc).trans (congrArg some ht))
  obtain ⟨hheap, hclock, -, hnum, -⟩ := registered g hc ht
  have o : OneShot t mt s.numCreate (s.clock + ⌊(m : ℚ) / 1000⌋ * 10 ^ 6) := by
    refine ⟨hnum, ?_⟩
    intro q c hq hk
    obtain ⟨d, hd, hdt⟩ := gt.live.mp hheap
    have hsame : d.timer.sequence = c.timer.sequence := by rw [hdt, hk]; rfl
    have hqp := gt.place_unique hq hd hsame.symm
    rw [hqp, hdt]
    exact ⟨rfl, rfl⟩
  obtain ⟨mu, gu, vu, ou⟩ := run_oneShot hr ⟨mt, gt, he.onTime g v, o⟩
  have hlate := ou.starts_late gu vu hs
  rw [floor_retry] at hlate
  omega

theorem not_retryNotEarly {m : ℕ} (hlt : m < 2 ^ 31) (hm : ¬ 1000 ∣ m) : ¬ RetryNotEarly m := by
  intro hall
  have h₀ : anyClock.Reachable (initial 0) := .init ⟨0, trivial, rfl⟩
  have hc : CanAdd (initial 0) true 1 := ⟨by decide, fun _ => rfl⟩
  have hrange : InRange (initial 0).clock ((m : ℚ) / 1000) := by
    have hclock : (initial 0).clock = 0 := rfl
    constructor <;> rw [floor_retry] <;> omega
  obtain ⟨t, ht⟩ := addTimer_ok (w := (initial 0).clock + ⌊(m : ℚ) / 1000⌋ * 10 ^ 6) (i := 0) (initial_good 0) hc
    ⟨by have := hrange.low; simpa [initial] using this, by have := hrange.high; simpa [initial] using this⟩
  have hrun : runRetry (initial 0) 1 m = .ok t := by
    unfold runRetry runAfter
    rw [(addTime_toInt32 (by positivity)).mpr ⟨hrange, rfl⟩, ok_bind]
    exact ht
  obtain ⟨mt, he, gt⟩ := step_ok (initial_good 0) ((step_addAct hc).trans (congrArg some ht))
  obtain ⟨hheap, hclock, hpc, -, htimers⟩ := registered (initial_good 0) hc ht
  -- the clock stops where the timer expires
  have htick : step t (.tick (⌊(m : ℚ) / 1000⌋ * 10 ^ 6)) =
      some (.ok { t with clock := ⌊(m : ℚ) / 1000⌋ * 10 ^ 6, timerfd := t.timerfd.elapse (⌊(m : ℚ) / 1000⌋ * 10 ^ 6) }) := by
    simp only [step]
    rw [if_pos]
    rw [hclock, floor_retry]
    show (0 : Int) ≤ _
    omega
  obtain ⟨mk, ek, gk⟩ := step_ok gt htick
  have hdue : (⟨(initial 0).clock + ⌊(m : ℚ) / 1000⌋ * 10 ^ 6, 1⟩ : Entry).when_ ≤ ⌊(m : ℚ) / 1000⌋ * 10 ^ 6 := by
    simp [initial]
  obtain ⟨tr, u, hr, hs, hu⟩ := starts_when_due gk hpc (htimers rfl) hdue hheap
  have hearly := hall _ 1 t h₀ hc hrun _ u (.cons htick hr) hs
  rw [hu, floor_retry] at hearly
  have hclock₀ : (initial 0).clock = 0 := rfl
  simp only [hclock₀] at hearly
  omega

theorem retryNotEarly_iff {m : ℕ} (hlt : m < 2 ^ 31) : RetryNotEarly m ↔ 1000 ∣ m := by
  constructor
  · intro h
    by_contra hm
    exact not_retryNotEarly hlt hm h
  · exact retryNotEarly_of_dvd

/-! ## All delays -/

/-- **Delays.** `runAfter` registers its timer to the microsecond exactly for whole seconds, so does
`restart`; a re-armed timer of a microsecond or more expires later than now exactly
where its interval has a second; and a retry is never early exactly where its
milliseconds make whole seconds. All of this within the range of the code's types. -/
theorem delays_honoured_iff {s : State} (h : anyClock.Reachable s) {inLoopThread : Bool} {p : Addr}
    (hc : CanAdd s inLoopThread p) {delay : ℚ} (hd : 0 ≤ delay) {x : Timer} (hi : 0 < x.interval) (now : Int) {m : ℕ}
    (hm : m < 2 ^ 31) :
    ((∃ t, runAfter s inLoopThread p delay = .ok t ∧
      (t.heap p).map Timer.expiration = some (s.clock + ⌊delay * 10 ^ 6⌋)) ↔ WholeSeconds s.clock delay) ∧
    (x.restart now = .ok { x with expiration := now + ⌊x.interval * 10 ^ 6⌋ } ↔ WholeSeconds now x.interval) ∧
    ((1 / 10 ^ 6 ≤ x.interval → ∃ y, x.restart now = .ok y ∧ now < y.expiration) ↔
      (1 / 10 ^ 6 ≤ x.interval → 1 ≤ x.interval ∧ InRange now x.interval)) ∧
    (RetryNotEarly m ↔ 1000 ∣ m) :=
  ⟨runAfter_exact_iff h hc hd, Timer.restart_exact_iff hi now,
    imp_congr_right fun _ => Timer.restart_later_iff hi now, retryNotEarly_iff hm⟩

theorem delays_honoured_two_seconds :
    (∃ t, runAfter (initial 1) true 1 2 = .ok t ∧ (t.heap 1).map Timer.expiration = some 2000001) ∧
      (Timer.create 0 2 0).restart 5 = .ok { Timer.create 0 2 0 with expiration := 2000005 } ∧ ¬ RetryNotEarly 500 := by
  obtain ⟨hafter, hrestart, -, hretry⟩ := delays_honoured_iff (s := initial 1) (.init ⟨1, trivial, rfl⟩) (p := 1)
    (⟨by decide, fun _ => rfl⟩ : CanAdd (initial 1) true 1) (show (0 : ℚ) ≤ 2 by norm_num)
    (x := Timer.create 0 2 0) (by show (0 : ℚ) < 2; norm_num) 5 (m := 500) (by norm_num)
  have hwhole : ∀ now : Int, 0 ≤ now → now ≤ 5 → WholeSeconds now 2 := by
    intro now hlow hhigh
    have hfloor : ⌊(2 : ℚ)⌋ = 2 := by norm_num
    refine ⟨⟨?_, ?_, ?_⟩, ?_⟩
    all_goals simp only [hfloor, Int.fract]
    all_goals first | omega | norm_num
  have hmicros : ⌊(2 : ℚ) * 10 ^ 6⌋ = 2000000 := by norm_num
  rw [hmicros] at hafter
  have hagain := hrestart.mpr (hwhole 5 (by decide) (by decide))
  have hfive : 5 + ⌊(Timer.create 0 2 0).interval * 10 ^ 6⌋ = 2000005 := congrArg (5 + ·) hmicros
  rw [hfive] at hagain
  refine ⟨hafter.mpr (hwhole 1 (by decide) (by decide)), hagain, ?_⟩
  intro h
  exact absurd (hretry.mp h) (by decide)

/-- Half a second is not waited for. -/
theorem half_second_lost : ¬ ∀ delay : ℚ, 0 ≤ delay → ∃ t, runAfter (initial 1) true 1 delay = .ok t ∧
    (t.heap 1).map Timer.expiration = some ((initial 1).clock + ⌊delay * 10 ^ 6⌋) := by
  intro hall
  have hreach : anyClock.Reachable (initial 1) := .init ⟨1, trivial, rfl⟩
  have hc : CanAdd (initial 1) true 1 := ⟨by decide, fun _ => rfl⟩
  have hhalf : (0 : ℚ) ≤ 1 / 2 := by norm_num
  have hw := (runAfter_exact_iff hreach hc hhalf).mp (hall (1 / 2) hhalf)
  have hfract : Int.fract (1 / 2 : ℚ) = 1 / 2 := by
    rw [Int.fract_eq_self]
    norm_num
  have hlt := hw.fraction
  rw [hfract] at hlt
  norm_num at hlt

end TimerQueue

/-! ## The retries of a connector -/

namespace Connector

def delays : List Nat := [kInitRetryDelayMs, 1000, 2000, 4000, 8000, 16000, kMaxRetryDelayMs]

structure Backoff (s : State) : Prop where
  next : s.retryDelayMs ∈ delays
  waiting : ∀ m ∈ s.timers, m ∈ delays

section
variable {s t : State}

theorem Backoff.of_eq (b : Backoff s) (hd : t.retryDelayMs = s.retryDelayMs) (ht : t.timers ⊆ s.timers) : Backoff t :=
  ⟨hd ▸ b.next, fun m hm => b.waiting m (ht hm)⟩

theorem doubled_mem : ∀ m ∈ delays, min (m * 2) kMaxRetryDelayMs ∈ delays := by decide

theorem Backoff.retry (b : Backoff s) (sockfd : Nat) : Backoff (retry s sockfd) := by
  rw [retry_eq]
  cases s.connect with
  | false => exact ⟨b.next, b.waiting⟩
  | true =>
    refine ⟨doubled_mem _ b.next, ?_⟩
    intro m hm
    rcases List.mem_append.mp hm with hm | hm
    · exact b.waiting m hm
    · rw [List.mem_singleton.mp hm]; exact b.next

theorem Attempt.backoff (h : Attempt s t) (b : Backoff s) : Backoff t := by
  cases h with
  | connecting _ => exact b.of_eq rfl (List.Subset.refl _)
  | retry =>
    apply Backoff.retry
    exact b.of_eq rfl (List.Subset.refl _)
  | refused => exact b.of_eq rfl (List.Subset.refl _)

theorem Due.backoff {a : Act} {s₀ : State} (h : Due s a s₀) (b : Backoff s) : Backoff s₀ := by
  cases h with
  | functor _ _ => exact b.of_eq rfl (List.Subset.refl _)
  | timer _ _ => exact b.of_eq rfl (List.eraseIdx_subset)

theorem Effect.backoff {a : Act} (h : Effect s a t) (b : Backoff s) : Backoff t := by
  have same : ∀ {u : State}, u.retryDelayMs = s.retryDelayMs → u.timers = s.timers → Backoff u :=
    fun hd ht => b.of_eq hd (ht ▸ List.Subset.refl _)
  cases h with
  | restart _ ha => exact ha.backoff ⟨by show kInitRetryDelayMs ∈ delays; decide, b.waiting⟩
  | attempt hd _ _ ha => exact ha.backoff (hd.backoff b)
  | doNotConnect hd _ _ => exact hd.backoff b
  | stopInLoop _ _ _ _ =>
    apply Backoff.retry
    exact same rfl rfl
  | failed _ _ _ _ =>
    apply Backoff.retry
    exact same rfl rfl
  | _ => exact same rfl rfl

theorem reachable_backoff (h : lts.Reachable s) : Backoff s := by
  refine h.invariant_from ?_ (fun _ _ _ b hs => (step_effect hs).backoff b) fun _ h => h
  exact ⟨by show kInitRetryDelayMs ∈ delays; decide, fun m hm => by cases hm⟩

end

/-- Of the retries a connector has waiting, the ones with the initial delay can be run early,
and no others. -/
theorem retries_early_iff {s : State} (h : lts.Reachable s) {m : Nat} (hm : m ∈ s.timers) :
    TimerQueue.RetryNotEarly m ↔ m ≠ kInitRetryDelayMs := by
  have hd := (reachable_backoff h).waiting m hm
  have hall : ∀ m ∈ delays, m < 2 ^ 31 ∧ (1000 ∣ m ↔ m ≠ kInitRetryDelayMs) := by decide
  rw [TimerQueue.retryNotEarly_iff (hall m hd).1]
  exact (hall m hd).2

end Connector

end MyLearning
