import MyLearning.MyMuduo.TimerOwnership

/-!
# No timer is forgotten

The descriptor is armed only when an insertion reports a new earliest timer and
at the end of `reset`, where an expiration that is not valid (zero or negative)
is skipped. Between the two the descriptor may be idle while timers wait, so the
invariant `Watched` asks less inside a batch: only the timers with a
non-positive expiration, the ones `reset` will skip, must already be covered.
A positive clock keeps restarted timers out of that class.
-/

namespace MyLearning.TimerQueue

/-- The descriptor wakes the loop in time for an expiration: it is readable, or
armed no later than the expiration or 100 microseconds after the arming. -/
def Covered (fd : TimerFd) (when_ : Int) : Prop :=
  fd.readable = true ∨ ∃ a, fd.arm = some a ∧ a.deadline ≤ max when_ (a.armedAt + 100)

theorem Covered.mono {fd : TimerFd} {w w' : Int} (h : Covered fd w) (hw : w ≤ w') : Covered fd w' := by
  rcases h with h | ⟨a, ha, hd⟩
  · exact .inl h
  · exact .inr ⟨a, ha, le_trans hd (max_le_max_right _ hw)⟩

theorem covered_armed (w clock : Int) : Covered (armed w clock) w := .inr ⟨_, rfl, le_refl _⟩

theorem Covered.elapse {fd : TimerFd} {w : Int} (h : Covered fd w) (now : Int) : Covered (fd.elapse now) w := by
  unfold TimerFd.elapse
  rcases h with h | ⟨a, ha, hd⟩
  · left
    simp only [TimerFd.readable, decide_eq_true_eq] at h ⊢
    split
    · split
      · exact Nat.succ_pos _
      · exact h
    · exact h
  · rw [ha]
    dsimp only
    split
    · exact .inl (by simp [TimerFd.readable])
    · exact .inr ⟨a, ha, hd⟩

def Pc.inBatch : Pc → Bool
  | .calling .. | .resetting .. => true
  | _ => false

def Pc.nowPos : Pc → Prop
  | .idle => True
  | .entered now | .calling now _ _ | .resetting now _ => 0 < now

structure Watched (s : State) : Prop where
  clock : 0 < s.clock
  now : s.pc.nowPos
  covered : ∀ e ∈ s.timers, (s.pc.inBatch = true → e.when_ ≤ 0) → Covered s.timerfd e.when_

theorem initial_watched {clock : Int} (h : 0 < clock) : Watched (initial clock) :=
  ⟨h, trivial, fun e he => absurd he (OrdSet.not_mem_empty e)⟩

theorem exists_le_of_not_earliest {T : OrdSet Entry} {t : Timer} (h : isEarliest T t = false) :
    ∃ e ∈ T, e.when_ ≤ t.expiration := by
  have hn : ¬ ∀ e ∈ T, t.expiration < e.when_ := fun hall => by
    rw [isEarliest_iff.mpr hall] at h; cases h
  simp only [not_forall, not_lt] at hn
  obtain ⟨e, he, hle⟩ := hn
  exact ⟨e, he, hle⟩

theorem Watched.addTimerInLoop {s : State} (v : Watched s) {p : Addr} {t : Timer} :
    Watched { queued (hand s p) p t with
      timerfd := if isEarliest s.timers t then armed t.expiration s.clock else s.timerfd } where
  clock := v.clock
  now := v.now
  covered e he hb := by
    have he' : e = ⟨t.expiration, p⟩ ∨ e ∈ s.timers := OrdSet.mem_insert.mp he
    dsimp only
    split
    · rename_i hearly
      rcases he' with rfl | he'
      · exact covered_armed _ _
      · exact (covered_armed _ _).mono (le_of_lt (isEarliest_iff.mp hearly e he'))
    · rename_i hearly
      rcases he' with rfl | he'
      · -- an entry before it is covered, and covers it
        obtain ⟨e', he', hle⟩ := exists_le_of_not_earliest (by simpa using hearly)
        exact (v.covered e' he' fun h => le_trans hle (hb h)).mono hle
      · exact v.covered e he' hb

theorem Watched.rearmInvalid {s : State} (v : Watched s) (hinv : ∀ e, s.timers.begin? = some e → e.when_ ≤ 0) :
    Watched { s with pc := .idle } := by
  refine ⟨v.clock, trivial, ?_⟩
  intro e he _
  cases hb : s.timers.begin? with
  | none => exact absurd he (OrdSet.begin?_eq_none.mp hb e)
  | some b =>
    have hle := Entry.when_le (OrdSet.begin?_le hb he)
    exact (v.covered b (OrdSet.begin?_mem hb) fun _ => hinv b hb).mono hle

theorem Effect.watched {s t : State} {m m' : Slots} {a : Act} (h : Effect s m a t m') (v : Watched s) :
    Watched t := by
  induction h with
  | newTimer _ _ => exact ⟨v.clock, v.now, v.covered⟩
  | addTimerInLoop _ _ => exact v.addTimerInLoop
  | addTimer _ _ _ ih₁ ih₂ => exact ih₂ (ih₁ v)
  | cancelQueued _ _ _ => exact ⟨v.clock, v.now, fun e he => v.covered e (OrdSet.mem_erase.mp he).2⟩
  | cancelOther _ _ =>
    split
    · exact ⟨v.clock, v.now, v.covered⟩
    · exact v
  | handleRead hpc => exact ⟨v.clock, v.clock, fun e he _ => v.covered e he (by simp [hpc, Pc.inBatch])⟩
  | collect hpc _ _ _ hrest _ =>
    have hnow := v.now
    rw [hpc] at hnow
    exact ⟨v.clock, hnow, fun e he hb => absurd (lt_trans hnow (hrest e he)) (not_lt.mpr (hb rfl))⟩
  | runTimer hpc | endCalls hpc | resetDelete hpc _ _ =>
    have hnow := v.now
    rw [hpc] at hnow
    exact ⟨v.clock, hnow, fun e he hb => v.covered e he fun _ => hb rfl⟩
  | resetInsert hpc _ hr _ hu =>
    have hnow := v.now
    rw [hpc] at hnow
    refine ⟨v.clock, hnow, ?_⟩
    intro e he hb
    rcases OrdSet.mem_insert.mp he with rfl | he
    · -- a restarted timer expires after the clock reading, so it is valid
      exact absurd (lt_of_lt_of_le hnow ((Timer.restart_ok hu).2.2 hr)) (not_lt.mpr (hb rfl))
    · exact v.covered e he fun _ => hb rfl
  | rearmValid _ hbegin _ =>
    exact ⟨v.clock, trivial, fun e he _ =>
      (covered_armed _ _).mono (Entry.when_le (OrdSet.begin?_le hbegin he))⟩
  | rearmInvalid _ hinv => exact v.rearmInvalid hinv
  | tick hle => exact ⟨lt_of_lt_of_le v.clock hle, v.now, fun e he hb => (v.covered e he hb).elapse _⟩

abbrev positiveClock : Lts State Act := lts fun clock => 0 < clock

theorem reachable_watched {s : State} (h : positiveClock.Reachable s) : Watched s := by
  refine Lts.Reachable.invariant_of (fun s hs => reachable_good hs) ?_ ?_ h
  · intro s h
    obtain ⟨c, hc, rfl⟩ := h
    exact initial_watched hc
  · intro s a t h v hs
    obtain ⟨m, g⟩ := h
    obtain ⟨m', he, -⟩ := step_ok g hs
    exact he.watched v

/-- **No timer is forgotten.** With a clock after the epoch, whenever control is
back in the loop and timers wait, the descriptor is readable or armed in time for
the earliest of them, as long as no arithmetic on times overflows, which is all that can
end a run; and no value that would disarm it is ever computed. -/
theorem no_timer_forgotten {s : State} (h : positiveClock.Reachable s) :
    (s.pc = .idle → ∀ e, s.timers.begin? = some e → Covered s.timerfd e.when_) ∧
    (∀ a f, step s a = some (.error f) → f = .overflow) ∧
    ∀ w n ts, howMuchTimeFromNow w n = .ok ts → ts.isZero = false := by
  refine ⟨?_, ?_, fun w n ts hts => (howMuchTimeFromNow_ok hts).1⟩
  · intro hpc e he
    exact (reachable_watched h).covered e (OrdSet.begin?_mem he) (by simp [hpc, Pc.inBatch])
  · intro a f ha
    obtain ⟨m, g⟩ := reachable_good h
    rcases step_effect g ha with ⟨t, m', hr, -⟩ | hr
    · cases hr
    · cases hr; rfl

/-- A timer with expiration zero is added inside a batch, while a repeating timer
is put back behind it. -/
def pastTrace : List Act :=
  [.addTimer 1 50 2, .tick 101, .handleRead, .collect, .runTimer, .addTimer 2 0 0, .endCalls, .resetTimer, .rearm]

theorem no_timer_forgotten_past : ∃ s, Lts.exec next (initial 1) pastTrace = some s ∧
    s.timers.begin? = some ⟨0, 2⟩ ∧ Covered s.timerfd 0 := by
  have hrun : ((Lts.exec next (initial 1) pastTrace).map fun s => (s.pc, s.timers.begin?)) =
      some (.idle, some ⟨0, 2⟩) := by decide +kernel
  obtain ⟨s, hs, hd⟩ := Option.map_eq_some_iff.mp hrun
  rw [Prod.mk.injEq] at hd
  have hreach : positiveClock.Reachable s := reachable_of_exec (by decide) hs
  exact ⟨s, hs, hd.2, (no_timer_forgotten hreach).1 hd.1 _ hd.2⟩

/-- `resetTimerfd` where the difference of the two times wraps around, as the machine's subtraction does. -/
def resetTimerfdWrapping (fd : TimerFd) (expired now : Int) : Except Fault TimerFd := do
  let value ← howMuchTimeFromNow (Int.bmod (expired - now) (2 ^ 64)) 0
  return fd.settime value now

/-- The earliest expiration there is overflows at any positive clock reading; and where the difference wraps
around instead, its timer is forgotten. -/
theorem timer_forgotten_on_overflow :
    (¬ ∀ s a r, positiveClock.Reachable s → step s a = some r →
      ∃ t, r = .ok t ∧ (t.pc = .idle → ∀ e, t.timers.begin? = some e → Covered t.timerfd e.when_)) ∧
    ∃ fd, resetTimerfdWrapping (initial 1).timerfd (-2 ^ 63) 1 = .ok fd ∧ fd.arm = some ⟨2 ^ 63, 1⟩ ∧
      ¬ Covered fd (-2 ^ 63) := by
  constructor
  · intro hall
    have hinit : positiveClock.Reachable (initial 1) := .init ⟨1, by decide, rfl⟩
    have hstep : step (initial 1) (.addTimer 1 (-2 ^ 63) 0) = some (.error .overflow) := rfl
    obtain ⟨t, ht, -⟩ := hall _ _ _ hinit hstep
    cases ht
  · have harm : resetTimerfdWrapping (initial 1).timerfd (-2 ^ 63) 1 = .ok ⟨some ⟨2 ^ 63, 1⟩, 0⟩ := rfl
    refine ⟨_, harm, rfl, ?_⟩
    intro hc
    rcases hc with hc | ⟨a, ha, hle⟩
    · exact absurd hc (by decide)
    · cases ha
      exact absurd hle (by decide)

def epochTrace : List Act :=
  [.addTimer 1 (-200) (1 / 2), .tick (-100), .handleRead, .collect, .runTimer, .endCalls, .resetTimer, .rearm]

/-- At clock readings that are not positive the batch ends with a waiting timer and an idle descriptor. -/
example : ((Lts.exec next (initial (-200)) epochTrace).map fun s => (s.pc, s.timers.begin?, s.timerfd)) =
    some (.idle, some ⟨-100, 1⟩, ⟨none, 0⟩) := by decide +kernel

end MyLearning.TimerQueue
