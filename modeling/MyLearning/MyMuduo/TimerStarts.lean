import MyLearning.MyMuduo.TimerDelays

/-!
# When callbacks start

`starts` logs every start of a callback with the timer as it is then, the time that `handleRead` read for
the batch and the clock. No timer starts before it expires, and two starts of one timer are those of a
repeating one, with its interval between them.
-/

namespace MyLearning.TimerQueue

structure Start where
  timer : Timer
  now : Int
  clock : Int

def starts (s : State) : Act → List Start
  | .runTimer =>
    match s.pc with
    | .calling now _ (it :: _) => ((s.heap it.timer).map fun t => ⟨t, now, s.clock⟩).toList
    | _ => []
  | _ => []

def Pc.now? : Pc → Option Int
  | idle => none
  | entered now | calling now .. | resetting now _ => some now

def Start.OnTime (x : Start) : Prop := x.timer.expiration ≤ x.now ∧ x.now ≤ x.clock

def Follows (x : Start) (t : Timer) : Prop :=
  x.timer.repeat_ = true ∧ x.now + ⌊x.timer.interval⌋ * 10 ^ 6 ≤ t.expiration

def Spaced (x y : Start) : Prop := y.timer.sequence = x.timer.sequence → Follows x y.timer

/-- The callback of this slot is still to start, in this batch or a later one. -/
def Ahead (s : State) (p : Addr) (c : Slot) : Prop := c.place = .queued ∨ p ∈ s.pc.unrun.map Entry.timer

structure Logged (s : State) (m : Slots) (l : List Start) : Prop where
  clock : ∀ now, s.pc.now? = some now → now ≤ s.clock
  due : ∀ now, s.pc.now? = some now → ∀ p t, m p = some ⟨.batch, t⟩ → t.expiration ≤ now
  past : ∀ x ∈ l, x.clock ≤ s.clock
  read : ∀ x ∈ l, x.now ≤ s.clock ∧ ∀ now, s.pc.now? = some now → x.now ≤ now
  passed : ∀ x ∈ l, x.timer.sequence ∈ s.passed
  later : ∀ x ∈ l, ∀ p c, m p = some c → c.timer.sequence = x.timer.sequence →
    c.timer.interval = x.timer.interval ∧ (Ahead s p c → Follows x c.timer)
  onTime : ∀ x ∈ l, x.OnTime
  spaced : l.Pairwise Spaced

variable {s t : State} {m m' : Slots} {a : Act} {l : List Start}

theorem initial_logged (clock : Int) : Logged (initial clock) (fun _ => none) [] where
  clock _ h := by cases h
  due _ h := by cases h
  past _ h := by cases h
  read _ h := by cases h
  passed _ h := by cases h
  later _ h := by cases h
  onTime _ h := by cases h
  spaced := .nil

theorem Logged.move (L : Logged s m l) (now : ∀ n, t.pc.now? = some n → s.pc.now? = some n) (clock : s.clock ≤ t.clock)
    (passed : ∀ k ∈ s.passed, k ∈ t.passed)
    (unrun : ∀ p ∈ t.pc.unrun.map Entry.timer, p ∈ s.pc.unrun.map Entry.timer)
    (slots : ∀ p c, m' p = some c → m p = some c ∨ c.place ≠ .batch ∧ ∀ x ∈ l, c.timer.sequence = x.timer.sequence →
      c.timer.interval = x.timer.interval ∧ Follows x c.timer) : Logged t m' l where
  clock n hn := le_trans (L.clock n (now n hn)) clock
  due n hn p u hm := by
    rcases slots p _ hm with hm | ⟨hne, -⟩
    · exact L.due n (now n hn) p u hm
    · exact absurd rfl hne
  past x hx := le_trans (L.past x hx) clock
  read x hx := ⟨le_trans (L.read x hx).1 clock, fun n hn => (L.read x hx).2 n (now n hn)⟩
  passed x hx := passed _ (L.passed x hx)
  later x hx p c hm hk := by
    rcases slots p c hm with hm | ⟨-, hnew⟩
    · obtain ⟨hi, hf⟩ := L.later x hx p c hm hk
      exact ⟨hi, fun ha => hf (ha.imp_right (unrun p))⟩
    · exact ⟨(hnew x hx hk).1, fun _ => (hnew x hx hk).2⟩
  onTime := L.onTime
  spaced := L.spaced

theorem Logged.frame (L : Logged s m l) (now : ∀ n, t.pc.now? = some n → s.pc.now? = some n) (clock : s.clock ≤ t.clock)
    (passed : t.passed = s.passed) (unrun : ∀ p ∈ t.pc.unrun.map Entry.timer, p ∈ s.pc.unrun.map Entry.timer) :
    Logged t m l :=
  L.move now clock (fun _ hk => passed ▸ hk) unrun fun _ _ h => .inl h

theorem Logged.update (L : Logged s m l) {p : Addr} {x : Option Slot} (pc : t.pc = s.pc) (clock : t.clock = s.clock)
    (passed : ∀ k ∈ s.passed, k ∈ t.passed)
    (hx : ∀ c, x = some c → c.place ≠ .batch ∧ ∀ y ∈ l, c.timer.sequence ≠ y.timer.sequence) :
    Logged t (Function.update m p x) l := by
  refine L.move (fun _ h => pc ▸ h) (le_of_eq clock.symm) passed (fun _ h => pc ▸ h) ?_
  intro q c hm
  rcases update_some hm with ⟨-, he⟩ | ⟨-, hm⟩
  · exact .inr ⟨(hx c he).1, fun y hy hk => absurd hk ((hx c he).2 y hy)⟩
  · exact .inl hm

/-! ## The steps of handleRead -/

theorem Logged.handleRead (L : Logged s m l) (g : Good s m) (hpc : s.pc = .idle) :
    Logged { s with pc := .entered s.clock } m l where
  clock n hn := by cases hn; exact le_refl _
  due n hn p u hm := by
    obtain ⟨e, he, -⟩ := List.mem_map.mp ((g.batch p).mpr ⟨u, hm⟩)
    rw [hpc] at he
    cases he
  past := L.past
  read x hx := ⟨(L.read x hx).1, fun n hn => by cases hn; exact (L.read x hx).1⟩
  passed := L.passed
  later x hx p c hm hk := by
    obtain ⟨hi, hf⟩ := L.later x hx p c hm hk
    refine ⟨hi, fun ha => hf (.inl ?_)⟩
    rcases ha with ha | ha
    · exact ha
    · cases ha
  onTime := L.onTime
  spaced := L.spaced

theorem Logged.collect (L : Logged s m l) (g : Good s m) {now : Int} {es : List Entry} (hpc : s.pc = .entered now)
    (hmem : ∀ e, e ∈ es ↔ e ∈ s.timers ∧ e.when_ ≤ now) (tpc : t.pc = .calling now [] es) (clock : t.clock = s.clock)
    (passed : t.passed = s.passed) : Logged t (collectSlots m (es.map Entry.timer)) l := by
  have hnow : s.pc.now? = some now := by rw [hpc]; rfl
  have queued : ∀ p ∈ es.map Entry.timer, ∀ c, m p = some c → c.place = .queued ∧ c.timer.expiration ≤ now := by
    intro p hp c hm
    obtain ⟨e, he, rfl⟩ := List.mem_map.mp hp
    obtain ⟨hT, hle⟩ := (hmem e).mp he
    obtain ⟨u, hu, hw⟩ := (g.index.timers e.when_ e.timer).mp hT
    rw [hu] at hm
    cases hm
    exact ⟨rfl, hw ▸ hle⟩
  have old : ∀ p c, collectSlots m (es.map Entry.timer) p = some c → ∃ d, m p = some d ∧ d.timer = c.timer ∧
      (c = d ∨ p ∈ es.map Entry.timer) := by
    intro p c hm
    unfold collectSlots at hm
    split at hm
    · rename_i hp
      obtain ⟨d, hd, rfl⟩ := Option.map_eq_some_iff.mp hm
      exact ⟨d, hd, rfl, .inr hp⟩
    · exact ⟨c, hm, rfl, .inl rfl⟩
  constructor
  case clock =>
    intro n hn
    rw [tpc] at hn
    cases hn
    rw [clock]
    exact L.clock _ hnow
  case due =>
    intro n hn p u hm
    rw [tpc] at hn
    cases hn
    obtain ⟨d, hd, hdu, hor⟩ := old p _ hm
    rcases hor with rfl | hp
    · exact absurd hd (g.no_batch hpc p u)
    · rw [← show d.timer = u from hdu]
      exact (queued p hp d hd).2
  case past => exact fun x hx => clock ▸ L.past x hx
  case read =>
    intro x hx
    refine ⟨clock ▸ (L.read x hx).1, ?_⟩
    intro n hn
    rw [tpc] at hn
    cases hn
    exact (L.read x hx).2 _ hnow
  case passed => exact fun x hx => passed ▸ L.passed x hx
  case later =>
    intro x hx p c hm hk
    obtain ⟨d, hd, hdc, hor⟩ := old p c hm
    rw [← hdc] at hk ⊢
    obtain ⟨hi, hf⟩ := L.later x hx p d hd hk
    refine ⟨hi, fun ha => hf (.inl ?_)⟩
    rcases hor with rfl | hp
    · rcases ha with ha | ha
      · exact ha
      · rw [tpc] at ha
        exact (queued p ha c hd).1
    · exact (queued p hp d hd).1
  case onTime => exact L.onTime
  case spaced => exact L.spaced

theorem Logged.runTimer (L : Logged s m l) (g : Good s m) {now : Int} {ran todo : List Entry} {it : Entry}
    (hpc : s.pc = .calling now ran (it :: todo)) {u : Timer} (hm : m it.timer = some ⟨.batch, u⟩) :
    Logged { s with pc := .calling now (ran ++ [it]) todo } m (l ++ [⟨u, now, s.clock⟩]) := by
  have hnow : s.pc.now? = some now := by rw [hpc]; rfl
  have hunrun : s.pc.unrun = it :: todo := by rw [hpc]; rfl
  have hnot : it.timer ∉ todo.map Entry.timer := by
    have hn := g.batch_nodup
    rw [hpc] at hn
    simp only [Pc.batch, List.map_append, List.map_cons] at hn
    exact (List.nodup_cons.mp (List.nodup_append.mp hn).2.1).1
  have each : ∀ {P : Start → Prop}, (∀ x ∈ l, P x) → P ⟨u, now, s.clock⟩ → ∀ x ∈ l ++ [⟨u, now, s.clock⟩], P x := by
    intro P hl hu x hx
    rcases List.mem_append.mp hx with hx | hx
    · exact hl x hx
    · rw [List.mem_singleton.mp hx]
      exact hu
  constructor
  case clock => exact fun n hn => by cases hn; exact L.clock _ hnow
  case due => exact fun n hn p v hv => by cases hn; exact L.due _ hnow p v hv
  case past => exact each L.past (le_refl _)
  case read =>
    refine each ?_ ⟨L.clock _ hnow, fun n hn => by cases hn; exact le_refl _⟩
    exact fun x hx => ⟨(L.read x hx).1, fun n hn => by cases hn; exact (L.read x hx).2 _ hnow⟩
  case passed => exact each L.passed ((g.ledger.handed _ _ hm).mpr (by simp))
  case later =>
    refine each ?_ ?_
    · intro x hx p c hc hk
      obtain ⟨hi, hf⟩ := L.later x hx p c hc hk
      refine ⟨hi, fun ha => hf (ha.imp_right ?_)⟩
      intro hp
      rw [hunrun]
      exact List.mem_cons_of_mem _ hp
    · intro p c hc hk
      -- a timer with this sequence number is the one that starts
      have hp : p = it.timer := g.ledger.inj p it.timer c _ hc hm hk
      subst hp
      rw [hm] at hc
      cases hc
      refine ⟨rfl, fun ha => ?_⟩
      rcases ha with ha | ha
      · cases ha
      · exact absurd ha hnot
  case onTime => exact each L.onTime ⟨L.due _ hnow _ _ hm, L.clock _ hnow⟩
  case spaced =>
    refine Lts.pairwise_snoc L.spaced ?_
    intro x hx hk
    refine (L.later x hx it.timer _ hm hk).2 (.inr ?_)
    rw [hunrun]
    exact List.mem_cons_self

theorem Logged.resetInsert (L : Logged s m l) {now : Int} {it : Entry} {todo : List Entry} {u v : Timer}
    (hpc : s.pc = .resetting now (it :: todo)) (hm : m it.timer = some ⟨.batch, u⟩) (hrep : u.repeat_ = true)
    (hv : u.restart now = .ok v) (tpc : t.pc = .resetting now todo) (clock : t.clock = s.clock)
    (passed : t.passed = s.passed) : Logged t (Function.update m it.timer (some ⟨.queued, v⟩)) l := by
  have hnow : s.pc.now? = some now := by rw [hpc]; rfl
  have hpos : 0 < u.interval := by simpa [u.repeat_eq] using hrep
  obtain ⟨-, rfl⟩ := (Timer.restart_repeating hpos now).mp hv
  refine L.move ?_ (le_of_eq clock.symm) (fun _ hk => passed ▸ hk) ?_ ?_
  · intro n hn
    rw [tpc] at hn
    cases hn
    exact hnow
  · intro p hp
    rw [tpc] at hp
    cases hp
  · intro p c hc
    rcases update_some hc with ⟨-, he⟩ | ⟨-, hc⟩
    · cases he
      refine .inr ⟨nofun, ?_⟩
      intro x hx hk
      obtain ⟨hi, -⟩ := L.later x hx _ _ hm hk
      have hread := (L.read x hx).2 now hnow
      have hi : u.interval = x.timer.interval := hi
      refine ⟨hi, ?_, ?_⟩
      · rw [x.timer.repeat_eq, ← hi]
        simpa using hpos
      · show x.now + ⌊x.timer.interval⌋ * 10 ^ 6 ≤ now + ⌊u.interval⌋ * 10 ^ 6
        rw [hi]
        omega
    · exact .inl hc

/-! ## Runs -/

theorem starts_nil (ha : a ≠ .runTimer) : starts s a = [] := by
  cases a with
  | runTimer => exact absurd rfl ha
  | _ => rfl

theorem Effect.quiet (h : Effect s m a t m') (g : Good s m) (L : Logged s m l) (ha : a ≠ .runTimer) : Logged t m' l := by
  induction h with
  | @newTimer s m p w i hp _ =>
    refine L.update rfl rfl (fun _ hk => hk) ?_
    intro c hc
    cases hc
    refine ⟨nofun, ?_⟩
    intro x hx he
    exact absurd (g.ledger.bound _ (L.passed x hx)) (he ▸ Nat.lt_irrefl _)
  | @addTimerInLoop s m p u _ hp =>
    refine L.update rfl rfl (fun _ hk => List.mem_append_left _ hk) ?_
    intro c hc
    cases hc
    refine ⟨nofun, ?_⟩
    intro x hx he
    have hpassed := L.passed x hx
    rw [← he] at hpassed
    exact (g.ledger.handed p _ hp).mp hpassed rfl
  | addTimer _ h₁ _ ih₁ ih₂ => exact ih₂ (h₁.good g) (ih₁ g L nofun) nofun
  | cancelQueued _ _ _ =>
    exact L.update rfl rfl (fun _ hk => hk) nofun
  | cancelOther _ _ =>
    split
    · exact L.frame (fun _ h => h) (le_refl _) rfl fun _ h => h
    · exact L
  | handleRead hpc =>
    exact L.handleRead g hpc
  | collect hpc _ hmem _ _ _ =>
    exact L.collect g hpc hmem rfl rfl rfl
  | runTimer _ => exact absurd rfl ha
  | @endCalls s m now ran hpc =>
    refine L.frame ?_ (le_refl _) rfl nofun
    intro n hn
    rw [hpc]
    exact hn
  | @resetDelete s m now it todo u hpc hm _ =>
    refine L.move ?_ (le_refl _) (fun _ hk => hk) nofun ?_
    · intro n hn
      rw [hpc]
      exact hn
    · intro p c hc
      rcases update_some hc with ⟨-, he⟩ | ⟨-, hc⟩
      · cases he
      · exact .inl hc
  | resetInsert hpc hm hrep _ hu =>
    exact L.resetInsert hpc hm hrep hu rfl rfl rfl
  | rearmValid _ _ _ | rearmInvalid _ _ =>
    exact L.frame nofun (le_refl _) rfl nofun
  | tick hle =>
    exact L.frame (fun _ h => h) hle rfl fun _ h => h

theorem Effect.logged (h : Effect s m a t m') (g : Good s m) (L : Logged s m l) : Logged t m' (l ++ starts s a) := by
  by_cases ha : a = .runTimer
  · subst ha
    cases h with
    | @runTimer _ _ now ran it todo hpc =>
      obtain ⟨u, hu⟩ := (g.batch it.timer).mp (by rw [hpc]; simp [Pc.batch])
      have hlog : starts s .runTimer = [⟨u, now, s.clock⟩] := by
        simp only [starts, hpc, g.heap, hu]
        rfl
      rw [hlog]
      exact L.runTimer g hpc hu
  · rw [starts_nil ha, List.append_nil]
    exact h.quiet g L ha

theorem reachable_logged {s : State × List Start} (h : (anyClock.observe starts).Reachable s) :
    ∃ m, Good s.1 m ∧ Logged s.1 m s.2 := by
  refine h.invariant (I := fun s => ∃ m, Good s.1 m ∧ Logged s.1 m s.2) ?_ ?_
  · intro s h
    obtain ⟨⟨c, -, hs⟩, hl⟩ := h
    rw [hs, hl]
    exact ⟨_, initial_good c, initial_logged c⟩
  · intro s a t h hs
    obtain ⟨m, g, L⟩ := h
    obtain ⟨m', he, g'⟩ := step_ok g hs.1
    rw [hs.2]
    exact ⟨m', g', he.logged g L⟩

/-- **When callbacks start.** In every run no callback starts before its timer has expired, at the time that was
read for its batch; a timer that does not repeat starts once at most; and two starts of one that does have
the whole seconds of its interval between the first one's batch and the expiration of the second. -/
theorem starts_on_time {s : State} {l : List Start} (h : (anyClock.observe starts).Reachable (s, l)) :
    (∀ x ∈ l, x.timer.expiration ≤ x.now ∧ x.now ≤ x.clock ∧ x.clock ≤ s.clock) ∧
      l.Pairwise fun x y => y.timer.sequence = x.timer.sequence →
        x.timer.repeat_ = true ∧ x.now + ⌊x.timer.interval⌋ * 10 ^ 6 ≤ y.timer.expiration := by
  obtain ⟨m, -, L⟩ := reachable_logged h
  refine ⟨?_, L.spaced⟩
  intro x hx
  exact ⟨(L.onTime x hx).1, (L.onTime x hx).2, L.past x hx⟩

def nextLogged (s : State × List Start) (a : Act) : Option (State × List Start) :=
  (next s.1 a).map fun t => (t, s.2 ++ starts s.1 a)

theorem nextLogged_step {x y : State × List Start} {a : Act} (h : nextLogged x a = some y) :
    (anyClock.observe starts).step x a y := by
  obtain ⟨u, hu, rfl⟩ := Option.map_eq_some_iff.mp h
  exact ⟨next_eq_some.mp hu, rfl⟩

/-- A timer with an interval of two seconds runs twice. -/
def twiceTrace : List Act :=
  [.addTimer 1 5 2, .tick 10, .handleRead, .collect, .runTimer, .endCalls, .resetTimer, .rearm,
   .tick 2000020, .handleRead, .collect, .runTimer]

theorem starts_on_time_twice : ∃ s x y, (anyClock.observe starts).Reachable (s, [x, y]) ∧ x.clock = 10 ∧ y.clock = 2000020 ∧
    x.timer.expiration ≤ x.now ∧ (y.timer.sequence = x.timer.sequence → x.now + ⌊x.timer.interval⌋ * 10 ^ 6 ≤ y.timer.expiration) := by
  have hrun : ((Lts.exec nextLogged (initial 1, []) twiceTrace).map fun s => s.2.map Start.clock) = some [10, 2000020] := by
    decide +kernel
  obtain ⟨⟨s, l⟩, hs, hl⟩ := Option.map_eq_some_iff.mp hrun
  have hreach : (anyClock.observe starts).Reachable (s, l) :=
    ⟨_, _, ⟨⟨1, trivial, rfl⟩, rfl⟩, Lts.run_of_exec (fun _ _ _ => nextLogged_step) hs⟩
  obtain ⟨x, l, rfl, hx, hl⟩ := List.map_eq_cons_iff.mp hl
  obtain ⟨y, l, rfl, hy, hl⟩ := List.map_eq_cons_iff.mp hl
  rw [List.map_eq_nil_iff.mp hl] at hreach
  obtain ⟨htime, hspaced⟩ := starts_on_time hreach
  refine ⟨s, x, y, hreach, hx, hy, (htime x List.mem_cons_self).1, ?_⟩
  intro hk
  exact ((List.pairwise_cons.mp hspaced).1 y List.mem_cons_self hk).2

end MyLearning.TimerQueue
