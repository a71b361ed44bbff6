import MyLearning.MyMuduo.TimerEffect

/-!
# The timer queue keeps its indexes and owns every timer

Every reachable state of the queue is good, so the two sets agree, no step fails
an assertion or touches a freed timer, and a timer passed to `addTimerInLoop` is
waiting, in the expired batch or deleted, and deleted at most once.
-/

namespace MyLearning.TimerQueue

def InTimers (s : State) (k : Nat) : Prop := ∃ e ∈ s.timers, ∃ t, s.heap e.timer = some t ∧ t.sequence = k

def InBatch (s : State) (k : Nat) : Prop := ∃ e ∈ s.pc.batch, ∃ t, s.heap e.timer = some t ∧ t.sequence = k

def ExactlyOne (a b c : Prop) : Prop := (a ∧ ¬b ∧ ¬c) ∨ (¬a ∧ b ∧ ¬c) ∨ (¬a ∧ ¬b ∧ c)

section
variable {s : State} {m : Slots} (g : Good s m)
include g

theorem Good.live {p : Addr} {t : Timer} : s.heap p = some t ↔ ∃ c, m p = some c ∧ c.timer = t := by
  rw [g.heap]; exact Option.map_eq_some_iff

theorem Good.inTimers {k : Nat} : InTimers s k ↔ ∃ p t, m p = some ⟨.queued, t⟩ ∧ t.sequence = k := by
  constructor
  · intro h
    obtain ⟨e, he, t, ht, hk⟩ := h
    obtain ⟨u, hu, -⟩ := (g.index.timers e.when_ e.timer).mp he
    rw [g.heap, hu] at ht; cases ht
    exact ⟨_, _, hu, hk⟩
  · intro h
    obtain ⟨p, t, hm, hk⟩ := h
    exact ⟨⟨t.expiration, p⟩, g.index.mem_timers hm, t, by rw [g.heap, hm]; rfl, hk⟩

theorem Good.inBatch {k : Nat} : InBatch s k ↔ ∃ p t, m p = some ⟨.batch, t⟩ ∧ t.sequence = k := by
  constructor
  · intro h
    obtain ⟨e, he, t, ht, hk⟩ := h
    obtain ⟨u, hu⟩ := (g.batch e.timer).mp (List.mem_map_of_mem he)
    rw [g.heap, hu] at ht; cases ht
    exact ⟨_, _, hu, hk⟩
  · intro h
    obtain ⟨p, t, hm, hk⟩ := h
    obtain ⟨e, he, rfl⟩ := List.mem_map.mp ((g.batch p).mpr ⟨t, hm⟩)
    exact ⟨e, he, t, by rw [g.heap, hm]; rfl, hk⟩

theorem Good.timers_iff (w : Int) (p : Addr) : ⟨w, p⟩ ∈ s.timers ↔
    ∃ t, s.heap p = some t ∧ ⟨p, t.sequence⟩ ∈ s.activeTimers ∧ w = t.expiration := by
  rw [g.index.timers]
  constructor
  · intro h
    obtain ⟨t, hm, rfl⟩ := h
    exact ⟨t, by rw [g.heap, hm]; rfl, g.index.mem_active hm, rfl⟩
  · intro h
    obtain ⟨t, ht, hA, rfl⟩ := h
    obtain ⟨u, hu, -⟩ := (g.index.active _ _).mp hA
    rw [g.heap, hu] at ht; cases ht
    exact ⟨_, hu, rfl⟩

theorem Good.active_live {p : Addr} {q : Nat} (h : ⟨p, q⟩ ∈ s.activeTimers) :
    ∃ t, s.heap p = some t ∧ t.sequence = q := by
  obtain ⟨t, hm, hq⟩ := (g.index.active p q).mp h
  exact ⟨t, by rw [g.heap, hm]; rfl, hq⟩

theorem Good.place_unique {p q : Addr} {c d : Slot} (hc : m p = some c) (hd : m q = some d)
    (h : c.timer.sequence = d.timer.sequence) : c = d := by
  have := g.ledger.inj _ _ _ _ hc hd h
  subst this
  rw [hc] at hd; cases hd
  rfl

theorem Good.owned {k : Nat} (hk : k ∈ s.passed) :
    ExactlyOne (InTimers s k) (InBatch s k) (k ∈ s.deleted) := by
  rw [g.inTimers, g.inBatch]
  have apart : ¬ ((∃ p t, m p = some ⟨.queued, t⟩ ∧ t.sequence = k) ∧
      ∃ p t, m p = some ⟨.batch, t⟩ ∧ t.sequence = k) := by
    intro h
    obtain ⟨⟨p, t, hp, ht⟩, q, u, hq, hu⟩ := h
    have := g.place_unique hp hq (ht.trans hu.symm)
    cases this
  have live : ∀ (pl : Place), (∃ p t, m p = some ⟨pl, t⟩ ∧ t.sequence = k) → k ∉ s.deleted := by
    intro pl h
    obtain ⟨p, t, hp, rfl⟩ := h
    exact g.ledger.dead _ _ hp
  rcases g.ledger.found k hk with hd | ⟨p, ⟨pl, t⟩, hp, ht⟩
  · exact .inr (.inr ⟨fun h => live _ h hd, fun h => live _ h hd, hd⟩)
  · have hpl : pl ≠ .pending := (g.ledger.handed _ _ hp).mp (ht ▸ hk)
    cases pl with
    | pending => exact absurd rfl hpl
    | queued =>
      have h : ∃ p t, m p = some ⟨.queued, t⟩ ∧ t.sequence = k := ⟨p, t, hp, ht⟩
      exact .inl ⟨h, fun hb => apart ⟨h, hb⟩, live _ h⟩
    | batch =>
      have h : ∃ p t, m p = some ⟨.batch, t⟩ ∧ t.sequence = k := ⟨p, t, hp, ht⟩
      exact .inr (.inl ⟨fun hq => apart ⟨hq, h⟩, h, live _ h⟩)

end

abbrev anyClock : Lts State Act := lts fun _ => True

/-- **Index agreement and ownership.** In every reachable state an entry is in
`timers` exactly when its live timer is in `activeTimers` and expires at that
time; no step fails an assertion or touches a freed timer (a signed overflow of
the clock arithmetic is the only fault left); and a timer passed to
`addTimerInLoop` is in exactly one of `timers`, the batch and the deleted ones,
among which no timer occurs twice. -/
theorem queue_consistent {s : State} (h : anyClock.Reachable s) :
    (∀ w p, ⟨w, p⟩ ∈ s.timers ↔
      ∃ t, s.heap p = some t ∧ ⟨p, t.sequence⟩ ∈ s.activeTimers ∧ w = t.expiration) ∧
    (∀ p q, ⟨p, q⟩ ∈ s.activeTimers → ∃ t, s.heap p = some t ∧ t.sequence = q) ∧
    (∀ a f, step s a = some (.error f) → f = .overflow) ∧
    (∀ k ∈ s.passed, ExactlyOne (InTimers s k) (InBatch s k) (k ∈ s.deleted)) ∧
    s.deleted.Nodup := by
  obtain ⟨m, g⟩ := reachable_good h
  refine ⟨g.timers_iff, fun p q hA => g.active_live hA, ?_, fun k hk => g.owned hk, g.ledger.nodup⟩
  intro a f ha
  rcases step_effect g ha with ⟨t, m', hr, -⟩ | hr
  · cases hr
  · cases hr; rfl

/-! ## The split of getExpired -/

theorem Good.entry_live (g : Good s m) {e : Entry} (he : e ∈ s.timers) :
    ∃ t, s.heap e.timer = some t ∧ t.expiration = e.when_ := by
  obtain ⟨t, ht, -, hw⟩ := (g.timers_iff e.when_ e.timer).mp he
  exact ⟨t, ht, hw.symm⟩

theorem Good.entry_iff (g : Good s m) {e : Entry} (he : e ∈ s.timers) (P : Int → Prop) :
    P e.when_ ↔ ∃ t, s.heap e.timer = some t ∧ P t.expiration := by
  obtain ⟨t, ht, hw⟩ := g.entry_live he
  constructor
  · intro hP
    exact ⟨t, ht, hw ▸ hP⟩
  · intro hex
    obtain ⟨u, hu, hP⟩ := hex
    rw [ht] at hu
    cases hu
    exact hw ▸ hP

theorem Good.expired_iff (g : Good s m) {now : Int} {l : List Entry} {p : Addr} {t : Timer}
    (hl : ∀ e, e ∈ l ↔ e ∈ s.timers ∧ e.when_ ≤ now) (hm : m p = some ⟨.queued, t⟩) :
    p ∈ l.map Entry.timer ↔ t.expiration ≤ now := by
  have hT : ⟨t.expiration, p⟩ ∈ s.timers := g.index.mem_timers hm
  constructor
  · intro hp
    obtain ⟨e, he, rfl⟩ := List.mem_map.mp hp
    obtain ⟨heT, hle⟩ := (hl e).mp he
    have heq : ⟨t.expiration, e.timer⟩ = e := g.index.timers_unique hT heT rfl
    rw [← heq] at hle
    exact hle
  · intro hle
    exact List.mem_map_of_mem ((hl ⟨t.expiration, p⟩).mpr ⟨hT, hle⟩)

/-- **The expired timers.** In every reachable state `getExpired(now)` passes its
assertions and returns the timers of `timers` that expire at `now` or before, each
once and in the order of their expirations; what is left in `timers` and in
`activeTimers` are the timers that expire later. -/
theorem getExpired_splits {s : State} (h : anyClock.Reachable s) (now : Int) :
    ∃ s' expired, getExpired s now = .ok (s', expired) ∧
      (∀ e, e ∈ expired ↔ e ∈ s.timers ∧ ∃ t, s.heap e.timer = some t ∧ t.expiration ≤ now) ∧
      (expired.map Entry.timer).Nodup ∧
      (expired.map Entry.when_).Pairwise (· ≤ ·) ∧
      (∀ e, e ∈ s'.timers ↔ e ∈ s.timers ∧ ∃ t, s.heap e.timer = some t ∧ now < t.expiration) ∧
      (∀ p q, ⟨p, q⟩ ∈ s'.activeTimers ↔ ⟨p, q⟩ ∈ s.activeTimers ∧ ∃ t, s.heap p = some t ∧ now < t.expiration) ∧
      s' = { s with timers := s'.timers, activeTimers := s'.activeTimers } := by
  obtain ⟨m, g⟩ := reachable_good h
  -- no timer lives at the address of the sentry
  have haddr : ∀ p c, m p = some c → p < uintptrMax := g.ledger.addr
  obtain ⟨A, l, hget, hl, hmem, hnd, -, I⟩ := getExpired_eq g.index g.heap now haddr
  refine ⟨_, l, hget, ?_, hnd, ?_, ?_, ?_, rfl⟩
  · intro e
    rw [hmem]
    apply and_congr_right
    intro he
    exact g.entry_iff he (· ≤ now)
  · rw [List.pairwise_map, hl]
    exact (OrdSet.below_sorted _ _).imp fun hlt => Entry.when_le (le_of_lt hlt)
  · intro e
    rw [mem_eraseBelow_sentry g.index haddr]
    apply and_congr_right
    intro he
    exact g.entry_iff he (now < ·)
  · intro p q
    show ⟨p, q⟩ ∈ A ↔ _
    rw [I.active, g.index.active]
    constructor
    · intro hq
      obtain ⟨t, ht, hs⟩ := hq
      obtain ⟨hp, hm⟩ := collectSlots_queued.mp ht
      rw [g.expired_iff hmem hm, not_le] at hp
      exact ⟨⟨t, hm, hs⟩, t, by rw [g.heap, hm]; rfl, hp⟩
    · intro hq
      obtain ⟨⟨t, hm, hs⟩, u, hu, hlt⟩ := hq
      rw [g.heap, hm] at hu
      cases hu
      refine ⟨t, collectSlots_queued.mpr ⟨?_, hm⟩, hs⟩
      rw [g.expired_iff hmem hm]
      exact not_le.mpr hlt

/-! ## Runs by evaluation -/

def next (s : State) (a : Act) : Option State :=
  match step s a with
  | some (.ok t) => some t
  | _ => none

theorem next_eq_some {s t : State} {a : Act} : next s a = some t ↔ step s a = some (.ok t) := by
  unfold next; split <;> simp_all

theorem reachable_of_exec {P : Int → Prop} {clock : Int} (hP : P clock) {tr : List Act} {s : State}
    (h : Lts.exec next (initial clock) tr = some s) : (lts P).Reachable s :=
  ⟨initial clock, tr, ⟨clock, hP, rfl⟩, Lts.run_of_exec (fun _ _ _ => next_eq_some.mp) h⟩

/-- Two repeating timers expire together; the first cancels the second, the
address of a third is reused, and the batch is reset. -/
def reuseTrace : List Act :=
  [.addTimer 1 5 2, .addTimer 2 5 2, .addTimer 3 9 0, .cancelInLoop ⟨3, 2⟩, .newTimer 3 20 0, .tick 10,
   .handleRead, .collect, .runTimer, .cancelInLoop ⟨2, 1⟩, .cancelInLoop ⟨3, 2⟩, .addTimerInLoop 3, .runTimer,
   .endCalls, .resetTimer, .resetTimer, .rearm]

theorem queue_consistent_reuse : ∃ s, Lts.exec next (initial 1) reuseTrace = some s ∧
    s.passed = [0, 1, 2, 3] ∧ s.deleted = [2, 1] ∧
    (∀ k ∈ s.passed, ExactlyOne (InTimers s k) (InBatch s k) (k ∈ s.deleted)) := by
  have hrun : ((Lts.exec next (initial 1) reuseTrace).map fun s => (s.passed, s.deleted)) =
      some ([0, 1, 2, 3], [2, 1]) := by decide +kernel
  obtain ⟨s, hs, hd⟩ := Option.map_eq_some_iff.mp hrun
  rw [Prod.mk.injEq] at hd
  exact ⟨s, hs, hd.1, hd.2, (queue_consistent (reachable_of_exec trivial hs)).2.2.2.1⟩

/-- Of three timers two expire at the time of the split, one of them with the later address. -/
def tiesTrace : List Act :=
  [.addTimer 1 7 0, .addTimer 9 5 0, .addTimer 4 5 0]

theorem getExpired_splits_ties : ∃ s, Lts.exec next (initial 1) tiesTrace = some s ∧
    ∃ s' expired, getExpired s 5 = .ok (s', expired) ∧ (expired.map Entry.when_).Pairwise (· ≤ ·) := by
  have hrun : (Lts.exec next (initial 1) tiesTrace).isSome = true := by decide +kernel
  obtain ⟨s, hs⟩ := Option.isSome_iff_exists.mp hrun
  obtain ⟨s', expired, hget, -, -, hsorted, -⟩ := getExpired_splits (reachable_of_exec trivial hs) 5
  exact ⟨s, hs, s', expired, hget, hsorted⟩

end MyLearning.TimerQueue
