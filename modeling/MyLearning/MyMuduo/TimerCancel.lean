import MyLearning.MyMuduo.TimerOwnership

/-!
# Cancelling in the loop thread

`cancelInLoop` deletes a waiting timer and remembers any other id while callbacks
run; `reset` then deletes a remembered timer instead of restarting it. The loop
that runs the expired callbacks does not look at the remembered ids, so a timer
that was collected and has not run yet still runs once. `Dead` is what keeps
every other cancelled timer from ever running again.
-/

namespace MyLearning.TimerQueue

def Starts (s : State) (k : Nat) : Prop :=
  ∃ now ran it todo t, s.pc = .calling now ran (it :: todo) ∧ s.heap it.timer = some t ∧ t.sequence = k

def Waiting (s : State) (id : TimerId) : Prop :=
  ∃ e ∈ s.pc.unrun, e.timer = id.timer ∧ ∃ t, s.heap e.timer = some t ∧ t.sequence = id.sequence

/-- A timer that was passed and is now deleted, or sits in the batch after its
callback with its id remembered. -/
structure Dead (s : State) (m : Slots) (k : Nat) : Prop where
  passed : k ∈ s.passed
  slot : ∀ p c, m p = some c → c.timer.sequence = k →
    c.place = .batch ∧ p ∉ s.pc.unrun.map Entry.timer ∧ ⟨p, k⟩ ∈ s.cancelingTimers

theorem Dead.not_starts {s : State} {m : Slots} {k : Nat} (d : Dead s m k) (g : Good s m) : ¬ Starts s k := by
  intro h
  obtain ⟨now, ran, it, todo, t, hpc, ht, hk⟩ := h
  obtain ⟨c, hm, rfl⟩ := g.live.mp ht
  have := (d.slot _ _ hm hk).2.1
  rw [hpc] at this
  exact this (by simp [Pc.unrun])

/-! ## Dead timers stay dead -/

section
variable {s : State} {m : Slots} {k : Nat} (d : Dead s m k)
include d

theorem Dead.frame {t : State} (passed : t.passed = s.passed) (canceling : t.cancelingTimers = s.cancelingTimers)
    (unrun : ∀ e ∈ t.pc.unrun, e ∈ s.pc.unrun) : Dead t m k where
  passed := by rw [passed]; exact d.passed
  slot p c hm hk := by
    obtain ⟨hpl, hun, hcan⟩ := d.slot p c hm hk
    refine ⟨hpl, fun h => hun ?_, by rw [canceling]; exact hcan⟩
    obtain ⟨e, he, rfl⟩ := List.mem_map.mp h
    exact List.mem_map_of_mem (unrun e he)

theorem Dead.update {t : State} {p : Addr} {x : Option Slot} (hx : ∀ c, x = some c → c.timer.sequence ≠ k)
    (passed : k ∈ t.passed) (canceling : t.cancelingTimers = s.cancelingTimers)
    (unrun : t.pc.unrun = s.pc.unrun) : Dead t (Function.update m p x) k where
  passed := passed
  slot q c hm hk := by
    rw [canceling, unrun]
    rcases update_some hm with ⟨-, he⟩ | ⟨-, hm⟩
    · exact absurd hk (hx c he)
    · exact d.slot q c hm hk

theorem Dead.collect (g : Good s m) {now : Int} (hpc : s.pc = .entered now) {t : State} {l : List Addr}
    (passed : t.passed = s.passed) : Dead t (collectSlots m l) k where
  passed := by rw [passed]; exact d.passed
  slot p c hm hk := by
    -- no batch is left over, so the dead timer has been deleted
    have hno : ∀ c, m p = some c → c.timer.sequence ≠ k := fun c hc hk => by
      have := (d.slot _ _ hc hk).1
      cases c; cases this
      exact g.no_batch hpc _ _ hc
    unfold collectSlots at hm
    split at hm
    · obtain ⟨c', hc', rfl⟩ := Option.map_eq_some_iff.mp hm
      exact absurd hk (hno c' hc')
    · exact absurd hk (hno c hm)

end

theorem Effect.dead {s t : State} {m m' : Slots} {a : Act} (h : Effect s m a t m') {k : Nat}
    (g : Good s m) (d : Dead s m k) : Dead t m' k := by
  induction h with
  | newTimer hp _ =>
    refine d.update ?_ d.passed rfl rfl
    intro c hc
    cases hc
    exact fun e => absurd (g.ledger.bound k d.passed) (e ▸ Nat.lt_irrefl _)
  | addTimerInLoop _ hp =>
    refine d.update ?_ (List.mem_append_left _ d.passed) rfl rfl
    intro c hc
    cases hc
    exact fun e => nomatch (d.slot _ _ hp e).1
  | addTimer _ h₁ _ ih₁ ih₂ => exact ih₂ (h₁.good g) (ih₁ g d)
  | cancelQueued _ _ _ => exact d.update nofun d.passed rfl rfl
  | cancelOther _ _ =>
    split
    · exact ⟨d.passed, fun p c hm hk => by
        obtain ⟨hpl, hun, hcan⟩ := d.slot p c hm hk
        exact ⟨hpl, hun, OrdSet.mem_insert.mpr (.inr hcan)⟩⟩
    · exact d
  | handleRead _ => exact d.frame rfl rfl nofun
  | collect hpc _ _ _ _ _ => exact d.collect g hpc rfl
  | runTimer hpc => exact d.frame rfl rfl fun e he => by rw [hpc]; exact List.mem_cons_of_mem _ he
  | endCalls _ => exact d.frame rfl rfl nofun
  | resetDelete hpc _ _ => exact d.update nofun d.passed rfl (by rw [hpc]; rfl)
  | resetInsert hpc hp _ hcan hu =>
    refine d.update ?_ d.passed rfl (by rw [hpc]; rfl)
    intro c hc
    cases hc
    intro e
    have hs := (Timer.restart_ok hu).1
    rw [hs] at e
    exact hcan (e ▸ (d.slot _ _ hp e).2.2)
  | rearmValid _ _ _ | rearmInvalid _ _ => exact d.frame rfl rfl nofun
  | tick _ => exact d.frame rfl rfl fun _ he => he

theorem Effect.dead_of_cancel {s t : State} {m m' : Slots} {id : TimerId}
    (h : Effect s m (.cancelInLoop id) t m') (g : Good s m) (hid : id ∈ s.created) (hp : id.sequence ∈ s.passed)
    (hw : ¬ Waiting s id) : Dead t m' id.sequence := by
  have addr : ∀ p c, m p = some c → c.timer.sequence = id.sequence → p = id.timer := (g.ledger.ids id hid).2
  cases h with
  | cancelQueued hu hm hs =>
    refine ⟨hp, ?_⟩
    intro p c hc hk
    rcases update_some hc with ⟨-, e⟩ | ⟨hne, hc⟩
    · cases e
    · exact absurd (addr p c hc hk) hne
  | cancelOther hu hn =>
    have slot : ∀ p c, m p = some c → c.timer.sequence = id.sequence →
        c.place = .batch ∧ p ∉ s.pc.unrun.map Entry.timer ∧ s.callingExpiredTimer = true ∧ p = id.timer := by
      intro p c hm hk
      have hpa := addr p c hm hk
      subst hpa
      have hpl := (g.ledger.handed _ _ hm).mp (hk ▸ hp)
      obtain ⟨pl, u⟩ := c
      cases pl with
      | pending => exact absurd rfl hpl
      | queued => exact absurd hk (hn u hm)
      | batch =>
        refine ⟨rfl, fun hun => hw ?_, ?_, rfl⟩
        · obtain ⟨e, he, hep⟩ := List.mem_map.mp hun
          exact ⟨e, he, hep, u, by rw [hep, g.heap, hm]; rfl, hk⟩
        · have hb := (g.batch id.timer).mpr ⟨u, hm⟩
          rw [g.calling]
          cases hpc : s.pc <;> rw [hpc] at hb hu <;> simp [Pc.batch, Pc.inUser, Pc.isCalling] at hb hu ⊢
    split
    · refine ⟨hp, ?_⟩
      intro p c hm hk
      obtain ⟨hpl, hun, -, rfl⟩ := slot p c hm hk
      exact ⟨hpl, hun, OrdSet.mem_insert.mpr (.inl rfl)⟩
    · rename_i hcall
      exact ⟨hp, fun p c hm hk => absurd (slot p c hm hk).2.2.1 hcall⟩

/-! ## Timers that a cancel misses -/

/-- The timer has not been passed yet, or it is collected and still to run. -/
def Missed (s : State) (id : TimerId) : Prop := id.sequence ∉ s.passed ∨ Waiting s id

theorem Waiting.frame {s t : State} {id : TimerId} (h : Waiting s id) (unrun : t.pc.unrun = s.pc.unrun)
    (heap : ∀ e ∈ s.pc.unrun, t.heap e.timer = s.heap e.timer) : Waiting t id := by
  obtain ⟨e, he, hp, x, hx, hk⟩ := h
  exact ⟨e, by rw [unrun]; exact he, hp, x, by rw [heap e he]; exact hx, hk⟩

theorem Good.batch_of_unrun {s : State} {m : Slots} (g : Good s m) {e : Entry} (he : e ∈ s.pc.unrun) :
    ∃ t, m e.timer = some ⟨.batch, t⟩ := by
  refine (g.batch e.timer).mp (List.mem_map_of_mem ?_)
  cases hpc : s.pc with
  | calling now ran todo =>
    rw [hpc] at he
    exact List.mem_append_right _ he
  | idle | entered _ | resetting _ _ =>
    rw [hpc] at he
    cases he

theorem Effect.waiting {s t : State} {m m' : Slots} {a : Act} (h : Effect s m a t m') (g : Good s m) {id : TimerId}
    (hw : Waiting s id) : Waiting t id ∨ Starts s id.sequence ∧ a = .runTimer := by
  have elsewhere : ∀ {p : Addr} (x : Option Timer), (∀ t, m p ≠ some ⟨.batch, t⟩) →
      ∀ e ∈ s.pc.unrun, Function.update s.heap p x e.timer = s.heap e.timer := by
    intro p x hp e he
    obtain ⟨t, ht⟩ := g.batch_of_unrun he
    apply Function.update_of_ne
    intro heq
    exact hp t (heq ▸ ht)
  have outside : s.pc.unrun ≠ [] := by
    obtain ⟨e, he, -⟩ := hw
    exact List.ne_nil_of_mem he
  cases h with
  | newTimer hp _ => exact .inl (hw.frame rfl (elsewhere _ (by simp [hp])))
  | addTimerInLoop _ _ => exact .inl (hw.frame rfl fun _ _ => rfl)
  | addTimer _ h₁ h₂ =>
    cases h₁ with
    | newTimer hp _ =>
      cases h₂ with
      | addTimerInLoop _ _ => exact .inl (hw.frame rfl (elsewhere _ (by simp [hp])))
  | cancelQueued _ hm _ => exact .inl (hw.frame rfl (elsewhere _ (by simp [hm])))
  | cancelOther _ _ => split <;> exact .inl (hw.frame rfl fun _ _ => rfl)
  | tick _ => exact .inl (hw.frame rfl fun _ _ => rfl)
  | runTimer hpc =>
    obtain ⟨e, he, hp, x, hx, hk⟩ := hw
    rw [hpc] at he
    rcases List.mem_cons.mp he with rfl | he
    · exact .inr ⟨⟨_, _, _, _, x, hpc, hx, hk⟩, rfl⟩
    · exact .inl ⟨e, he, hp, x, hx, hk⟩
  | handleRead hpc | collect hpc _ _ _ _ _ | endCalls hpc | resetDelete hpc _ _ | resetInsert hpc _ _ _ _
  | rearmValid hpc _ _ | rearmInvalid hpc _ => exact absurd (by rw [hpc]; rfl) outside

theorem Effect.unpassed {s t : State} {m m' : Slots} {a : Act} (h : Effect s m a t m') (g : Good s m) {id : TimerId}
    (hid : id ∈ s.created) (hp : id.sequence ∉ s.passed) : id.sequence ∉ t.passed ∨ InTimers t id.sequence := by
  have g' := h.good g
  by_cases hk : id.sequence ∈ t.passed
  · right
    cases h with
    | addTimerInLoop hu hm =>
      rename_i p x
      change id.sequence ∈ s.passed ++ ((s.heap p).map Timer.sequence).toList at hk
      rw [g.heap, hm] at hk
      rcases List.mem_append.mp hk with hk | hk
      · exact absurd hk hp
      · exact g'.inTimers.mpr ⟨p, x, Function.update_self .., (List.mem_singleton.mp hk).symm⟩
    | addTimer _ h₁ h₂ =>
      cases h₁ with
      | newTimer hm hb =>
        rename_i p w i _
        cases h₂ with
        | addTimerInLoop _ _ =>
          -- the timer that is added is a new one
          change id.sequence ∈ s.passed ++
            ((s.heap.write p (Timer.create w i s.numCreate) p).map Timer.sequence).toList at hk
          rw [Heap.write_self] at hk
          rcases List.mem_append.mp hk with hk | hk
          · exact absurd hk hp
          · exact absurd (List.mem_singleton.mp hk) (Nat.ne_of_lt (g.ledger.ids id hid).1)
    | cancelOther _ _ =>
      split at hk <;> exact absurd hk hp
    | _ => exact absurd hk hp
  · exact .inl hk

theorem Effect.missed {s t : State} {m m' : Slots} {a : Act} (h : Effect s m a t m') (g : Good s m) {id : TimerId}
    (hid : id ∈ s.created) (hm : Missed s id) :
    Missed t id ∨ InTimers t id.sequence ∨ Starts s id.sequence ∧ a = .runTimer := by
  rcases hm with hp | hw
  · exact (h.unpassed g hid hp).imp .inl .inl
  · exact (h.waiting g hw).imp .inr .inr

/-! ## Runs in the loop thread -/

/-- Allocations in other threads are left out. -/
def Act.inLoopThread : Act → Bool
  | .newTimer .. => false
  | _ => true

abbrev loopThread : Lts State Act := anyClock.restrict fun _ a => a.inLoopThread = true

theorem reachable_pending {s : State} (h : loopThread.Reachable s) : s.pending = [] := by
  refine Lts.Reachable.invariant_of (J := fun s => s.pending = [])
    (fun s hs => reachable_good hs.of_restrict) ?_ ?_ h
  · intro s h
    obtain ⟨c, -, rfl⟩ := h
    rfl
  · intro s a t h hn hs
    obtain ⟨m, g⟩ := h
    obtain ⟨m', he, g'⟩ := step_ok g hs.2
    have hno : ∀ {p : Addr} {t : Timer}, m p ≠ some ⟨.pending, t⟩ := fun {p t} hp => by
      have := (g.pending p).mpr ⟨t, hp⟩
      rw [hn] at this; cases this
    cases he with
    | newTimer => cases hs.1
    | addTimerInLoop _ hp => exact absurd hp hno
    | addTimer _ h₁ h₂ =>
      cases h₁ with
      | newTimer => cases h₂ with
        | addTimerInLoop => simp [queued, hand, TimerQueue.newTimer, hn]
    | cancelOther => split <;> exact hn
    | _ => exact hn

theorem passed_of_created {s : State} (h : loopThread.Reachable s) {id : TimerId} (hid : id ∈ s.created) :
    id.sequence ∈ s.passed := by
  obtain ⟨m, g⟩ := reachable_good h.of_restrict
  rcases g.ledger.issued _ (g.ledger.ids id hid).1 with hp | ⟨p, t, hm, -⟩
  · exact hp
  · have := (g.pending p).mpr ⟨t, hm⟩
    rw [reachable_pending h] at this; cases this

theorem run_dead {s t : State} {m : Slots} {k : Nat} {tr : List Act} (hr : loopThread.Run s tr t)
    (g : Good s m) (d : Dead s m k) : ∃ m', Good t m' ∧ Dead t m' k := by
  refine hr.invariant (I := fun s => ∃ m, Good s m ∧ Dead s m k) ?_ ⟨m, g, d⟩
  intro s a t h hs
  obtain ⟨m, g, d⟩ := h
  obtain ⟨m', he, g'⟩ := step_ok g hs.2
  exact ⟨m', g', he.dead g d⟩

theorem run_to_waiting : ∀ (before : List Entry) {s : State} {m : Slots} {now : Int} {ran after : List Entry}
    {it : Entry}, Good s m → s.pc = .calling now ran (before ++ it :: after) →
    ∃ tr, loopThread.Run s tr { s with pc := .calling now (ran ++ before) (it :: after) }
  | [], s, m, now, ran, after, it, _, hpc => by
    rw [List.nil_append] at hpc
    rw [List.append_nil, ← hpc]
    exact ⟨[], .nil s⟩
  | e :: before, s, m, now, ran, after, it, g, hpc => by
    rw [List.cons_append] at hpc
    obtain ⟨t, hm⟩ := (g.batch e.timer).mp (by rw [hpc]; simp [Pc.batch])
    have hstep : step s .runTimer = some (.ok { s with pc := .calling now (ran ++ [e]) (before ++ it :: after) }) := by
      have ht : s.heap e.timer = some t := by rw [g.heap, hm]; rfl
      simp only [step, hpc, Heap.deref_some ht]
      rfl
    have g' := (Effect.runTimer (m := m) hpc).good g
    obtain ⟨tr, hr⟩ := run_to_waiting before (s := { s with pc := .calling now (ran ++ [e]) (before ++ it :: after) })
      g' rfl
    rw [List.append_assoc, List.singleton_append] at hr
    exact ⟨.runTimer :: tr, .cons ⟨rfl, hstep⟩ hr⟩

/-- **Cancel within the loop thread.** After `cancelInLoop(id)` the callback of
that timer never starts again, in any run, if and only if the timer was not
collected and still to be run when it was cancelled. -/
theorem cancel_effective_iff {s t : State} {id : TimerId} (h : loopThread.Reachable s) (hid : id ∈ s.created)
    (hs : step s (.cancelInLoop id) = some (.ok t)) :
    (∀ tr u, loopThread.Run t tr u → ¬ Starts u id.sequence) ↔ ¬ Waiting s id := by
  obtain ⟨m, g⟩ := reachable_good h.of_restrict
  obtain ⟨m', he, g'⟩ := step_ok g hs
  constructor
  · intro hall h
    obtain ⟨e, hun, hep, u, hu, hk⟩ := h
    have hpc : ∃ now ran todo, s.pc = .calling now ran todo := by
      cases hpc : s.pc <;> rw [hpc] at hun <;> simp [Pc.unrun] at hun ⊢
    obtain ⟨now, ran, todo, hpc⟩ := hpc
    rw [hpc] at hun
    obtain ⟨before, after, rfl⟩ := List.append_of_mem (show e ∈ todo from hun)
    have hbatch : ∃ u, m e.timer = some ⟨.batch, u⟩ := by
      apply (g.batch e.timer).mp
      rw [hpc]; simp [Pc.batch]
    -- the cancel finds no waiting timer, so it leaves the batch and the heap alone
    have hsame : t.pc = s.pc ∧ t.heap = s.heap := by
      cases he with
      | cancelQueued _ hm _ => obtain ⟨u, hb⟩ := hbatch; rw [← hep, hb] at hm; cases hm
      | cancelOther _ _ => split <;> exact ⟨rfl, rfl⟩
    obtain ⟨tr, hr⟩ := run_to_waiting before g' (hsame.1.trans hpc)
    exact hall tr _ hr ⟨now, _, e, after, u, rfl, by rw [← hu]; exact congrFun hsame.2 _, hk⟩
  · intro hw tr u hr
    obtain ⟨m'', g'', d⟩ := run_dead hr g' (he.dead_of_cancel g hid (passed_of_created h hid) hw)
    exact d.not_starts g''

def nextInLoop (s : State) (a : Act) : Option State := if a.inLoopThread then next s a else none

theorem nextInLoop_step {s t : State} {a : Act} (h : nextInLoop s a = some t) : loopThread.step s a t := by
  unfold nextInLoop at h
  split at h
  · rename_i ha; exact ⟨ha, next_eq_some.mp h⟩
  · cases h

theorem reachable_of_execInLoop {clock : Int} {tr : List Act} {s : State}
    (h : Lts.exec nextInLoop (initial clock) tr = some s) : loopThread.Reachable s :=
  ⟨initial clock, tr, ⟨clock, trivial, rfl⟩, Lts.run_of_exec (fun _ _ _ => nextInLoop_step) h⟩

/-- Two timers expire together, and the callback of the first runs. -/
def mateTrace : List Act :=
  [.addTimer 1 5 0, .addTimer 2 5 0, .tick 10, .handleRead, .collect, .runTimer]

/-- The first callback cancels the second timer, whose callback is the next to start. -/
theorem cancelled_mate_starts : ¬ ∀ s t id, loopThread.Reachable s → id ∈ s.created →
    step s (.cancelInLoop id) = some (.ok t) →
    ∀ tr u, loopThread.Run t tr u → ¬ Starts u id.sequence := by
  intro hall
  have hrun : ((Lts.exec nextInLoop (initial 1) mateTrace).bind fun s =>
      (next s (.cancelInLoop ⟨2, 1⟩)).map fun t => (s.created, t.pc, (t.heap 2).map Timer.sequence)) =
      some ([⟨1, 0⟩, ⟨2, 1⟩], .calling 10 [⟨5, 1⟩] [⟨5, 2⟩], some 1) := by decide +kernel
  obtain ⟨s, hs, h⟩ := Option.bind_eq_some_iff.mp hrun
  obtain ⟨t, ht, h⟩ := Option.map_eq_some_iff.mp h
  simp only [Prod.mk.injEq] at h
  obtain ⟨hc, hpc, hh⟩ := h
  obtain ⟨u, hu, hk⟩ := Option.map_eq_some_iff.mp hh
  refine hall s t ⟨2, 1⟩ (reachable_of_execInLoop hs) (by rw [hc]; simp) (next_eq_some.mp ht) [] t (.nil t) ?_
  exact ⟨10, [⟨5, 1⟩], ⟨5, 2⟩, [], u, hpc, hu, hk⟩

/-- In the same state the first callback may cancel its own timer, which then
never runs again. -/
theorem cancel_effective_self : ∃ s t, loopThread.Reachable s ∧ step s (.cancelInLoop ⟨1, 0⟩) = some (.ok t) ∧
    ∀ tr u, loopThread.Run t tr u → ¬ Starts u 0 := by
  have hrun : ((Lts.exec nextInLoop (initial 1) mateTrace).bind fun s =>
      (next s (.cancelInLoop ⟨1, 0⟩)).map fun _ => (s.created, s.pc)) =
      some ([⟨1, 0⟩, ⟨2, 1⟩], .calling 10 [⟨5, 1⟩] [⟨5, 2⟩]) := by decide +kernel
  obtain ⟨s, hs, h⟩ := Option.bind_eq_some_iff.mp hrun
  obtain ⟨t, ht, h⟩ := Option.map_eq_some_iff.mp h
  obtain ⟨hc, hpc⟩ := Prod.mk.inj h
  have hreach := reachable_of_execInLoop hs
  have hstep := next_eq_some.mp ht
  refine ⟨s, t, hreach, hstep, (cancel_effective_iff hreach (by rw [hc]; simp) hstep).mpr ?_⟩
  intro h
  obtain ⟨e, he, hp, -⟩ := h
  rw [hpc] at he
  rw [List.mem_singleton.mp he] at hp
  cases hp

end MyLearning.TimerQueue
