import MyLearning.MyMuduo.TimerOwnership

/-!
# The end of a timer queue

`~TimerQueue` deletes the timers that wait. Between two calls of `handleRead` those are all the timers there
are, but for the ones that another thread has allocated and whose `addTimerInLoop` has not run.
-/

namespace MyLearning.TimerQueue

def deleteTimers (s : State) : List Entry → Except Fault State
  | [] => .ok s
  | timer :: rest => do
    let s ← deleteTimer s timer.timer
    deleteTimers s rest

/-- `TimerQueue::~TimerQueue`, but for what it does to the descriptor and its channel. -/
def destroy (s : State) : Except Fault State := deleteTimers s s.timers.toList

def dropSlots (m : Slots) (l : List Addr) : Slots := fun p => if p ∈ l then none else m p

theorem dropSlots_cons (m : Slots) (p : Addr) (l : List Addr) :
    dropSlots (Function.update m p none) l = dropSlots m (p :: l) := by
  funext q
  unfold dropSlots
  by_cases hq : q = p
  · subst hq
    simp
  · simp [hq]

variable {s : State} {m : Slots}

theorem deleteTimers_eq (es : List Entry) : ∀ {s : State} {m : Slots}, (∀ p, s.heap p = (m p).map Slot.timer) →
    Ledger m s.numCreate s.created s.passed s.deleted → (es.map Entry.timer).Nodup →
    (∀ e ∈ es, ∃ t, m e.timer = some ⟨.queued, t⟩) →
    ∃ t : State, deleteTimers s es = .ok t ∧ (∀ p, t.heap p = (dropSlots m (es.map Entry.timer) p).map Slot.timer) ∧
      Ledger (dropSlots m (es.map Entry.timer)) t.numCreate t.created t.passed t.deleted ∧ t.passed = s.passed := by
  induction es with
  | nil =>
    intro s m hh hL _ _
    exact ⟨s, rfl, hh, hL, rfl⟩
  | cons e es ih =>
    intro s m hh hL hn hq
    obtain ⟨hnot, hn⟩ := List.nodup_cons.mp hn
    obtain ⟨x, hx⟩ := hq e List.mem_cons_self
    have hlive : s.heap e.timer = some x := by rw [hh, hx]; rfl
    obtain ⟨t, ht, hheap, hledger, hpassed⟩ := ih
      (s := { s with heap := Function.update s.heap e.timer none, deleted := s.deleted ++ [x.sequence] })
      (m := Function.update m e.timer none) (heap_update hh e.timer none) (hL.delete hx nofun) hn (by
        intro e' he'
        obtain ⟨y, hy⟩ := hq e' (List.mem_cons_of_mem _ he')
        have hne : e'.timer ≠ e.timer := fun he => hnot (he ▸ List.mem_map_of_mem he')
        exact ⟨y, by rw [Function.update_of_ne hne]; exact hy⟩)
    rw [dropSlots_cons] at hheap hledger
    refine ⟨t, ?_, hheap, hledger, hpassed⟩
    rw [deleteTimers, deleteTimer_eq hlive]
    exact ht

theorem Good.left_over (g : Good s m) (hpc : s.pc = .idle) {p : Addr} :
    dropSlots m (s.timers.toList.map Entry.timer) p ≠ none ↔ ∃ t, m p = some ⟨.pending, t⟩ := by
  unfold dropSlots
  constructor
  · intro h
    have hp : p ∉ s.timers.toList.map Entry.timer := fun hp => h (if_pos hp)
    rw [if_neg hp] at h
    obtain ⟨⟨pl, t⟩, hm⟩ := Option.ne_none_iff_exists'.mp h
    cases pl with
    | pending => exact ⟨t, hm⟩
    | queued => exact absurd (List.mem_map_of_mem (g.index.mem_timers hm)) hp
    | batch =>
      have hb := (g.batch p).mpr ⟨t, hm⟩
      rw [hpc] at hb
      cases hb
  · intro h
    obtain ⟨t, hm⟩ := h
    have hp : p ∉ s.timers.toList.map Entry.timer := by
      intro hp
      obtain ⟨e, he, rfl⟩ := List.mem_map.mp hp
      obtain ⟨u, hu, -⟩ := (g.index.timers e.when_ e.timer).mp he
      rw [hm] at hu
      cases hu
    rw [if_neg hp, hm]
    nofun

/-- **The end of the queue.** Whenever the loop is not in `handleRead`, the destructor deletes what it finds
without touching a timer that is gone. Then every timer that was in the queue has been deleted exactly once,
and the timers that were not handed over yet are left, and no others. -/
theorem destroy_frees {s : State} (h : anyClock.Reachable s) (hpc : s.pc = .idle) :
    ∃ t, destroy s = .ok t ∧ (∀ k ∈ s.passed, t.deleted.count k = 1) ∧ ∀ p, t.heap p ≠ none ↔ p ∈ s.pending := by
  obtain ⟨m, g⟩ := reachable_good h
  have hn : (s.timers.toList.map Entry.timer).Nodup := g.index.timer_nodup (fun _ he => he) s.timers.nodup
  obtain ⟨t, ht, hheap, hledger, hpassed⟩ := deleteTimers_eq s.timers.toList g.heap g.ledger hn (by
    intro e he
    obtain ⟨u, hu, -⟩ := (g.index.timers e.when_ e.timer).mp he
    exact ⟨u, hu⟩)
  refine ⟨t, ht, ?_, ?_⟩
  · intro k hk
    refine List.count_eq_one_of_mem hledger.nodup ?_
    rw [← hpassed] at hk
    rcases hledger.found k hk with hk' | ⟨p, c, hc, hck⟩
    · exact hk'
    · -- what is left was never passed
      obtain ⟨u, hu⟩ := (g.left_over hpc).mp (by rw [hc]; nofun : dropSlots m _ p ≠ none)
      have hplace : c.place = .pending := by
        unfold dropSlots at hc
        split at hc
        · cases hc
        · rw [hu] at hc
          cases hc
          rfl
      rw [← hck] at hk
      exact absurd hplace ((hledger.handed p c hc).mp hk)
  · intro p
    rw [hheap, g.pending, ← g.left_over hpc]
    simp

theorem destroy_frees_waiting : ∃ s t, Lts.exec next (initial 1) [.addTimer 1 5 2, .newTimer 2 7 0] = some s ∧
    destroy s = .ok t ∧ t.deleted.count 0 = 1 ∧ t.heap 2 ≠ none := by
  have hrun : ((Lts.exec next (initial 1) [.addTimer 1 5 2, .newTimer 2 7 0]).map fun s => (s.pc, s.passed, s.pending)) =
      some (.idle, [0], [2]) := by decide +kernel
  obtain ⟨s, hs, hp⟩ := Option.map_eq_some_iff.mp hrun
  rw [Prod.mk.injEq, Prod.mk.injEq] at hp
  obtain ⟨hpc, hpassed, hpending⟩ := hp
  obtain ⟨t, ht, hcount, hleft⟩ := destroy_frees (reachable_of_exec trivial hs) hpc
  refine ⟨s, t, hs, ht, hcount 0 ?_, (hleft 2).mpr ?_⟩
  · rw [hpassed]
    exact List.mem_cons_self
  · rw [hpending]
    exact List.mem_cons_self

end MyLearning.TimerQueue
