import MyLearning.MyMuduo.EventLoopWakeup

/-!
# The first poll

The test in `queueInLoop` asks who calls and whether functors are running. Before `loop()` neither makes
the owner wake itself, and what it has queued then waits for the first poll to return. The poll
returns at once if another thread has queued a functor too, the owner has called `quit()`, or any
thread has called `wakeup()`.
-/

namespace MyLearning.EventLoop

variable {T F C : Type}

def Phase.untilPoll : Phase F C → Bool
  | init | entered | test | poll | exited => true
  | dispatch _ | handling .. | swapping | running _ | inFunctor .. => false

def Promised (threadId : T) (s : State T F C) : Prop := 0 < s.wakeupFd ∨ ∃ th ≠ threadId, s.call th = .queueing

variable [DecidableEq T] (threadId : T)

def Act.pushes : Act T F C → Bool
  | queueInLoop .. => true
  | runInLoop th _ => th ≠ threadId
  | _ => false

/-- Another thread pushes a functor, the owner ends a call of `quit()`, or any thread calls `wakeup()`. -/
def Act.rouses : Act T F C → Bool
  | queueInLoop th _ | runInLoop th _ => th ≠ threadId
  | endQuit th => th = threadId
  | wakeup _ => true
  | _ => false

/-- What the calls made so far have left behind before the first poll returns. -/
structure Early (tr : List (Act T F C)) (s : State T F C) : Prop where
  phase : s.phase.untilPoll = true
  calling : s.callingPendingFunctors = false
  pending : s.pendingFunctors ≠ [] ↔ ∃ a ∈ tr, a.pushes threadId = true
  promised : Promised threadId s ↔ ∃ a ∈ tr, a.rouses threadId = true

variable {threadId} {tr : List (Act T F C)} {s t : State T F C} {a : Act T F C}

theorem Early.snoc (g : Early threadId tr s) (phase : t.phase.untilPoll = true)
    (calling : t.callingPendingFunctors = s.callingPendingFunctors)
    (pending : t.pendingFunctors ≠ [] ↔ s.pendingFunctors ≠ [] ∨ a.pushes threadId = true)
    (promised : Promised threadId t ↔ Promised threadId s ∨ a.rouses threadId = true) :
    Early threadId (tr ++ [a]) t where
  phase := phase
  calling := calling.trans g.calling
  pending := by
    rw [pending, g.pending]
    simp [or_and_right, exists_or]
  promised := by
    rw [promised, g.promised]
    simp [or_and_right, exists_or]

theorem Early.move (g : Early threadId tr s) (phase : t.phase.untilPoll = true)
    (calling : t.callingPendingFunctors = s.callingPendingFunctors)
    (pending : t.pendingFunctors = s.pendingFunctors) (fd : t.wakeupFd = s.wakeupFd) (call : t.call = s.call)
    (pushes : a.pushes threadId = false) (rouses : a.rouses threadId = false) : Early threadId (tr ++ [a]) t := by
  refine g.snoc phase calling ?_ ?_
  · rw [pending, pushes]
    simp
  · rw [Promised, fd, call, rouses]
    simp [Promised]

/-! ## Calls -/

theorem promised_setCall {th : T} {c : Call} (fd : t.wakeupFd = s.wakeupFd) (call : t.call = s.call)
    (hno : th ≠ threadId → s.call th ≠ .queueing) :
    Promised threadId (setCall t th c) ↔ Promised threadId s ∨ th ≠ threadId ∧ c = .queueing := by
  have hcall : (setCall t th c).call = Function.update s.call th c := by rw [setCall, call]
  have hfd : (setCall t th c).wakeupFd = s.wakeupFd := fd
  unfold Promised
  rw [hfd, hcall]
  constructor
  · intro h
    rcases h with h | ⟨th', hth', h⟩
    · exact .inl (.inl h)
    · by_cases he : th' = th
      · subst he
        rw [Function.update_self] at h
        exact .inr ⟨hth', h⟩
      · rw [Function.update_of_ne he] at h
        exact .inl (.inr ⟨th', hth', h⟩)
  · intro h
    rcases h with (h | ⟨th', hth', h⟩) | ⟨hth, hc⟩
    · exact .inl h
    · have he : th' ≠ th := by
        intro he
        subst he
        exact hno hth' h
      exact .inr ⟨th', hth', by rw [Function.update_of_ne he]; exact h⟩
    · exact .inr ⟨th, hth, by rw [Function.update_self]; exact hc⟩

theorem Early.push {th : T} {cb : F} (g : Early threadId tr s) (hc : CanCall threadId s th)
    (pushes : a.pushes threadId = true) (rouses : a.rouses threadId = true ↔ th ≠ threadId) :
    Early threadId (tr ++ [a]) (EventLoop.setCall (EventLoop.push s cb) th .queueing) := by
  have hidle : s.call th ≠ .queueing := by
    rw [hc.1]
    nofun
  refine g.snoc g.phase rfl ?_ ?_
  · simp [EventLoop.setCall, EventLoop.push, pushes]
  · rw [promised_setCall (s := s) (t := EventLoop.push s cb) rfl rfl fun _ => hidle, rouses]
    simp

theorem Early.endQueueInLoop {th : T} (g : Early threadId tr s) (hq : s.call th = .queueing) :
    Early threadId (tr ++ [.endQueueInLoop th]) (EventLoop.setCall (wakeupAfterPush threadId s th) th .idle) := by
  have hcalling := g.calling
  unfold wakeupAfterPush
  by_cases hth : th = threadId
  · rw [if_neg (by simp [hth, hcalling])]
    refine g.snoc g.phase rfl (by simp [EventLoop.setCall, Act.pushes]) ?_
    rw [promised_setCall (s := s) rfl rfl fun hne => absurd hth hne]
    simp [Act.rouses]
  · rw [if_pos (.inl hth)]
    refine g.snoc g.phase rfl (by simp [EventLoop.setCall, wakeup, Act.pushes]) ?_
    exact iff_of_true (.inl (wakeup_pos s)) (.inl (.inr ⟨th, hth, hq⟩))

theorem Early.quit {th : T} (g : Early threadId tr s) (hc : CanCall threadId s th) :
    Early threadId (tr ++ [.quit th]) (EventLoop.setCall { s with quit := true } th .quitting) := by
  have hidle : s.call th ≠ .queueing := by
    rw [hc.1]
    nofun
  refine g.snoc g.phase rfl (by simp [EventLoop.setCall, Act.pushes]) ?_
  rw [promised_setCall (s := s) (t := { s with quit := true }) rfl rfl fun _ => hidle]
  simp [Act.rouses]

theorem Early.endQuit {th : T} (g : Early threadId tr s) (hq : s.call th = .quitting) :
    Early threadId (tr ++ [.endQuit th])
      (EventLoop.setCall { wakeupAfterQuit threadId s th with quitDone := s.quitDone ++ [th] } th .idle) := by
  have hno : s.call th ≠ .queueing := by
    rw [hq]
    nofun
  unfold wakeupAfterQuit
  by_cases hth : th = threadId
  · rw [if_pos hth]
    refine g.snoc g.phase rfl (by simp [EventLoop.setCall, wakeup, Act.pushes]) ?_
    exact iff_of_true (.inl (wakeup_pos s)) (.inr (by simp [Act.rouses, hth]))
  · rw [if_neg hth]
    refine g.snoc g.phase rfl (by simp [EventLoop.setCall, Act.pushes]) ?_
    rw [promised_setCall (s := s) (t := { s with quitDone := s.quitDone ++ [th] }) rfl rfl fun _ => hno]
    simp [Act.rouses, hth]

/-! ## Runs -/

theorem Effect.early (h : Effect threadId s a t) (g : s.iteration = 0 → Early threadId tr s) (ht : t.iteration = 0) :
    Early threadId (tr ++ [a]) t := by
  cases h with
  | queueInLoop hc => exact (g ht).push hc rfl (by simp [Act.rouses])
  | runInLoop hc hne => exact (g ht).push hc (by simpa [Act.pushes] using hne) (by simp [Act.rouses])
  | runHere _ he => exact (g ht).move (g ht).phase rfl rfl rfl rfl (by simp [Act.pushes, he]) (by simp [Act.rouses, he])
  | @endQueueInLoop th hq =>
    obtain ⟨n, -, hw⟩ := wakeupAfterPush_eq threadId s th
    rw [hw] at ht
    exact (g ht).endQueueInLoop hq
  | quit hc => exact (g ht).quit hc
  | wakeup _ =>
    refine (g ht).snoc (g ht).phase rfl (by simp [EventLoop.wakeup, Act.pushes]) ?_
    exact iff_of_true (.inl (wakeup_pos s)) (.inr rfl)
  | @endQuit th hq =>
    obtain ⟨n, -, hw⟩ := wakeupAfterQuit_eq threadId s th
    rw [hw] at ht
    exact (g ht).endQuit hq
  | loop _ _ | clearQuit _ | exit _ _ | again _ _ => exact (g ht).move rfl rfl rfl rfl rfl rfl rfl
  | poll _ _ => cases ht
  | handleRead hp | handleEvent hp | endHandle hp _ | doPendingFunctors hp | swap hp | runFunctor hp
  | endFunctor hp _ | endRound hp =>
    -- the first poll has returned
    have hphase := (g ht).phase
    rw [hp] at hphase
    cases hphase

theorem early_of_run (h : (lts threadId).Run initial tr s) (hi : s.iteration = 0) : Early threadId tr s := by
  have hrun := h.invariant_labels (I := fun tr s => s.iteration = 0 → Early threadId tr s)
    (fun _ _ _ _ g hs => (step_effect hs).early g) []
  refine hrun ?_ hi
  intro _
  exact ⟨rfl, rfl, by simp [initial], by simp [Promised, initial]⟩

/-- **The first poll.** When `loop()` is in its first poll, pending functors come with a wakeup that is there or
about to be written, if and only if the owner has queued none, or another thread has queued one, or the owner
has called `quit()`, or any thread `wakeup()`. -/
theorem first_poll_iff (h : (lts threadId).Run initial tr s) (_ : s.phase = .poll) (hi : s.iteration = 0) :
    (s.pendingFunctors ≠ [] → 0 < s.wakeupFd ∨ ∃ th ≠ threadId, s.call th = .queueing) ↔
      ((∃ cb, .queueInLoop threadId cb ∈ tr) → ∃ a ∈ tr, a.rouses threadId = true) := by
  have g := early_of_run h hi
  change (_ → Promised threadId s) ↔ _
  rw [g.pending, g.promised]
  constructor
  · intro hall hown
    obtain ⟨cb, hcb⟩ := hown
    exact hall ⟨_, hcb, rfl⟩
  · intro hown hpush
    obtain ⟨a, ha, hpushes⟩ := hpush
    by_cases hrouses : a.rouses threadId = true
    · exact ⟨a, ha, hrouses⟩
    · cases a with
      | queueInLoop th cb =>
        have hth : th = threadId := by simpa [Act.rouses] using hrouses
        subst hth
        exact hown ⟨cb, ha⟩
      | runInLoop th cb => exact absurd hpushes hrouses
      | _ => cases hpushes

/-- The owner queues a functor, and another thread queues one too. -/
theorem first_poll_roused : ∃ (tr : List (Act Bool Nat Unit)) (s : State Bool Nat Unit),
    (lts true).Run initial tr s ∧ s.phase = .poll ∧ s.pendingFunctors = [7, 8] ∧
      (0 < s.wakeupFd ∨ ∃ th ≠ true, s.call th = .queueing) := by
  let tr : List (Act Bool Nat Unit) :=
    [.queueInLoop true 7, .endQueueInLoop true, .loop, .clearQuit, .queueInLoop false 8, .test]
  have hrun : ∃ s, (lts true).Run initial tr s ∧ s.phase = .poll ∧ s.iteration = 0 ∧ s.pendingFunctors = [7, 8] :=
    ⟨_, Lts.run_of_exec (fun _ _ _ h => h) (f := step true) rfl, rfl, rfl, rfl⟩
  obtain ⟨s, hr, hp, hi, hpending⟩ := hrun
  have hroused := (first_poll_iff hr hp hi).mpr fun _ => ⟨.queueInLoop false 8, by simp [tr], rfl⟩
  exact ⟨tr, s, hr, hp, hpending, hroused (by simp [hpending])⟩

/-- The owner alone queues a functor, as `Connector::start` does, and calls `loop()`. -/
theorem first_poll_unroused : ∃ (tr : List (Act Bool Nat Unit)) (s : State Bool Nat Unit),
    (lts true).Run initial tr s ∧ s.phase = .poll ∧ s.iteration = 0 ∧
      ¬ (s.pendingFunctors ≠ [] → 0 < s.wakeupFd ∨ ∃ th ≠ true, s.call th = .queueing) := by
  let tr : List (Act Bool Nat Unit) := [.queueInLoop true 7, .endQueueInLoop true, .loop, .clearQuit, .test]
  have hrun : ∃ s, (lts true).Run initial tr s ∧ s.phase = .poll ∧ s.iteration = 0 ∧ s.pendingFunctors = [7] ∧
      s.wakeupFd = 0 ∧ s.call false = .idle :=
    ⟨_, Lts.run_of_exec (fun _ _ _ h => h) (f := step true) rfl, rfl, rfl, rfl, rfl, rfl⟩
  obtain ⟨s, hr, hp, hi, hpending, hfd, hcall⟩ := hrun
  refine ⟨tr, s, hr, hp, hi, ?_⟩
  intro h
  rcases h (by simp [hpending]) with hpos | ⟨th, hth, hq⟩
  · rw [hfd] at hpos
    cases hpos
  · cases th with
    | true => exact hth rfl
    | false => rw [hcall] at hq; cases hq

end MyLearning.EventLoop
