import MyLearning.MyMuduo.EventLoop

/-!
# What one step of the event loop does

`Effect` lists, action by action, when a step can happen and the state it leads to.
`step_effect` is the inversion of `step`; properties of runs are proved by cases on
the effect.
-/

namespace MyLearning.EventLoop

variable {T F C : Type}

/-! ## The wakeup counter -/

theorem le_wakeup (s : State T F C) : s.wakeupFd ≤ (wakeup s).wakeupFd := by
  simp only [wakeup]
  split <;> omega

theorem wakeup_eq (s : State T F C) : ∃ n, s.wakeupFd ≤ n ∧ wakeup s = { s with wakeupFd := n } :=
  ⟨_, le_wakeup s, rfl⟩

variable [DecidableEq T] {threadId : T}

theorem wakeupAfterPush_eq (threadId : T) (s : State T F C) (th : T) :
    ∃ n, s.wakeupFd ≤ n ∧ wakeupAfterPush threadId s th = { s with wakeupFd := n } := by
  unfold wakeupAfterPush
  split
  · exact wakeup_eq s
  · exact ⟨_, le_refl _, rfl⟩

theorem wakeupAfterQuit_eq (threadId : T) (s : State T F C) (th : T) :
    ∃ n, s.wakeupFd ≤ n ∧ wakeupAfterQuit threadId s th = { s with wakeupFd := n } := by
  unfold wakeupAfterQuit
  split
  · exact wakeup_eq s
  · exact ⟨_, le_refl _, rfl⟩

/-! ## Effects -/

def CanCall (threadId : T) (s : State T F C) (th : T) : Prop :=
  s.call th = .idle ∧ (th = threadId → s.phase.inUser = true)

inductive Effect (threadId : T) : State T F C → Act T F C → State T F C → Prop
  | queueInLoop {s th cb} : CanCall threadId s th →
      Effect threadId s (.queueInLoop th cb) (setCall (push s cb) th .queueing)
  | endQueueInLoop {s th} : s.call th = .queueing →
      Effect threadId s (.endQueueInLoop th) (setCall (wakeupAfterPush threadId s th) th .idle)
  | runHere {s th cb} : CanCall threadId s th → th = threadId → Effect threadId s (.runInLoop th cb) s
  | runInLoop {s th cb} : CanCall threadId s th → th ≠ threadId →
      Effect threadId s (.runInLoop th cb) (setCall (push s cb) th .queueing)
  | quit {s th} : CanCall threadId s th →
      Effect threadId s (.quit th) (setCall { s with quit := true } th .quitting)
  | endQuit {s th} : s.call th = .quitting →
      Effect threadId s (.endQuit th)
        (setCall { wakeupAfterQuit threadId s th with quitDone := s.quitDone ++ [th] } th .idle)
  | wakeup {s th} : CanCall threadId s th → Effect threadId s (.wakeup th) (wakeup s)
  | loop {s} : s.phase = .init → s.call threadId = .idle →
      Effect threadId s .loop { s with looping := true, phase := .entered }
  | clearQuit {s} : s.phase = .entered → Effect threadId s .clearQuit { s with quit := false, phase := .test }
  | exit {s} : s.phase = .test → s.quit = true →
      Effect threadId s .test { s with looping := false, phase := .exited }
  | again {s} : s.phase = .test → s.quit = false →
      Effect threadId s .test { s with activeChannel := [], phase := .poll }
  | poll {s active} : s.phase = .poll → (active.any Ready.isWakeup = true → 0 < s.wakeupFd) →
      Effect threadId s (.poll active)
        { s with
          activeChannel := active, iteration := s.iteration + 1, eventHandling := true, phase := .dispatch active }
  | handleRead {s todo} : s.phase = .dispatch (.wakeup :: todo) →
      Effect threadId s .handleEvent
        { handleRead s with currentActivceChannel := some .wakeup, phase := .dispatch todo }
  | handleEvent {s c todo} : s.phase = .dispatch (.channel c :: todo) →
      Effect threadId s .handleEvent { s with currentActivceChannel := some (.channel c), phase := .handling c todo }
  | endHandle {s c todo} : s.phase = .handling c todo → s.call threadId = .idle →
      Effect threadId s .endHandle { s with phase := .dispatch todo }
  | doPendingFunctors {s} : s.phase = .dispatch [] →
      Effect threadId s .doPendingFunctors
        { s with
          currentActivceChannel := none, eventHandling := false, callingPendingFunctors := true
          phase := .swapping }
  | swap {s} : s.phase = .swapping →
      Effect threadId s .swap { s with pendingFunctors := [], phase := .running s.pendingFunctors }
  | runFunctor {s f rest} : s.phase = .running (f :: rest) →
      Effect threadId s .runFunctor { s with executed := s.executed ++ [f], phase := .inFunctor f rest }
  | endFunctor {s f rest} : s.phase = .inFunctor f rest → s.call threadId = .idle →
      Effect threadId s .endFunctor { s with phase := .running rest }
  | endRound {s} : s.phase = .running [] →
      Effect threadId s .endRound { s with callingPendingFunctors := false, phase := .test }

/-! ## Inversion -/

theorem canCall_iff {s : State T F C} {th : T} : canCall threadId s th = true ↔ CanCall threadId s th := by
  simp only [canCall, CanCall, Bool.and_eq_true, Bool.or_eq_true, decide_eq_true_eq]
  tauto

theorem step_effect {s t : State T F C} {a : Act T F C} (h : (lts threadId).step s a t) :
    Effect threadId s a t := by
  cases a with
  | queueInLoop th cb =>
    simp only [lts, step, Option.ite_none_right_eq_some, canCall_iff, Option.some.injEq] at h
    obtain ⟨hc, rfl⟩ := h
    exact .queueInLoop hc
  | endQueueInLoop th =>
    simp only [lts, step, Option.ite_none_right_eq_some, Option.some.injEq] at h
    obtain ⟨hc, rfl⟩ := h
    exact .endQueueInLoop hc
  | runInLoop th cb =>
    simp only [lts, step, Option.ite_none_right_eq_some, canCall_iff] at h
    obtain ⟨hc, h⟩ := h
    split at h
    · rename_i he
      cases h
      exact .runHere hc he
    · rename_i hne
      cases h
      exact .runInLoop hc hne
  | quit th =>
    simp only [lts, step, Option.ite_none_right_eq_some, canCall_iff, Option.some.injEq] at h
    obtain ⟨hc, rfl⟩ := h
    exact .quit hc
  | endQuit th =>
    simp only [lts, step, Option.ite_none_right_eq_some, Option.some.injEq] at h
    obtain ⟨hc, rfl⟩ := h
    exact .endQuit hc
  | wakeup th =>
    simp only [lts, step, Option.ite_none_right_eq_some, canCall_iff, Option.some.injEq] at h
    obtain ⟨hc, rfl⟩ := h
    exact .wakeup hc
  | loop =>
    simp only [lts, step] at h
    split at h
    · rename_i hp
      simp only [Option.ite_none_right_eq_some, Option.some.injEq] at h
      obtain ⟨⟨hc, -⟩, rfl⟩ := h
      exact .loop hp hc
    · cases h
  | clearQuit =>
    simp only [lts, step] at h
    split at h
    · rename_i hp
      cases h
      exact .clearQuit hp
    · cases h
  | test =>
    simp only [lts, step] at h
    split at h
    · rename_i hp
      split at h
      · rename_i hq
        cases h
        exact .exit hp hq
      · rename_i hq
        cases h
        exact .again hp (Bool.not_eq_true _ ▸ hq)
    · cases h
  | poll active =>
    simp only [lts, step] at h
    split at h
    · rename_i hp
      simp only [Option.ite_none_right_eq_some, Option.some.injEq] at h
      obtain ⟨hw, rfl⟩ := h
      exact .poll hp hw
    · cases h
  | handleEvent =>
    simp only [lts, step] at h
    split at h
    · rename_i hp
      cases h
      exact .handleRead hp
    · rename_i hp
      cases h
      exact .handleEvent hp
    · cases h
  | endHandle =>
    simp only [lts, step] at h
    split at h
    · rename_i hp
      simp only [Option.ite_none_right_eq_some, Option.some.injEq] at h
      obtain ⟨hc, rfl⟩ := h
      exact .endHandle hp hc
    · cases h
  | doPendingFunctors =>
    simp only [lts, step] at h
    split at h
    · rename_i hp
      cases h
      exact .doPendingFunctors hp
    · cases h
  | swap =>
    simp only [lts, step] at h
    split at h
    · rename_i hp
      cases h
      exact .swap hp
    · cases h
  | runFunctor =>
    simp only [lts, step] at h
    split at h
    · rename_i hp
      cases h
      exact .runFunctor hp
    · cases h
  | endFunctor =>
    simp only [lts, step] at h
    split at h
    · rename_i hp
      simp only [Option.ite_none_right_eq_some, Option.some.injEq] at h
      obtain ⟨hc, rfl⟩ := h
      exact .endFunctor hp hc
    · cases h
  | endRound =>
    simp only [lts, step] at h
    split at h
    · rename_i hp
      cases h
      exact .endRound hp
    · cases h

end MyLearning.EventLoop
