import MyLearning.MyMuduo.EventLoopEffect

/-!
# Rounds of functors

`doPendingFunctors` takes all pending functors at once and runs them from its local
vector, so what is pushed meanwhile waits for the next round.
-/

namespace MyLearning.EventLoop

variable {T F C : Type} [DecidableEq T] {threadId : T}

def Act.isRunFunctor : Act T F C → Bool
  | runFunctor => true
  | _ => false

/-- The functor that a call pushes. In the loop thread `runInLoop` pushes none. -/
def Act.cbs (threadId : T) : Act T F C → List F
  | queueInLoop _ cb => [cb]
  | runInLoop th cb => if th = threadId then [] else [cb]
  | _ => []

def InOrder (s : State T F C) : Prop := s.executed ++ s.phase.rest ++ s.pendingFunctors = s.pushed

theorem Effect.takes {s t : State T F C} {a : Act T F C} (h : Effect threadId s a t) (ha : a ≠ .swap) :
    ∃ l, t.executed = s.executed ++ l ∧ s.phase.rest = l ++ t.phase.rest ∧
      l.length = [a].countP Act.isRunFunctor := by
  cases h with
  | swap _ => exact absurd rfl ha
  | @runFunctor f _ hp => exact ⟨[f], rfl, by rw [hp]; rfl, rfl⟩
  | queueInLoop | runInLoop | runHere | quit | wakeup => exact ⟨[], (List.append_nil _).symm, rfl, rfl⟩
  | @endQueueInLoop th _ =>
    obtain ⟨n, -, hw⟩ := wakeupAfterPush_eq threadId s th
    rw [hw]
    exact ⟨[], (List.append_nil _).symm, rfl, rfl⟩
  | @endQuit th _ =>
    obtain ⟨n, -, hw⟩ := wakeupAfterQuit_eq threadId s th
    rw [hw]
    exact ⟨[], (List.append_nil _).symm, rfl, rfl⟩
  | loop hp | clearQuit hp | exit hp | again hp | poll hp | handleRead hp | handleEvent hp | endHandle hp
  | doPendingFunctors hp | endFunctor hp | endRound hp =>
    exact ⟨[], (List.append_nil _).symm, by rw [hp]; rfl, rfl⟩

theorem Effect.pushes {s t : State T F C} {a : Act T F C} (h : Effect threadId s a t) :
    t.pushed = s.pushed ++ a.cbs threadId ∧
      (a ≠ .swap → t.pendingFunctors = s.pendingFunctors ++ a.cbs threadId) := by
  cases h with
  | queueInLoop _ => exact ⟨rfl, fun _ => rfl⟩
  | runInLoop _ hne =>
    rw [Act.cbs, if_neg hne]
    exact ⟨rfl, fun _ => rfl⟩
  | runHere _ he =>
    rw [Act.cbs, if_pos he]
    exact ⟨(List.append_nil _).symm, fun _ => (List.append_nil _).symm⟩
  | @endQueueInLoop th _ =>
    obtain ⟨n, -, hw⟩ := wakeupAfterPush_eq threadId s th
    rw [hw]
    exact ⟨(List.append_nil _).symm, fun _ => (List.append_nil _).symm⟩
  | @endQuit th _ =>
    obtain ⟨n, -, hw⟩ := wakeupAfterQuit_eq threadId s th
    rw [hw]
    exact ⟨(List.append_nil _).symm, fun _ => (List.append_nil _).symm⟩
  | swap _ => exact ⟨(List.append_nil _).symm, fun ha => absurd rfl ha⟩
  | _ => exact ⟨(List.append_nil _).symm, fun _ => (List.append_nil _).symm⟩

theorem Effect.inOrder {s t : State T F C} {a : Act T F C} (h : Effect threadId s a t) (g : InOrder s) :
    InOrder t := by
  unfold InOrder at g ⊢
  by_cases ha : a = .swap
  · subst ha
    cases h with
    | swap hp =>
      rw [hp] at g
      simpa [Phase.rest] using g
  · obtain ⟨l, he, hr, -⟩ := h.takes ha
    rw [he, h.pushes.2 ha, h.pushes.1, ← g, hr]
    simp only [List.append_assoc]

theorem reachable_inOrder {s : State T F C} (h : (lts threadId).Reachable s) : InOrder s :=
  h.invariant_from (by rfl) (fun _ _ _ g hs => (step_effect hs).inOrder g) fun _ h => h

theorem queueSize_eq {s : State T F C} (h : (lts threadId).Reachable s) :
    s.executed.length + s.phase.rest.length + queueSize s = s.pushed.length := by
  rw [← reachable_inOrder h, List.length_append, List.length_append]
  rfl

theorem run_takes {s t : State T F C} {tr : List (Act T F C)} (h : (lts threadId).Run s tr t)
    (hno : .swap ∉ tr) : ∃ l, t.executed = s.executed ++ l ∧ s.phase.rest = l ++ t.phase.rest ∧
      l.length = tr.countP Act.isRunFunctor := by
  induction h with
  | nil s => exact ⟨[], (List.append_nil _).symm, rfl, rfl⟩
  | cons hs _ ih =>
    rw [List.mem_cons, not_or] at hno
    obtain ⟨l₁, he₁, hr₁, hn₁⟩ := (step_effect hs).takes (Ne.symm hno.1)
    obtain ⟨l₂, he₂, hr₂, hn₂⟩ := ih hno.2
    refine ⟨l₁ ++ l₂, by rw [he₂, he₁, List.append_assoc], by rw [hr₁, hr₂, List.append_assoc], ?_⟩
    rw [List.length_append, hn₁, hn₂, ← List.countP_append]
    rfl

theorem pushed_of_run {s t : State T F C} {tr : List (Act T F C)} (h : (lts threadId).Run s tr t) :
    t.pushed = s.pushed ++ tr.flatMap (Act.cbs threadId) := by
  induction h with
  | nil s => exact (List.append_nil _).symm
  | cons hs _ ih =>
    rw [ih, (step_effect hs).pushes.1, List.flatMap_cons, List.append_assoc]

/-- In every reachable state the functors started, the rest of the local vector and
the pending functors are **the functors pushed, in the order they were pushed**, which are
those of the calls of `queueInLoop` and `runInLoop` made so far; and up to the next swap only
functors of that rest are started, each once and in order. -/
theorem functors_in_order {s : State T F C} (h : (lts threadId).Reachable s) :
    s.executed ++ s.phase.rest ++ s.pendingFunctors = s.pushed ∧
    (∀ tr, (lts threadId).Run initial tr s → s.pushed = tr.flatMap (Act.cbs threadId)) ∧
    ∀ tr t, (lts threadId).Run s tr t → .swap ∉ tr →
      ∃ l, l <+: s.phase.rest ∧ t.executed = s.executed ++ l ∧ tr.countP Act.isRunFunctor = l.length := by
  refine ⟨reachable_inOrder h, fun tr hr => pushed_of_run hr, ?_⟩
  intro tr t hr hno
  obtain ⟨l, he, hrest, hn⟩ := run_takes hr hno
  exact ⟨l, ⟨_, hrest.symm⟩, he, hn.symm⟩

theorem functors_in_order_push_in_round : ∃ s : State Bool Nat Unit, s.phase = .inFunctor 1 [] ∧
    s.pendingFunctors = [2] ∧ s.executed ++ s.phase.rest ++ s.pendingFunctors = s.pushed := by
  have hrun : (Lts.exec (step true) (initial : State Bool Nat Unit)
      [.queueInLoop false 1, .endQueueInLoop false, .loop, .clearQuit, .test, .poll [.wakeup], .handleEvent,
        .doPendingFunctors, .swap, .runFunctor, .queueInLoop false 2]).map
          (fun s => (s.phase, s.pendingFunctors)) = some (.inFunctor 1 [], [2]) := by decide +kernel
  obtain ⟨s, hs, h⟩ := Option.map_eq_some_iff.mp hrun
  obtain ⟨hp, hq⟩ := Prod.mk.inj h
  exact ⟨s, hp, hq, (functors_in_order ⟨_, _, rfl, Lts.run_of_exec (fun _ _ _ h => h) hs⟩).1⟩

end MyLearning.EventLoop
