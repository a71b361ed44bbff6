import MyLearning.MyMuduo.EventLoopRounds

/-!
# How soon the loop answers

Behind every poll comes a round of `doPendingFunctors`, which takes what has been pushed before its swap. So a
functor waits for two polls at most; and when `quit_` is up the loop polls once more at most, and the
functors that are pending then run if and only if the loop thread has yet to swap.
-/

namespace MyLearning.EventLoop

variable {T F C : Type}

namespace Phase

def beforeSwap : Phase F C → Bool
  | dispatch _ | handling .. | swapping => true
  | _ => false

def afterSwap : Phase F C → Bool
  | running _ | inFunctor .. | test | exited => true
  | _ => false

/-- The polls to come once `quit_` is up. -/
def polls : Phase F C → Nat
  | poll => 1
  | _ => 0

/-- A swap comes, whatever `quit_` is. -/
def WillSwap (p : Phase F C) : Prop := p = poll ∨ p.beforeSwap = true

end Phase

namespace Act

def isPoll : Act T F C → Bool
  | poll _ => true
  | _ => false

def isLoop : Act T F C → Bool
  | queueInLoop .. | endQueueInLoop _ | runInLoop .. | quit _ | endQuit _ | wakeup _ => false
  | _ => true

def Own (threadId : T) : Act T F C → Prop
  | endQueueInLoop th | endQuit th => th = threadId
  | a => a.isLoop = true

end Act

/-- `quit_` is up, behind the place where `loop()` clears it. -/
structure Ending (s : State T F C) : Prop where
  quit : s.quit = true
  started : s.phase ≠ .init
  cleared : s.phase ≠ .entered

def Taken (l : List F) (s : State T F C) : Prop := l <+: s.executed ++ s.phase.rest

/-- The loop has answered what was pushed in front of `n` polls. -/
def Answered (l : List F) : Nat → State T F C → Prop
  | 0, _ => True
  | 1, s => s.phase.beforeSwap = true ∨ Taken l s
  | _ + 2, s => l <+: s.executed

variable {s t : State T F C}

theorem Ending.cases (e : Ending s) : s.phase.WillSwap ∨ s.phase.afterSwap = true := by
  cases hp : s.phase with
  | init => exact absurd hp e.started
  | entered => exact absurd hp e.cleared
  | poll => exact .inl (.inl rfl)
  | dispatch | handling | swapping => exact .inl (.inr rfl)
  | test | running | inFunctor | exited => exact .inr rfl

variable [DecidableEq T] {threadId : T} {a : Act T F C} {tr : List (Act T F C)} {l : List F}

/-! ## Where the loop thread gets to -/

theorem Effect.calls (h : Effect threadId s a t) :
    (t.phase = s.phase ∧ (s.quit = true → t.quit = true) ∧ a.isPoll = false) ∨ a.isLoop = true := by
  cases h with
  | queueInLoop | runInLoop | runHere | wakeup => exact .inl ⟨rfl, id, rfl⟩
  | quit => exact .inl ⟨rfl, fun _ => rfl, rfl⟩
  | @endQueueInLoop th _ =>
    obtain ⟨n, -, hw⟩ := wakeupAfterPush_eq threadId s th
    rw [hw]
    exact .inl ⟨rfl, id, rfl⟩
  | @endQuit th _ =>
    obtain ⟨n, -, hw⟩ := wakeupAfterQuit_eq threadId s th
    rw [hw]
    exact .inl ⟨rfl, id, rfl⟩
  | _ => exact .inr rfl

theorem Effect.beforeSwap (h : Effect threadId s a t) (ha : a ≠ .swap) (hs : s.phase.beforeSwap = true) :
    t.phase.beforeSwap = true := by
  rcases h.calls with ⟨hp, -, -⟩ | hl
  · rwa [hp]
  · cases h with
    | swap => exact absurd rfl ha
    | poll | handleRead | handleEvent | endHandle | doPendingFunctors => rfl
    | loop hp | clearQuit hp | exit hp | again hp | runFunctor hp | endFunctor hp | endRound hp =>
      rw [hp] at hs
      cases hs
    | queueInLoop | endQueueInLoop | runInLoop | runHere | quit | endQuit | wakeup => cases hl

theorem Effect.willSwap (h : Effect threadId s a t) (ha : a ≠ .swap) (hs : s.phase.WillSwap) : t.phase.WillSwap := by
  rcases hs with hs | hs
  · rcases h.calls with ⟨hp, -, -⟩ | hl
    · exact .inl (hp.trans hs)
    · cases h with
      | poll => exact .inr rfl
      | loop hp | clearQuit hp | exit hp | again hp | handleRead hp | handleEvent hp | endHandle hp
      | doPendingFunctors hp | swap hp | runFunctor hp | endFunctor hp | endRound hp =>
        rw [hp] at hs
        cases hs
      | queueInLoop | endQueueInLoop | runInLoop | runHere | quit | endQuit | wakeup => cases hl
  · exact .inr (h.beforeSwap ha hs)

theorem Effect.ending (h : Effect threadId s a t) (e : Ending s) :
    Ending t ∧ [a].countP Act.isPoll + t.phase.polls = s.phase.polls := by
  rcases h.calls with ⟨hp, hq, hn⟩ | hl
  · refine ⟨⟨hq e.quit, hp ▸ e.started, hp ▸ e.cleared⟩, ?_⟩
    rw [hp, List.countP_singleton, hn]
    exact Nat.zero_add _
  · cases h with
    | loop hp => exact absurd hp e.started
    | clearQuit hp => exact absurd hp e.cleared
    | again _ hq =>
      rw [e.quit] at hq
      cases hq
    | exit hp | poll hp | handleRead hp | handleEvent hp | endHandle hp | doPendingFunctors hp | swap hp | runFunctor hp
    | endFunctor hp | endRound hp =>
      rw [hp]
      exact ⟨⟨e.quit, by simp, by simp⟩, rfl⟩
    | queueInLoop | endQueueInLoop | runInLoop | runHere | quit | endQuit | wakeup => cases hl

theorem Effect.afterSwap (h : Effect threadId s a t) (e : Ending s) (hs : s.phase.afterSwap = true) :
    t.phase.afterSwap = true := by
  rcases h.calls with ⟨hp, -, -⟩ | hl
  · rwa [hp]
  · cases h with
    | exit | runFunctor | endFunctor | endRound => rfl
    | again _ hq =>
      rw [e.quit] at hq
      cases hq
    | loop hp | clearQuit hp | poll hp | handleRead hp | handleEvent hp | endHandle hp | doPendingFunctors hp | swap hp =>
      rw [hp] at hs
      cases hs
    | queueInLoop | endQueueInLoop | runInLoop | runHere | quit | endQuit | wakeup => cases hl

/-! ## What the round takes -/

theorem Effect.pushed_prefix (h : Effect threadId s a t) : s.pushed <+: t.pushed := by
  rw [h.pushes.1]
  exact List.prefix_append _ _

theorem Effect.executed_prefix (h : Effect threadId s a t) : s.executed <+: t.executed := by
  by_cases ha : a = .swap
  · subst ha
    cases h with
    | swap => exact List.prefix_refl _
  · obtain ⟨l, hl, -⟩ := h.takes ha
    exact ⟨l, hl.symm⟩

theorem Effect.taken (h : Effect threadId s a t) (ha : a ≠ .swap) (g : Taken l s) : Taken l t := by
  obtain ⟨m, he, hr, -⟩ := h.takes ha
  unfold Taken at g ⊢
  rwa [he, List.append_assoc, ← hr]

theorem Effect.swaps (h : Effect threadId s .swap t) (o : InOrder s) (hl : l <+: s.pushed) : Taken l t := by
  cases h with
  | swap hp =>
    unfold InOrder at o
    rw [hp] at o
    have all : s.executed ++ s.pendingFunctors = s.pushed := by simpa [Phase.rest] using o
    show l <+: s.executed ++ s.pendingFunctors
    rwa [all]

theorem Effect.answered (h : Effect threadId s a t) (o : InOrder s) (hl : l <+: s.pushed) {n : Nat}
    (g : Answered l n s) : Answered l (n + [a].countP Act.isPoll) t := by
  cases hpoll : a.isPoll with
  | true =>
    rw [List.countP_singleton, hpoll, if_pos rfl]
    cases h with
    | poll hp =>
      match n, g with
      | 0, _ => exact .inl rfl
      | 1, g =>
        rcases g with hb | ht
        · rw [hp] at hb
          cases hb
        · unfold Taken at ht
          rwa [hp, show s.executed ++ (Phase.poll : Phase F C).rest = s.executed from List.append_nil _] at ht
      | _ + 2, g => exact g
    | _ => cases hpoll
  | false =>
    rw [List.countP_singleton, hpoll, if_neg (by decide), Nat.add_zero]
    match n, g with
    | 0, _ => trivial
    | 1, g =>
      by_cases ha : a = .swap
      · subst ha
        exact .inr (h.swaps o hl)
      · exact g.imp (h.beforeSwap ha) (h.taken ha)
    | _ + 2, g => exact g.trans h.executed_prefix

theorem run_answered (hr : (lts threadId).Run s tr t) : ∀ n, InOrder s → l <+: s.pushed → Answered l n s →
    Answered l (n + tr.countP Act.isPoll) t := by
  induction hr with
  | nil => exact fun n _ _ g => g
  | @cons s a t tr u hs _ ih =>
    intro n o hl g
    have h := step_effect hs
    have hrest := ih _ (h.inOrder o) (hl.trans h.pushed_prefix) (h.answered o hl g)
    rwa [Nat.add_assoc, ← List.countP_append] at hrest

theorem run_pushed (hr : (lts threadId).Run s tr t) (o : InOrder s) (hn : 2 ≤ tr.countP Act.isPoll) :
    s.pushed <+: t.executed := by
  have g := run_answered hr 0 o (List.prefix_refl _) trivial
  obtain ⟨k, hk⟩ := Nat.exists_eq_add_of_le' hn
  rwa [Nat.zero_add, hk] at g

theorem run_polls (hr : (lts threadId).Run s tr t) : Ending s →
    Ending t ∧ tr.countP Act.isPoll + t.phase.polls = s.phase.polls := by
  induction hr with
  | nil s => exact fun e => ⟨e, Nat.zero_add _⟩
  | @cons s a t tr u hs _ ih =>
    intro e
    obtain ⟨e', hn⟩ := (step_effect hs).ending e
    obtain ⟨e'', hm⟩ := ih e'
    refine ⟨e'', ?_⟩
    rw [← List.singleton_append, List.countP_append]
    omega

theorem run_willSwap (hr : (lts threadId).Run s tr t) (o : InOrder s) (hs : s.phase.WillSwap) :
    t.phase.WillSwap ∨ Taken s.pushed t := by
  have inv := hr.invariant
    (I := fun u => InOrder u ∧ s.pushed <+: u.pushed ∧ (u.phase.WillSwap ∨ Taken s.pushed u)) ?_
    ⟨o, List.prefix_refl _, .inl hs⟩
  · exact inv.2.2
  · intro u a v ⟨o, hl, g⟩ hs
    have h := step_effect hs
    refine ⟨h.inOrder o, hl.trans h.pushed_prefix, ?_⟩
    -- the swap takes all that was pushed, and what is pushed behind it stays
    by_cases ha : a = .swap
    · subst ha
      exact .inr (h.swaps o hl)
    · exact g.imp (h.willSwap ha) (h.taken ha)

theorem run_afterSwap (hr : (lts threadId).Run s tr t) (e : Ending s) (hs : s.phase.afterSwap = true) :
    t.executed ++ t.phase.rest = s.executed ++ s.phase.rest := by
  have inv := hr.invariant
    (I := fun u => Ending u ∧ u.phase.afterSwap = true ∧ u.executed ++ u.phase.rest = s.executed ++ s.phase.rest) ?_
    ⟨e, hs, rfl⟩
  · exact inv.2.2
  · intro u a v ⟨e, hs, g⟩ hstep
    have h := step_effect hstep
    have ha : a ≠ .swap := by
      rintro rfl
      cases h with
      | swap hp =>
        rw [hp] at hs
        cases hs
    obtain ⟨m, he, hr, -⟩ := h.takes ha
    refine ⟨(h.ending e).1, h.afterSwap e hs, ?_⟩
    rw [he, List.append_assoc, ← hr, g]

/-! ## The loop thread alone -/

/-- The steps of the loop thread alone lead to its next while test. -/
def Turns (threadId : T) (s : State T F C) : Prop :=
  ∃ tr t, (lts threadId).Run s tr t ∧ (∀ a ∈ tr, a.Own threadId) ∧ t.phase = .test ∧ t.quit = s.quit

theorem Turns.step (h : Turns threadId t) (hs : (lts threadId).step s a t) (ha : a.Own threadId)
    (hq : t.quit = s.quit) : Turns threadId s := by
  obtain ⟨tr, u, hr, hown, hu, hu'⟩ := h
  exact ⟨a :: tr, u, .cons hs hr, List.forall_mem_cons.mpr ⟨ha, hown⟩, hu, hu'.trans hq⟩

theorem turns_of_idle
    (h : ∀ u : State T F C, u.phase = s.phase → u.call threadId = .idle → Turns threadId u) : Turns threadId s := by
  have idle : ∀ u : State T F C, (setCall u threadId .idle).call threadId = .idle := fun u => Function.update_self ..
  cases hc : s.call threadId with
  | idle => exact h s rfl hc
  | queueing =>
    obtain ⟨n, -, hw⟩ := wakeupAfterPush_eq threadId s threadId
    have hs : (lts threadId).step s (.endQueueInLoop threadId) (setCall (wakeupAfterPush threadId s threadId) threadId .idle) :=
      if_pos hc
    rw [hw] at hs
    refine Turns.step ?_ hs rfl rfl
    exact h _ rfl (idle _)
  | quitting =>
    obtain ⟨n, -, hw⟩ := wakeupAfterQuit_eq threadId s threadId
    have hs : (lts threadId).step s (.endQuit threadId)
        (setCall { wakeupAfterQuit threadId s threadId with quitDone := s.quitDone ++ [threadId] } threadId .idle) :=
      if_pos hc
    rw [hw] at hs
    refine Turns.step ?_ hs rfl rfl
    exact h _ rfl (idle _)

theorem turns_inFunctor {f : F} {rest : List F} (h : ∀ u : State T F C, u.phase = .running rest → Turns threadId u)
    (hp : s.phase = .inFunctor f rest) : Turns threadId s := by
  refine turns_of_idle ?_
  intro u hu hc
  have hs : (lts threadId).step u .endFunctor { u with phase := .running rest } := by
    simp only [lts, step, hu.trans hp, hc, if_true]
  exact (h _ rfl).step hs rfl rfl

theorem turns_running {rest : List F} : ∀ {s : State T F C}, s.phase = .running rest → Turns threadId s := by
  induction rest with
  | nil =>
    intro s hp
    have hs : (lts threadId).step s .endRound { s with callingPendingFunctors := false, phase := .test } := by
      simp only [lts, step, hp]
    exact ⟨_, _, .single hs, by simp [Act.Own, Act.isLoop], rfl, rfl⟩
  | cons f rest ih =>
    intro s hp
    have hs : (lts threadId).step s .runFunctor { s with executed := s.executed ++ [f], phase := .inFunctor f rest } := by
      simp only [lts, step, hp]
    exact (turns_inFunctor (fun _ => ih) rfl).step hs rfl rfl

theorem turns_swapping (hp : s.phase = .swapping) : Turns threadId s := by
  have hs : (lts threadId).step s .swap { s with pendingFunctors := [], phase := .running s.pendingFunctors } := by
    simp only [lts, step, hp]
  exact (turns_running rfl).step hs rfl rfl

theorem turns_handling {c : C} {todo : List (Ready C)}
    (h : ∀ u : State T F C, u.phase = .dispatch todo → Turns threadId u) (hp : s.phase = .handling c todo) :
    Turns threadId s := by
  refine turns_of_idle ?_
  intro u hu hc
  have hs : (lts threadId).step u .endHandle { u with phase := .dispatch todo } := by
    simp only [lts, step, hu.trans hp, hc, if_true]
  exact (h _ rfl).step hs rfl rfl

theorem turns_dispatch {todo : List (Ready C)} : ∀ {s : State T F C}, s.phase = .dispatch todo → Turns threadId s := by
  induction todo with
  | nil =>
    intro s hp
    have hs : (lts threadId).step s .doPendingFunctors
        { s with
          currentActivceChannel := none, eventHandling := false, callingPendingFunctors := true
          phase := .swapping } := by
      simp only [lts, step, hp]
    exact (turns_swapping rfl).step hs rfl rfl
  | cons r todo ih =>
    intro s hp
    cases r with
    | wakeup =>
      have hs : (lts threadId).step s .handleEvent
          { handleRead s with currentActivceChannel := some .wakeup, phase := .dispatch todo } := by
        simp only [lts, step, hp]
      exact (ih rfl).step hs rfl rfl
    | channel c =>
      have hs : (lts threadId).step s .handleEvent
          { s with currentActivceChannel := some (.channel c), phase := .handling c todo } := by
        simp only [lts, step, hp]
      exact (turns_handling (fun _ => ih) rfl).step hs rfl rfl

theorem Phase.WillSwap.turns (h : s.phase.WillSwap) : Turns threadId s := by
  rcases h with hp | hb
  · -- the poll returns without an event, when its time is over at the latest
    have hs : (lts threadId).step s (.poll [])
        { s with activeChannel := [], iteration := s.iteration + 1, eventHandling := true, phase := .dispatch [] } := by
      simp [lts, step, hp]
    exact (turns_dispatch rfl).step hs rfl rfl
  · cases hp : s.phase with
    | dispatch todo => exact turns_dispatch hp
    | handling c todo => exact turns_handling (fun _ => turns_dispatch) hp
    | swapping => exact turns_swapping hp
    | init | entered | test | poll | running | inFunctor | exited =>
      rw [hp] at hb
      cases hb

def Ends (threadId : T) (s : State T F C) : Prop :=
  ∃ tr t, (lts threadId).Run s tr t ∧ (∀ a ∈ tr, a.Own threadId) ∧ t.phase = .exited

theorem Turns.ends (h : Turns threadId s) (hq : s.quit = true) : Ends threadId s := by
  obtain ⟨tr, t, hr, hown, hp, hqt⟩ := h
  have hs : (lts threadId).step t .test { t with looping := false, phase := .exited } := by
    simp only [lts, EventLoop.step, hp, hqt.trans hq, if_true]
  refine ⟨_, _, hr.snoc hs, ?_, rfl⟩
  intro a ha
  rcases List.mem_append.mp ha with ha | ha
  · exact hown a ha
  · rw [List.mem_singleton.mp ha]
    rfl

theorem Ending.ends (e : Ending s) : Ends threadId s := by
  rcases e.cases with hw | ha
  · exact hw.turns.ends e.quit
  · cases hp : s.phase with
    | exited => exact ⟨[], s, .nil s, by simp, hp⟩
    | test => exact Turns.ends ⟨[], s, .nil s, by simp, hp, rfl⟩ e.quit
    | running => exact (turns_running hp).ends e.quit
    | inFunctor => exact (turns_inFunctor (fun _ => turns_running) hp).ends e.quit
    | init | entered | poll | dispatch | handling | swapping =>
      rw [hp] at ha
      cases ha

theorem WillSwap.not_test {p : Phase F C} (hp : p = .test ∨ p = .exited) : ¬ p.WillSwap := by
  rintro (hw | hw) <;> rcases hp with hp | hp <;> rw [hp] at hw <;> cases hw

/-- A run from in front of the swap to the while test or the end starts all that had been pushed. -/
theorem run_starts (hr : (lts threadId).Run s tr t) (o : InOrder s) (hs : s.phase.WillSwap)
    (ht : t.phase = .test ∨ t.phase = .exited) : s.pushed <+: t.executed := by
  have taken := (run_willSwap hr o hs).resolve_left (WillSwap.not_test ht)
  have hrest : t.phase.rest = [] := by rcases ht with ht | ht <;> rw [ht] <;> rfl
  unfold Taken at taken
  rwa [hrest, List.append_nil] at taken

/-- **How soon the loop answers.** In every interleaving, all that is pushed is started before the poller returns
twice; and from a poll, or in front of the swap behind it, the loop thread alone starts it and gets to its next
while test. Once `quit_` is up (and the loop behind the place where it clears it) the poller returns once
more at most, and only if the loop thread is in a poll; its own steps end the loop; and when it has ended, all that
was pushed then has run if and only if the loop thread was still to swap or nothing was pending: what
was pending behind the swap never runs. -/
theorem loop_answers (h : (lts threadId).Reachable s) :
    (∀ tr t, (lts threadId).Run s tr t → 2 ≤ tr.countP Act.isPoll → s.pushed <+: t.executed) ∧
    (s.phase.WillSwap → ∃ tr t, (lts threadId).Run s tr t ∧ (∀ a ∈ tr, a.Own threadId) ∧ t.phase = .test ∧
      s.pushed <+: t.executed) ∧
    (Ending s →
      (∀ tr t, (lts threadId).Run s tr t → tr.countP Act.isPoll ≤ s.phase.polls) ∧
      Ends threadId s ∧
      ∀ tr t, (lts threadId).Run s tr t → t.phase = .exited →
        (s.pushed <+: t.executed ↔ s.phase.WillSwap ∨ s.pendingFunctors = []) ∧
        (¬ s.phase.WillSwap → t.executed = s.executed ++ s.phase.rest)) := by
  have o := reachable_inOrder h
  refine ⟨?_, ?_, fun e => ⟨?_, e.ends, ?_⟩⟩
  · exact fun tr t hr hn => run_pushed hr o hn
  · intro hw
    obtain ⟨tr, t, hr, hown, hp, -⟩ := (hw.turns : Turns threadId s)
    exact ⟨tr, t, hr, hown, hp, run_starts hr o hw (.inl hp)⟩
  · intro tr t hr
    have hn := (run_polls hr e).2
    omega
  · intro tr t hr ht
    have left : s.phase.afterSwap = true → t.executed = s.executed ++ s.phase.rest := by
      intro hs
      have he := run_afterSwap hr e hs
      rwa [ht, show t.executed ++ (Phase.exited : Phase F C).rest = t.executed from List.append_nil _] at he
    refine ⟨⟨?_, ?_⟩, fun hno => left (e.cases.resolve_left hno)⟩
    · intro hall
      refine e.cases.imp_right fun hs => ?_
      -- the pending functors stand behind all that has run
      rw [left hs, ← o] at hall
      have hlen := hall.length_le
      rw [List.length_append] at hlen
      exact List.eq_nil_of_length_eq_zero (by omega)
    · intro hor
      rcases e.cases with hs | hs
      · exact run_starts hr o hs (.inr ht)
      · rcases hor with hw | hnone
        · exact run_starts hr o hw (.inr ht)
        · rw [left hs, ← show _ = s.pushed from o, hnone, List.append_nil]

theorem loop_answers_left : ∃ s t : State Bool Nat Unit, (lts true).Reachable s ∧ s.pendingFunctors = [2] ∧
    t.phase = .exited ∧ ¬ s.pushed <+: t.executed ∧ Ends true s := by
  have hrun : (Lts.exec (step true) (initial : State Bool Nat Unit)
      [.queueInLoop false 1, .endQueueInLoop false, .loop, .clearQuit, .test, .poll [.wakeup], .handleEvent,
        .doPendingFunctors, .swap, .runFunctor, .queueInLoop false 2, .endQueueInLoop false, .quit false]).map
          (fun s => (s.phase, s.pendingFunctors, s.quit)) = some (.inFunctor 1 [], [2], true) := by decide +kernel
  obtain ⟨s, hs, h⟩ := Option.map_eq_some_iff.mp hrun
  obtain ⟨hp, h⟩ := Prod.mk.inj h
  obtain ⟨hpend, hq⟩ := Prod.mk.inj h
  have hreach : (lts true).Reachable s := ⟨_, _, rfl, Lts.run_of_exec (fun _ _ _ h => h) hs⟩
  have e : Ending s := ⟨hq, by rw [hp]; simp, by rw [hp]; simp⟩
  obtain ⟨-, -, hquit⟩ := loop_answers hreach
  obtain ⟨-, hends, hleft⟩ := hquit e
  obtain ⟨tr, t, hr, -, ht⟩ := id hends
  refine ⟨s, t, hreach, hpend, ht, ?_, hends⟩
  rw [(hleft tr t hr ht).1, hp, hpend]
  rintro ((hw | hw) | hw) <;> cases hw

end MyLearning.EventLoop
