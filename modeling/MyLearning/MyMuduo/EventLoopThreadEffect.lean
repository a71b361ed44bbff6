import MyLearning.MyMuduo.EventLoopThread

/-!
# Effect of one step of the thread of an event loop

`Effect` lists for each action what it needs and what it does, and `step_effect` reads
it off `step`. The steps of the loop on the stack are those of `EventLoop.Effect`; of these
only the while test of `loop()` can end it, and the calls of other threads leave it
where it is.
-/

namespace MyLearning

variable {T F C : Type}

/-! ## The loop inside -/

namespace EventLoop

def Calm (threadId : T) (l : State T F C) : Prop := l.call threadId ≠ .idle → l.phase.inUser = true

variable {threadId : T} {l l' : State T F C} {a : Act T F C}

theorem Calm.idle (g : Calm threadId l) (h : l.phase.inUser = false) : l.call threadId = .idle := by
  by_contra hc
  have := g hc
  rw [h] at this
  cases this

variable [DecidableEq T]

theorem Effect.phase_of_call (h : Effect threadId l a l') (ha : EventLoopThread.isCall a = true) :
    l'.phase = l.phase := by
  cases h with
  | @endQueueInLoop th _ =>
    obtain ⟨n, -, hw⟩ := wakeupAfterPush_eq threadId l th
    rw [hw]; rfl
  | @endQuit th _ =>
    obtain ⟨n, -, hw⟩ := wakeupAfterQuit_eq threadId l th
    rw [hw]; rfl
  | queueInLoop | runHere | runInLoop | quit | wakeup => rfl
  | _ => cases ha

theorem Effect.exits (h : Effect threadId l a l') (hp : l'.phase = .exited) :
    l.phase = .exited ∨ a = .test ∧ l.quit = true := by
  cases h with
  | @endQueueInLoop th _ =>
    obtain ⟨n, -, hw⟩ := wakeupAfterPush_eq threadId l th
    rw [hw] at hp; exact .inl hp
  | @endQuit th _ =>
    obtain ⟨n, -, hw⟩ := wakeupAfterQuit_eq threadId l th
    rw [hw] at hp; exact .inl hp
  | queueInLoop | runHere | runInLoop | quit | wakeup => exact .inl hp
  | exit _ hq => exact .inr ⟨rfl, hq⟩
  | _ => cases hp

theorem Calm.setCall {th : T} {c : Call} (g : Calm threadId l) (hth : th = threadId → l.phase.inUser = true)
    (call : l'.call = Function.update l.call th c) (phase : l'.phase = l.phase) : Calm threadId l' := by
  intro h
  rw [phase]
  by_cases he : th = threadId
  · exact hth he
  · rw [call, Function.update_of_ne (Ne.symm he)] at h
    exact g h

theorem Effect.calm (h : Effect threadId l a l') (g : Calm threadId l) : Calm threadId l' := by
  have move : ∀ {l' : State T F C}, l'.call = l.call → l.call threadId = .idle → Calm threadId l' :=
    fun call hi hc => absurd (call ▸ hi) hc
  cases h with
  | queueInLoop hc | runInLoop hc _ | quit hc => exact g.setCall hc.2 rfl rfl
  | runHere _ _ | wakeup _ => exact g
  | @endQueueInLoop th hq =>
    have huser : th = threadId → l.phase.inUser = true := fun he => g (by rw [← he, hq]; simp)
    obtain ⟨n, -, hw⟩ := wakeupAfterPush_eq threadId l th
    rw [hw]
    exact g.setCall huser rfl rfl
  | @endQuit th hq =>
    have huser : th = threadId → l.phase.inUser = true := fun he => g (by rw [← he, hq]; simp)
    obtain ⟨n, -, hw⟩ := wakeupAfterQuit_eq threadId l th
    rw [hw]
    exact g.setCall huser rfl rfl
  | loop _ hi | endHandle _ hi | endFunctor _ hi => exact move rfl hi
  | clearQuit hp | exit hp _ | again hp _ | poll hp _ | handleRead hp | handleEvent hp | doPendingFunctors hp
  | swap hp | runFunctor hp | endRound hp => exact move rfl (g.idle (by rw [hp]; rfl))

end EventLoop

namespace EventLoopThread

variable [DecidableEq T] {threadId owner : T}

/-! ## What one step does -/

inductive Effect (threadId owner : T) : State T F C → Act T F C → State T F C → Prop
  | startLoop {s tid thread} : s.starting = .notCalled → Thread.start s.thread tid = .ok thread →
      Effect threadId owner s (.startLoop tid) { s with thread := thread, starting := .waiting, func := .entered }
  | construct {s p} : s.func = .entered → s.loops p = none →
      Effect threadId owner s (.construct p)
        { s with loops := s.loops.write p EventLoop.initial, func := .callback p }
  | loop {s a p l l'} : s.func.loop? = some p → isCall a = true ∨ s.func = .looping p → s.loops p = some l →
      EventLoop.Effect threadId l a l' → Effect threadId owner s (.loop a) { s with loops := s.loops.write p l' }
  | publish {s p l} : s.func = .callback p → s.loops p = some l → Effect threadId owner s .publish (publish s p)
  | clear {s p l} : s.func = .looping p → s.loops p = some l → l.phase = .exited →
      Effect threadId owner s .clear { s with func := .cleared p }
  | destroy {s p} : s.func = .cleared p →
      Effect threadId owner s .destroy { s with loops := Function.update s.loops p none, func := .finished }
  | endStartLoop {s p} : s.starting = .waiting → s.loop_ = some p →
      Effect threadId owner s .endStartLoop { s with starting := .returned s.loop_ }
  | enterDtor {s p} : s.dtor = .notCalled → s.loop_ = some p →
      Effect threadId owner s .enterDtor { s with exiting := true, dtor := .quitting }
  | noLoop {s} : s.dtor = .notCalled → s.loop_ = none →
      Effect threadId owner s .enterDtor
        { s with exiting := true, dtor := .finished, thread := Thread.destroy s.thread }
  | quit {s p l l'} : s.dtor = .quitting → s.loop_ = some p → s.loops p = some l →
      EventLoop.Effect threadId l (.quit owner) l' →
      Effect threadId owner s .quit
        { s with loops := s.loops.write p l', dtor := .inQuit, quits := s.quits ++ [(p, true)] }
  | quitDead {s p} : s.dtor = .quitting → s.loop_ = some p → s.loops p = none →
      Effect threadId owner s .quit { s with dtor := .crashed, quits := s.quits ++ [(p, false)] }
  | endQuit {s p l l'} : s.dtor = .inQuit → s.loop_ = some p → s.loops p = some l →
      EventLoop.Effect threadId l (.endQuit owner) l' →
      Effect threadId owner s .endQuit
        { s with loops := s.loops.write p l', dtor := .joining, quits := s.quits ++ [(p, true)] }
  | endQuitDead {s p} : s.dtor = .inQuit → s.loop_ = some p → s.loops p = none →
      Effect threadId owner s .endQuit { s with dtor := .crashed, quits := s.quits ++ [(p, false)] }
  | join {s thread} : s.dtor = .joining → Thread.join s.thread = .ok thread →
      Effect threadId owner s .join { s with thread := Thread.destroy thread, dtor := .finished }

theorem hasExited_iff {p : EventLoop.Phase F C} : hasExited p = true ↔ p = .exited := by
  cases p <;> simp [hasExited]

theorem step_effect {s t : State T F C} {a : Act T F C} (h : (lts threadId owner).step s a t) :
    Effect threadId owner s a t := by
  cases a with
  | startLoop tid =>
    simp only [lts, step, Option.ite_none_right_eq_some, Option.some.injEq] at h
    obtain ⟨hs, h⟩ := h
    obtain ⟨-, h⟩ := check_bind_eq_ok.mp h
    obtain ⟨thread, ht, h⟩ := bind_eq_ok.mp h
    cases h
    exact .startLoop hs ht
  | construct p =>
    simp only [lts, step, Option.ite_none_right_eq_some, Option.some.injEq] at h
    obtain ⟨⟨hf, hp⟩, h⟩ := h
    cases h
    exact .construct hf hp
  | loop a =>
    simp only [lts, step] at h
    split at h
    · rename_i p hp
      simp only [Option.ite_none_right_eq_some, Option.map_eq_some_iff, Option.bind_eq_some_iff] at h
      obtain ⟨⟨ha, -⟩, l', ⟨l, hl, hs⟩, h⟩ := h
      cases h
      exact .loop hp ha hl (EventLoop.step_effect hs)
    · cases h
  | publish =>
    simp only [lts, step] at h
    split at h
    · rename_i p hf
      simp only [Option.ite_none_right_eq_some, Option.any_eq_true_iff_get, Option.some.injEq] at h
      obtain ⟨⟨hl, -⟩, h⟩ := h
      obtain ⟨l, hl⟩ := Option.isSome_iff_exists.mp hl
      cases h
      exact .publish hf hl
    · cases h
  | clear =>
    simp only [lts, step] at h
    split at h
    · rename_i p hf
      cases hl : s.loops p with
      | none => simp [hl] at h
      | some l =>
        simp only [hl, Option.any_some, Bool.and_eq_true, decide_eq_true_eq, hasExited_iff,
          Option.ite_none_right_eq_some, Option.some.injEq] at h
        obtain ⟨⟨-, hp⟩, h⟩ := h
        cases h
        exact .clear hf hl hp
    · cases h
  | destroy =>
    simp only [lts, step] at h
    split at h
    · rename_i p hf
      cases h
      exact .destroy hf
    · cases h
  | endStartLoop =>
    simp only [lts, step, Option.ite_none_right_eq_some, Option.some.injEq] at h
    obtain ⟨⟨hs, hl⟩, h⟩ := h
    obtain ⟨p, hp⟩ := Option.ne_none_iff_exists'.mp hl
    cases h
    exact .endStartLoop hs hp
  | enterDtor =>
    simp only [lts, step, Option.ite_none_right_eq_some, Option.some.injEq] at h
    obtain ⟨hd, h⟩ := h
    cases h
    unfold enterDtor
    split
    · rename_i hl
      obtain ⟨p, hp⟩ := Option.ne_none_iff_exists'.mp hl
      exact .enterDtor hd hp
    · rename_i hl
      exact .noLoop hd (not_not.mp hl)
  | quit =>
    simp only [lts, step] at h
    split at h
    · rename_i p hd hp
      unfold EventLoopThread.quit at h
      split at h
      · rename_i hl
        cases h
        exact .quitDead hd hp hl
      · rename_i l hl
        simp only [Option.map_eq_some_iff] at h
        obtain ⟨_, ⟨l', hs, rfl⟩, h⟩ := h
        cases h
        exact .quit hd hp hl (EventLoop.step_effect hs)
    · cases h
  | endQuit =>
    simp only [lts, step] at h
    split at h
    · rename_i p hd hp
      unfold EventLoopThread.endQuit at h
      split at h
      · rename_i hl
        cases h
        exact .endQuitDead hd hp hl
      · rename_i l hl
        simp only [Option.map_eq_some_iff] at h
        obtain ⟨_, ⟨l', hs, rfl⟩, h⟩ := h
        cases h
        exact .endQuit hd hp hl (EventLoop.step_effect hs)
    · cases h
  | join =>
    simp only [lts, step, Option.ite_none_right_eq_some, Option.some.injEq] at h
    obtain ⟨hd, h⟩ := h
    obtain ⟨thread, ht, h⟩ := map_eq_ok.mp h
    cases h
    exact .join hd ht

end EventLoopThread

end MyLearning
