import MyLearning.MyMuduo.EventLoopWakeup

/-!
# Quitting from another thread

`loop()` clears `quit_` when it starts, and `quit()` writes to the wakeup descriptor
only in the loop thread, which does not need it. So a `quit()` that comes before the
clearing is forgotten, and one that comes between a while test and the return of the
poll leaves the loop thread asleep, unless a wakeup is there for another reason.
-/

namespace MyLearning.EventLoop

variable {T F C : Type} {threadId : T}

def QuitDone (threadId : T) (s : State T F C) : Prop := ∃ th ∈ s.quitDone, th ≠ threadId

/-- A `quit()` that has returned has its effect: the flag is up, and the loop thread
is not in a poll without a wakeup. -/
def QuitKept (threadId : T) (s : State T F C) : Prop :=
  QuitDone threadId s → s.quit = true ∧ ¬ (s.phase = .poll ∧ s.wakeupFd = 0)

def QuitHeard (s : State T F C) : Prop :=
  s.phase ≠ .init ∧ s.phase ≠ .entered ∧ ¬ (s.phase = .poll ∧ s.wakeupFd = 0)

def QuitsHeard (threadId : T) (s : State T F C) (a : Act T F C) : Prop :=
  ∀ th ≠ threadId, a = .quit th → QuitHeard s

/-! ## Quits that are heard -/

def Stored (threadId : T) (s : State T F C) : Prop :=
  ∃ th ≠ threadId, s.call th = .quitting ∨ th ∈ s.quitDone

/-- Once another thread has stored the flag it stays up, and no poll lacks a wakeup. -/
def Quitting (threadId : T) (s : State T F C) : Prop :=
  Stored threadId s → s.quit = true ∧ QuitHeard s

theorem Quitting.kept {s : State T F C} (g : Quitting threadId s) : QuitKept threadId s := by
  intro h
  obtain ⟨th, hd, hne⟩ := h
  obtain ⟨hq, -, -, hp⟩ := g ⟨th, hne, .inr hd⟩
  exact ⟨hq, hp⟩

theorem Quitting.frame {s t : State T F C} (g : Quitting threadId s)
    (call : ∀ th ≠ threadId, t.call th = .quitting → s.call th = .quitting) (done : t.quitDone = s.quitDone)
    (h : s.quit = true → QuitHeard s → t.quit = true ∧ QuitHeard t) : Quitting threadId t := by
  intro h
  obtain ⟨th, hne, hs⟩ := h
  obtain ⟨hq, hh⟩ := g ⟨th, hne, hs.imp (call th hne) fun hd => done ▸ hd⟩
  exact h hq hh

theorem QuitHeard.mono {s t : State T F C} (h : QuitHeard s) (phase : t.phase = s.phase)
    (fd : s.wakeupFd ≤ t.wakeupFd) : QuitHeard t := by
  obtain ⟨h₁, h₂, h₃⟩ := h
  exact ⟨phase ▸ h₁, phase ▸ h₂, fun ⟨hp, hz⟩ => h₃ ⟨phase ▸ hp, by omega⟩⟩

variable [DecidableEq T]

theorem call_of_setCall {s : State T F C} {th th' : T} {c : Call} (hc : c ≠ .quitting)
    (h : (setCall s th c).call th' = .quitting) : s.call th' = .quitting := by
  unfold setCall at h
  by_cases he : th' = th
  · subst he
    simp only [Function.update_self] at h
    exact absurd h hc
  · simpa only [Function.update_of_ne he] using h

theorem Effect.quitting {s t : State T F C} {a : Act T F C} (h : Effect threadId s a t)
    (g : Quitting threadId s) (hh : QuitsHeard threadId s a) : Quitting threadId t := by
  cases h with
  | queueInLoop | runInLoop =>
    exact g.frame (fun _ _ hq => call_of_setCall (by decide) hq) rfl fun hq hh => ⟨hq, hh.mono rfl (le_refl _)⟩
  | runHere => exact g
  | wakeup => exact g.frame (fun _ _ hq => hq) rfl fun hq hh => ⟨hq, hh.mono rfl (le_wakeup s)⟩
  | @endQueueInLoop th _ =>
    obtain ⟨n, hn, hw⟩ := wakeupAfterPush_eq threadId s th
    rw [hw]
    exact g.frame (fun _ _ hq => call_of_setCall (by decide) hq) rfl fun hq hh => ⟨hq, hh.mono rfl hn⟩
  | @quit th hc =>
    by_cases he : th = threadId
    · refine g.frame ?_ rfl fun _ hh => ⟨rfl, hh.mono rfl (le_refl _)⟩
      intro th' hne hq
      have hq : Function.update s.call th .quitting th' = .quitting := hq
      rwa [Function.update_of_ne (fun e => hne (e.trans he))] at hq
    · exact fun _ => ⟨rfl, (hh th he rfl).mono rfl (le_refl _)⟩
  | @endQuit th hc =>
    obtain ⟨n, hn, hw⟩ := wakeupAfterQuit_eq threadId s th
    rw [hw]
    intro h
    obtain ⟨th', hne, hs⟩ := h
    have hs : s.call th' = .quitting ∨ th' ∈ s.quitDone := by
      rcases hs with hs | hs
      · exact .inl (call_of_setCall (c := .idle) (by decide) hs)
      · rcases List.mem_append.mp hs with hs | hs
        · exact .inr hs
        · rw [List.mem_singleton.mp hs]; exact .inl hc
    obtain ⟨hq, hh⟩ := g ⟨th', hne, hs⟩
    exact ⟨hq, hh.mono rfl hn⟩
  | loop hp _ => exact g.frame (fun _ _ hq => hq) rfl fun _ hh => absurd hp hh.1
  | clearQuit hp => exact g.frame (fun _ _ hq => hq) rfl fun _ hh => absurd hp hh.2.1
  | again hp hf => exact g.frame (fun _ _ hq => hq) rfl fun hq _ => by rw [hf] at hq; cases hq
  | exit | poll | handleRead | handleEvent | endHandle | doPendingFunctors | swap | runFunctor | endFunctor
  | endRound => exact g.frame (fun _ _ hq => hq) rfl fun hq _ => ⟨hq, nofun, nofun, fun h => nomatch h.1⟩

theorem quitting_of_reachable {s : State T F C}
    (h : ((lts threadId).restrict (QuitsHeard threadId)).Reachable s) : Quitting threadId s := by
  refine h.invariant ?_ fun s a t g ⟨hh, hs⟩ => (step_effect hs).quitting g hh
  intro s hs
  cases hs
  intro h
  obtain ⟨th, -, hq | hd⟩ := h
  · cases hq
  · cases hd

/-! ## Quits that are not heard -/

def Fresh (s : State T F C) : Prop := s.phase = .init → s.looping = false

theorem Effect.fresh {s t : State T F C} {a : Act T F C} (h : Effect threadId s a t) (g : Fresh s) : Fresh t := by
  cases h with
  | @endQueueInLoop th _ =>
    obtain ⟨n, -, hw⟩ := wakeupAfterPush_eq threadId s th
    rw [hw]
    exact g
  | @endQuit th _ =>
    obtain ⟨n, -, hw⟩ := wakeupAfterQuit_eq threadId s th
    rw [hw]
    exact g
  | queueInLoop | runInLoop | runHere | quit | wakeup => exact g
  | _ => exact nofun

theorem fresh_of_reachable {s : State T F C} (h : (lts threadId).Reachable s) : Fresh s :=
  h.invariant_from (fun _ => rfl) (fun _ _ _ g hs => (step_effect hs).fresh g) fun _ h => h

section
variable {s : State T F C} {th : T} (hne : th ≠ threadId) (hq : s.call th = .quitting)
include hne hq

theorem lost_of_end (h : s.quit = false ∨ s.phase = .poll ∧ s.wakeupFd = 0) :
    ∃ tr u, (lts threadId).Run s tr u ∧ ¬ QuitKept threadId u := by
  have hstep : (lts threadId).step s (.endQuit th)
      (setCall { wakeupAfterQuit threadId s th with quitDone := s.quitDone ++ [th] } th .idle) := if_pos hq
  refine ⟨_, _, .single hstep, ?_⟩
  intro hk
  obtain ⟨hquit, hpoll⟩ := hk ⟨th, List.mem_append_right _ (List.mem_singleton_self th), hne⟩
  rw [wakeupAfterQuit, if_neg hne] at hquit hpoll
  rcases h with h | h
  · have hquit : s.quit = true := hquit
    rw [h] at hquit
    cases hquit
  · exact hpoll h

theorem lost_of_entered (h : s.phase = .entered) : ∃ tr u, (lts threadId).Run s tr u ∧ ¬ QuitKept threadId u := by
  have hstep : (lts threadId).step s .clearQuit { s with quit := false, phase := .test } := by
    simp only [lts, step, h]
  obtain ⟨tr, u, hr, hu⟩ := lost_of_end (s := { s with quit := false, phase := .test }) hne hq (.inl rfl)
  exact ⟨_, u, .cons hstep hr, hu⟩

theorem lost_of_init_idle (h : s.phase = .init) (hl : s.looping = false) (hi : s.call threadId = .idle) :
    ∃ tr u, (lts threadId).Run s tr u ∧ ¬ QuitKept threadId u := by
  have hstep : (lts threadId).step s .loop { s with looping := true, phase := .entered } := by
    simp only [lts, step, h, hl, hi, and_self, if_true]
  obtain ⟨tr, u, hr, hu⟩ := lost_of_entered (s := { s with looping := true, phase := .entered }) hne hq rfl
  exact ⟨_, u, .cons hstep hr, hu⟩

theorem lost_of_init (h : s.phase = .init) (hl : s.looping = false) :
    ∃ tr u, (lts threadId).Run s tr u ∧ ¬ QuitKept threadId u := by
  -- a call the loop thread is in the middle of comes to its end first
  have ends : ∀ {a : Act T F C} {t : State T F C}, (lts threadId).step s a (setCall t threadId .idle) →
      t.call = s.call → t.phase = s.phase → t.looping = s.looping →
      ∃ tr u, (lts threadId).Run s tr u ∧ ¬ QuitKept threadId u := by
    intro a t hstep hcall hphase hlooping
    have hq' : (setCall t threadId .idle).call th = .quitting :=
      (Function.update_of_ne hne ..).trans (hcall ▸ hq)
    obtain ⟨tr, u, hr, hu⟩ := lost_of_init_idle (s := setCall t threadId .idle) hne hq' (hphase.trans h)
      (hlooping.trans hl) (Function.update_self ..)
    exact ⟨_, u, .cons hstep hr, hu⟩
  cases hc : s.call threadId with
  | idle => exact lost_of_init_idle hne hq h hl hc
  | queueing =>
    obtain ⟨n, -, hw⟩ := wakeupAfterPush_eq threadId s threadId
    apply ends (a := .endQueueInLoop threadId) (if_pos hc) <;> rw [hw]
  | quitting =>
    obtain ⟨n, -, hw⟩ := wakeupAfterQuit_eq threadId s threadId
    apply ends (a := .endQuit threadId) (if_pos hc) <;> rw [hw]

end

/-- **A `quit()` of another thread is kept in every run in which each of them is
heard**; and a `quit()` that is not heard can be lost: some run from there loses it. -/
theorem quit_kept :
    (∀ s : State T F C, ((lts threadId).restrict (QuitsHeard threadId)).Reachable s → QuitKept threadId s) ∧
    ∀ (s t : State T F C) (th : T), (lts threadId).Reachable s → th ≠ threadId →
      (lts threadId).step s (.quit th) t → ¬ QuitHeard s →
      ∃ tr u, (lts threadId).Run t tr u ∧ ¬ QuitKept threadId u := by
  refine ⟨fun s h => (quitting_of_reachable h).kept, ?_⟩
  intro s t th h hne hs hno
  cases step_effect hs with
  | quit hc =>
    have hq : (setCall { s with quit := true } th .quitting).call th = .quitting := Function.update_self ..
    by_cases hi : s.phase = .init
    · have hl := fresh_of_reachable h hi
      exact lost_of_init hne hq hi hl
    by_cases he : s.phase = .entered
    · exact lost_of_entered hne hq he
    · have hp : s.phase = .poll ∧ s.wakeupFd = 0 := Classical.byContradiction fun hp => hno ⟨hi, he, hp⟩
      exact lost_of_end hne hq (.inr hp)

theorem quit_kept_before_test : ∃ s : State Bool Nat Unit, QuitDone true s ∧ s.quit = true ∧
    ¬ (s.phase = .poll ∧ s.wakeupFd = 0) := by
  have h₀ : ((lts true).restrict (QuitsHeard true)).Reachable (initial : State Bool Nat Unit) := .init rfl
  have h₁ := h₀.step (a := .loop) ⟨fun _ _ => nofun, rfl⟩
  have h₂ := h₁.step (a := .clearQuit) ⟨fun _ _ => nofun, rfl⟩
  have h₃ := h₂.step (a := .quit false) ⟨fun _ _ _ => ⟨nofun, nofun, fun h => nomatch h.1⟩, rfl⟩
  have h₄ := h₃.step (a := .endQuit false) ⟨fun _ _ => nofun, rfl⟩
  have hk := quit_kept.1 _ h₄
  refine ⟨_, ?_, hk ?_⟩ <;> exact ⟨false, List.mem_singleton_self false, by decide⟩

/-- A `quit()` of another thread in the first poll leaves the loop thread asleep. -/
theorem quit_lost_in_poll : ¬ ∀ s : State Bool Nat Unit, (lts true).Reachable s → QuitKept true s := by
  intro hall
  have hrun : (Lts.exec (step true) (initial : State Bool Nat Unit)
      [.loop, .clearQuit, .test, .quit false, .endQuit false]).map
        (fun s => (s.quitDone, s.phase, s.wakeupFd)) = some ([false], .poll, 0) := by decide +kernel
  obtain ⟨s, hs, h⟩ := Option.map_eq_some_iff.mp hrun
  simp only [Prod.mk.injEq] at h
  obtain ⟨hd, hp⟩ := h
  have hr : (lts true).Reachable s := ⟨_, _, rfl, Lts.run_of_exec (fun _ _ _ h => h) hs⟩
  exact (hall s hr ⟨false, by rw [hd]; exact List.mem_singleton_self false, by decide⟩).2 hp

end MyLearning.EventLoop
