import MyLearning.MyMuduo.EventLoopEffect

/-!
# No stranded functor

A functor pushed by another thread is followed by a write to the wakeup descriptor,
and one pushed by a running functor too. A functor that a callback pushes is not,
but the callback comes before the next `doPendingFunctors`. So while the loop thread
is on its way to a poll, or in it, pending functors come with a wakeup that is
either there or about to be written.
-/

namespace MyLearning.EventLoop

variable {T F C : Type} {threadId : T}

def Phase.pollsFirst : Phase F C → Bool
  | init | entered | test | poll | running _ | inFunctor .. => true
  | dispatch _ | handling .. | swapping | exited => false

/-- The wakeup counter is positive, or some thread is about to write to it. -/
def Woken (threadId : T) (s : State T F C) : Prop :=
  0 < s.wakeupFd ∨ ∃ th, s.call th = .queueing ∧ (th = threadId → s.phase.isCalling = true)

structure Attended (threadId : T) (s : State T F C) : Prop where
  calling : s.callingPendingFunctors = s.phase.isCalling
  user : s.call threadId ≠ .idle → s.phase.inUser = true
  woken : s.phase.pollsFirst = true → s.pendingFunctors ≠ [] → Woken threadId s

theorem wakeup_pos (s : State T F C) : 0 < (wakeup s).wakeupFd := by
  unfold wakeup
  simp only
  split <;> omega

theorem Attended.idle {s : State T F C} (g : Attended threadId s) (h : s.phase.inUser = false) :
    s.call threadId = .idle :=
  Classical.byContradiction fun hc => by rw [g.user hc] at h; cases h

theorem Attended.move {s t : State T F C} (g : Attended threadId s) (hidle : s.call threadId = .idle)
    (call : t.call = s.call) (calling : t.callingPendingFunctors = t.phase.isCalling)
    (h : t.phase.pollsFirst = true → t.pendingFunctors ≠ [] →
      s.phase.pollsFirst = true ∧ s.pendingFunctors ≠ [] ∧ t.wakeupFd = s.wakeupFd) : Attended threadId t where
  calling := calling
  user hc := absurd (call ▸ hidle) hc
  woken hp hne := by
    obtain ⟨hp, hne, hfd⟩ := h hp hne
    rcases g.woken hp hne with hw | ⟨th, hq, -⟩
    · exact .inl (hfd ▸ hw)
    · have hth : th ≠ threadId := fun e => by rw [e, hidle] at hq; cases hq
      exact .inr ⟨th, call ▸ hq, fun e => absurd e hth⟩

variable [DecidableEq T]

theorem Attended.setCall {s t : State T F C} {th : T} {c : Call} (g : Attended threadId s)
    (hth : s.call th = .queueing → (th = threadId → s.phase.isCalling = true) → 0 < t.wakeupFd)
    (call : t.call = Function.update s.call th c) (user : th = threadId → s.phase.inUser = true)
    (phase : t.phase = s.phase) (calling : t.callingPendingFunctors = s.callingPendingFunctors)
    (pending : t.pendingFunctors = s.pendingFunctors) (fd : s.wakeupFd ≤ t.wakeupFd) : Attended threadId t where
  calling := by rw [calling, phase]; exact g.calling
  user h := by
    rw [phase]
    by_cases he : th = threadId
    · exact user he
    · rw [call, Function.update_of_ne (Ne.symm he)] at h
      exact g.user h
  woken hp hne := by
    rw [phase] at hp
    rw [pending] at hne
    rcases g.woken hp hne with hw | ⟨th', hq, hc⟩
    · exact .inl (Nat.lt_of_lt_of_le hw fd)
    · by_cases he : th' = th
      · subst he
        exact .inl (hth hq hc)
      · exact .inr ⟨th', by rw [call, Function.update_of_ne he]; exact hq, by rw [phase]; exact hc⟩

theorem Attended.push {s : State T F C} {cb : F} {th : T} (g : Attended threadId s) (hc : CanCall threadId s th)
    (hin : th = threadId → s.phase ≠ .init) : Attended threadId (EventLoop.setCall (push s cb) th .queueing) where
  calling := g.calling
  user h := by
    by_cases he : th = threadId
    · exact hc.2 he
    · exact g.user (by simpa [EventLoop.setCall, EventLoop.push, Function.update_of_ne (Ne.symm he)] using h)
  woken hp _ := by
    refine .inr ⟨th, Function.update_self .., ?_⟩
    intro he
    have hu := hc.2 he
    have hi := hin he
    show s.phase.isCalling = true
    change s.phase.pollsFirst = true at hp
    cases hph : s.phase <;> simp_all [Phase.inUser, Phase.pollsFirst, Phase.isCalling]

/-! ## Runs -/

/-- The loop thread queues nothing before it calls `loop()`. -/
def QueuesInside (threadId : T) (s : State T F C) (a : Act T F C) : Prop :=
  s.phase = .init → ∀ cb, a ≠ .queueInLoop threadId cb

theorem Effect.attended {s t : State T F C} {a : Act T F C} (h : Effect threadId s a t)
    (g : Attended threadId s) (hin : QueuesInside threadId s a) : Attended threadId t := by
  cases h with
  | queueInLoop hc => exact g.push hc fun he hi => hin hi _ (by rw [he])
  | runInLoop hc hne => exact g.push hc fun he => absurd he hne
  | runHere _ _ => exact g
  | wakeup _ =>
    refine ⟨g.calling, g.user, ?_⟩
    intro hp hne
    exact (g.woken hp hne).imp_left fun hw => Nat.lt_of_lt_of_le hw (le_wakeup s)
  | endQueueInLoop hq =>
    rename_i th
    have huser : th = threadId → s.phase.inUser = true := fun he => g.user (by rw [← he, hq]; nofun)
    unfold wakeupAfterPush
    split
    · exact g.setCall (fun _ _ => wakeup_pos s) rfl huser rfl rfl rfl (le_wakeup s)
    · rename_i hno
      rw [not_or, not_not] at hno
      refine g.setCall ?_ rfl huser rfl rfl rfl (le_refl _)
      intro _ hc
      exact absurd (g.calling.trans (hc hno.1)) hno.2
  | quit hc => exact g.setCall (fun hq _ => by rw [hc.1] at hq; cases hq) rfl hc.2 rfl rfl rfl (le_refl _)
  | endQuit hq =>
    rename_i th
    have huser : th = threadId → s.phase.inUser = true := fun he => g.user (by rw [← he, hq]; nofun)
    have hno : s.call th ≠ .queueing := by rw [hq]; nofun
    obtain ⟨n, hn, hw⟩ := wakeupAfterQuit_eq threadId s th
    rw [hw]
    exact g.setCall (fun hq' => absurd hq' hno) rfl huser rfl rfl rfl hn
  | loop hp hi | endFunctor hp hi =>
    exact g.move hi rfl (g.calling.trans (by rw [hp]; rfl)) fun _ hne => ⟨by rw [hp]; rfl, hne, rfl⟩
  | clearQuit hp | again hp _ | runFunctor hp =>
    exact g.move (g.idle (by rw [hp]; rfl)) rfl (g.calling.trans (by rw [hp]; rfl))
      fun _ hne => ⟨by rw [hp]; rfl, hne, rfl⟩
  | exit hp _ | poll hp _ | handleRead hp | handleEvent hp =>
    -- no poll comes before the next swap
    exact g.move (g.idle (by rw [hp]; rfl)) rfl (g.calling.trans (by rw [hp]; rfl)) nofun
  | endHandle hp hi => exact g.move hi rfl (g.calling.trans (by rw [hp]; rfl)) nofun
  | doPendingFunctors hp => exact g.move (g.idle (by rw [hp]; rfl)) rfl rfl nofun
  | swap hp =>
    exact g.move (g.idle (by rw [hp]; rfl)) rfl (g.calling.trans (by rw [hp]; rfl)) fun _ hne => absurd rfl hne
  | endRound hp =>
    exact g.move (g.idle (by rw [hp]; rfl)) rfl rfl fun _ hne => ⟨by rw [hp]; rfl, hne, rfl⟩

theorem attended_of_reachable {s : State T F C} (h : ((lts threadId).restrict (QueuesInside threadId)).Reachable s) :
    Attended threadId s := by
  refine h.invariant_from ?_ (fun _ _ _ g hs => (step_effect hs.2).attended g hs.1) fun _ h => h
  exact ⟨rfl, fun h => absurd rfl h, fun _ h => absurd rfl h⟩

/-- **No functor is stranded**: while the loop thread is in poll and functors are
pending, the wakeup counter is positive or another thread is about to write to it. -/
theorem no_stranded_functor {s : State T F C}
    (h : ((lts threadId).restrict (QueuesInside threadId)).Reachable s) (hp : s.phase = .poll)
    (hne : s.pendingFunctors ≠ []) : 0 < s.wakeupFd ∨ ∃ th ≠ threadId, s.call th = .queueing := by
  have g := attended_of_reachable h
  rcases g.woken (by rw [hp]; rfl) hne with hw | ⟨th, hq, hc⟩
  · exact .inl hw
  · refine .inr ⟨th, ?_, hq⟩
    intro he
    have := hc he
    rw [hp] at this
    cases this

theorem no_stranded_functor_first_poll : ∃ s : State Bool Nat Unit,
    s.phase = .poll ∧ s.pendingFunctors = [7] ∧ (0 < s.wakeupFd ∨ ∃ th ≠ true, s.call th = .queueing) := by
  have h₀ : ((lts true).restrict (QueuesInside true)).Reachable (initial : State Bool Nat Unit) := .init rfl
  have h₁ := h₀.step (a := .loop) ⟨fun _ _ => nofun, rfl⟩
  have h₂ := h₁.step (a := .clearQuit) ⟨fun _ _ => nofun, rfl⟩
  have h₃ := h₂.step (a := .test) ⟨fun _ _ => nofun, rfl⟩
  have h₄ := h₃.step (a := .queueInLoop false 7) ⟨fun _ _ => nofun, rfl⟩
  exact ⟨_, rfl, rfl, no_stranded_functor h₄ rfl (List.cons_ne_nil _ _)⟩

end MyLearning.EventLoop
