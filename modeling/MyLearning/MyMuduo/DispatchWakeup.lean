import MyLearning.MyMuduo.EventLoopDispatch
import MyLearning.MyMuduo.EventLoopResponse
import MyLearning.MyMuduo.EventLoopWakeup

/-!
# From a push to its functor

The loop with its poller takes the steps of the loop, and steps of the poller in between that the loop does not
see. So what holds of every run of the loop holds here; and since the wakeup channel belongs to the loop alone, the
kernel watches the descriptor that `queueInLoop` writes to for as long as the loop lives.
-/

namespace MyLearning

namespace EpollPoller

theorem le_growEvents (room numEvents : Nat) : room ≤ growEvents room numEvents := by
  unfold growEvents
  split <;> omega

end EpollPoller

namespace Dispatch

variable {T F C : Type} {threadId : T} {k : EventFlags} {fd : Ready C → Int}

def Act.isPoll : Act T F C → Bool
  | poll _ => true
  | _ => false

/-- The loop thread queues nothing before `loop()`, and `wakeupChannel_` is changed by the loop only. -/
def Private (threadId : T) (s : State T F C) : Act T F C → Prop
  | .loop a => EventLoop.QueuesInside threadId s.loop a
  | .channel a => a.channel ≠ .wakeup
  | .poll _ | .handleEvent => True

/-- The wakeup channel is in the interest list, for reading at least. -/
structure Watches (k : EventFlags) (s : State T F C) : Prop where
  added : (s.poller.channel .wakeup).index = EpollPoller.kAdded
  reading : (s.poller.channel .wakeup).events &&& k.kReadEvent = k.kReadEvent
  room : 0 < s.room

variable {s t : State T F C} {a : Act T F C} {tr : List (Act T F C)}

theorem Watches.interest (w : Watches k s) (g : Snapshot fd s) :
    s.poller.epollfd (fd .wakeup) = some ⟨(s.poller.channel .wakeup).events, .wakeup⟩ :=
  g.mirror.interest_some w.added

variable [DecidableEq T] [DecidableEq C]

/-! ## The steps of the loop -/

inductive Effect (threadId : T) (fd : Ready C → Int) (s : State T F C) : Act T F C → State T F C → Prop
  | loop {a l} : inLoop a = true → EventLoop.step threadId s.loop a = some l →
      Effect threadId fd s (.loop a) { s with loop := l }
  | poll {ready active l} : EventLoop.step threadId s.loop (.poll active) = some l →
      Effect threadId fd s (.poll ready)
        { s with loop := l, room := EpollPoller.growEvents s.room ready.length, dispatched := [] }
  | handleEvent {c l} : upcoming s.loop.phase = some c → EventLoop.step threadId s.loop .handleEvent = some l →
      Effect threadId fd s .handleEvent { s with loop := l, dispatched := s.dispatched ++ [c] }
  | channel {a x} : Effect threadId fd s (.channel a) { s with poller := EpollPoller.place fd s.poller a.channel x }

theorem step_effect (g : Snapshot fd s) (h : (lts threadId k fd).step s a t) : Effect threadId fd s a t := by
  cases a with
  | loop a =>
    simp only [lts, step, Option.ite_none_right_eq_some, Option.map_eq_some_iff, Except.ok.injEq] at h
    obtain ⟨ha, l, hl, rfl⟩ := h
    exact .loop ha hl
  | poll ready =>
    simp only [lts, step] at h
    split at h
    · cases h
    · rename_i events hwait
      rw [(EpollPoller.epollWait_eq_some g.mirror hwait).1] at h
      simp only [Option.map_eq_some_iff, Except.ok.injEq] at h
      obtain ⟨l, hl, rfl⟩ := h
      exact .poll hl
  | handleEvent =>
    simp only [lts, step] at h
    split at h
    · cases h
    · rename_i c hc
      simp only [Option.map_eq_some_iff, Except.ok.injEq] at h
      obtain ⟨l, hl, rfl⟩ := h
      exact .handleEvent hc hl
  | channel a =>
    simp only [lts, step, Option.ite_none_right_eq_some] at h
    obtain ⟨-, h⟩ := h
    split at h
    · obtain ⟨-, h⟩ := check_bind_eq_ok.mp (Option.some.inj h)
      obtain ⟨p, hp, h⟩ := bind_eq_ok.mp h
      cases h
      obtain ⟨hreg, hnone⟩ := EpollPoller.removeChannel_eq_ok hp
      rw [EpollPoller.removeChannel_eq g.mirror hreg hnone] at hp
      cases hp
      exact .channel
    · simp only [updateChannel, Option.map_eq_some_iff, map_eq_ok] at h
      obtain ⟨r, hr, p, rfl, rfl⟩ := h
      obtain ⟨-, rfl⟩ := EpollPoller.step_ok_place g.mirror hr
      exact .channel

theorem step_loop (g : Snapshot fd s) (h : (lts threadId k fd).step s a t) :
    (∃ b, (EventLoop.lts threadId).step s.loop b t.loop ∧ b.isPoll = a.isPoll ∧
        (Private threadId s a → EventLoop.QueuesInside threadId s.loop b)) ∨
      (t.loop = s.loop ∧ a.isPoll = false) := by
  cases step_effect g h with
  | @loop a l ha hl =>
    refine .inl ⟨a, hl, ?_, id⟩
    cases a with
    | poll => cases ha
    | _ => rfl
  | @poll ready active l hl => exact .inl ⟨.poll active, hl, rfl, fun _ _ _ => by simp⟩
  | handleEvent _ hl => exact .inl ⟨.handleEvent, hl, rfl, fun _ _ _ => by simp⟩
  | channel => exact .inr ⟨rfl, rfl⟩

theorem step_of_loop {b : EventLoop.Act T F C} {l : EventLoop.State T F C} (hb : inLoop b = true)
    (h : EventLoop.step threadId s.loop b = some l) : (lts threadId k fd).step s (.loop b) { s with loop := l } := by
  simp only [lts, step, hb, h, if_true]
  rfl

theorem run_loop (hr : (lts threadId k fd).Run s tr t) : Snapshot fd s →
    ∃ tr', (EventLoop.lts threadId).Run s.loop tr' t.loop ∧ tr'.countP EventLoop.Act.isPoll = tr.countP Act.isPoll := by
  induction hr with
  | nil s => exact fun _ => ⟨[], .nil _, rfl⟩
  | @cons s a t tr u hs _ ih =>
    intro g
    obtain ⟨tr', hr', hn⟩ := ih (g.step hs)
    rcases step_loop g hs with ⟨b, hb, hp, -⟩ | ⟨he, hp⟩
    · refine ⟨b :: tr', .cons hb hr', ?_⟩
      rw [List.countP_cons, List.countP_cons, hn, hp]
    · refine ⟨tr', he ▸ hr', ?_⟩
      rw [List.countP_cons, hn, hp]
      rfl

theorem inOrder_of_reachable (h : (lts threadId k fd).Reachable s) : EventLoop.InOrder s.loop := by
  obtain ⟨s₀, tr, hi, hr⟩ := h
  obtain ⟨tr', hr', -⟩ := run_loop hr (snapshot_of_reachable (.init hi))
  exact EventLoop.reachable_inOrder ⟨s₀.loop, tr', hi.1, hr'⟩

theorem loop_simulation : Lts.Simulation ((lts threadId k fd).restrict (Private threadId))
    ((EventLoop.lts threadId).restrict (EventLoop.QueuesInside threadId))
    (fun (s : State T F C) l => Snapshot fd s ∧ s.loop = l) where
  init s hs := by
    have hr : (lts threadId k fd).Reachable s := .init hs
    exact ⟨s.loop, hs.1, snapshot_of_reachable hr, rfl⟩
  step s a t l hR hs := by
    obtain ⟨g, rfl⟩ := hR
    obtain ⟨hp, hs⟩ := hs
    rcases step_loop g hs with ⟨b, hb, -, hq⟩ | ⟨he, -⟩
    · exact ⟨[b], t.loop, .single ⟨hq hp, hb⟩, g.step hs, rfl⟩
    · exact ⟨[], t.loop, he ▸ .nil _, g.step hs, rfl⟩

/-! ## The wakeup channel -/

theorem Watches.step (w : Watches k s) (g : Snapshot fd s) (hp : Private threadId s a)
    (h : (lts threadId k fd).step s a t) : Watches k t := by
  cases step_effect g h with
  | loop | handleEvent => exact ⟨w.added, w.reading, w.room⟩
  | poll => exact ⟨w.added, w.reading, Nat.lt_of_lt_of_le w.room (EpollPoller.le_growEvents ..)⟩
  | @channel a x =>
    have hsame : (EpollPoller.place fd s.poller a.channel x).channel .wakeup = s.poller.channel .wakeup :=
      Function.update_of_ne (Ne.symm hp) ..
    exact ⟨by rw [hsame]; exact w.added, by rw [hsame]; exact w.reading, w.room⟩

theorem Watches.init (h : (lts threadId k fd).init s) : Watches k s := by
  obtain ⟨-, hroom, -, p, hp, henable⟩ := h
  have hnew : (p.channel .wakeup).index = EpollPoller.kNew := hp.2.2.2 .wakeup
  have m : EpollPoller.Mirror fd p := EpollPoller.mirror_of_init hp
  have hstep : (EpollPoller.lts k fd).step p (.enableReading .wakeup) s.poller := congrArg some henable
  obtain ⟨-, hplace⟩ := EpollPoller.step_ok_place m hstep
  have hchannel : s.poller.channel .wakeup = ⟨(p.channel .wakeup).events ||| k.kReadEvent,
      EpollPoller.nextIndex k (p.channel .wakeup).index ((p.channel .wakeup).events ||| k.kReadEvent)⟩ := by
    rw [hplace]
    exact Function.update_self (Ready.wakeup : Ready C) _ p.channel
  refine ⟨?_, ?_, by rw [hroom]; decide⟩
  · have hno : ¬ (EpollPoller.kNew = EpollPoller.kAdded ∧
        (p.channel .wakeup).events ||| k.kReadEvent = k.kNoneEvent) := fun h => absurd h.1 (by decide)
    rw [hchannel, hnew]
    simp only [EpollPoller.nextIndex, if_neg hno]
  · rw [hchannel]
    ext i hi
    simp only [BitVec.getElem_and, BitVec.getElem_or]
    cases (p.channel .wakeup).events[i] <;> cases k.kReadEvent[i] <;> rfl

theorem watches_of_reachable (h : ((lts threadId k fd).restrict (Private threadId)).Reachable s) :
    Snapshot fd s ∧ Watches k s := by
  refine h.invariant (I := fun u => Snapshot fd u ∧ Watches k u) ?_ ?_
  · intro u hu
    have hi : (lts threadId k fd).init u := hu
    exact ⟨snapshot_of_reachable (.init hi), .init hi⟩
  · intro u a v ⟨g, w⟩ hs
    exact ⟨g.step hs.2, w.step g hs.1 hs.2⟩

theorem Watches.poll (w : Watches k s) (g : Snapshot fd s) (hp : s.loop.phase = .poll) (hpos : 0 < s.loop.wakeupFd) :
    ∃ t, (lts threadId k fd).step s (.poll [fd .wakeup]) t ∧ t.loop.phase = .dispatch [.wakeup] := by
  have hwait : EpollPoller.epollWait s.poller.epollfd s.room [fd .wakeup] = some [.wakeup] := by
    have hroom : [fd .wakeup].length ≤ s.room := w.room
    unfold EpollPoller.epollWait
    rw [if_pos ⟨List.nodup_singleton _, hroom⟩]
    simp [w.interest g]
  have hfill := (EpollPoller.epollWait_eq_some g.mirror hwait).1
  obtain ⟨l, hl, hdispatch⟩ : ∃ l, EventLoop.step threadId s.loop (.poll [.wakeup]) = some l ∧
      l.phase = .dispatch [.wakeup] := by
    simp [EventLoop.step, hp, hpos]
  refine ⟨{ s with loop := l, room := EpollPoller.growEvents s.room 1, dispatched := [] }, ?_, hdispatch⟩
  simp only [lts, Dispatch.step, hwait, hfill, hl]
  rfl

/-! ## The whole way -/

/-- **From a push to its functor**: the kernel watches the wakeup descriptor for reading; while the loop thread polls
and functors are pending, another thread is about to write to it, or the poller may return with its channel; and
whatever else happens, all that was pushed is started before the poller returns twice, and from a poll before the
next while test. -/
theorem wakeup_reaches (h : ((lts threadId k fd).restrict (Private threadId)).Reachable s) :
    (∃ events, s.poller.epollfd (fd .wakeup) = some ⟨events, .wakeup⟩ ∧ events &&& k.kReadEvent = k.kReadEvent) ∧
    (s.loop.phase = .poll → s.loop.pendingFunctors ≠ [] →
      (∃ th ≠ threadId, s.loop.call th = .queueing) ∨
      0 < s.loop.wakeupFd ∧
        ∃ t, (lts threadId k fd).step s (.poll [fd .wakeup]) t ∧ t.loop.phase = .dispatch [.wakeup]) ∧
    ∀ tr t, (lts threadId k fd).Run s tr t →
      (2 ≤ tr.countP Act.isPoll → s.loop.pushed <+: t.loop.executed) ∧
      (s.loop.phase.WillSwap → t.loop.phase = .test ∨ t.loop.phase = .exited → s.loop.pushed <+: t.loop.executed) := by
  obtain ⟨g, w⟩ := watches_of_reachable h
  obtain ⟨l, hl, -, rfl⟩ := loop_simulation.reachable h
  have o := EventLoop.reachable_inOrder hl.of_restrict
  refine ⟨⟨_, w.interest g, w.reading⟩, ?_, ?_⟩
  · intro hp hne
    rcases (EventLoop.attended_of_reachable hl).woken (by rw [hp]; rfl) hne with hpos | ⟨th, hq, hc⟩
    · exact .inr ⟨hpos, w.poll g hp hpos⟩
    · refine .inl ⟨th, ?_, hq⟩
      intro he
      have hcalling := hc he
      rw [hp] at hcalling
      cases hcalling
  · intro tr t hr
    obtain ⟨tr', hr', hn⟩ := run_loop hr g
    exact ⟨fun hpolls => EventLoop.run_pushed hr' o (hn ▸ hpolls), EventLoop.run_starts hr' o⟩

theorem wakeup_reaches_poll : ∃ s t : State Bool Nat Bool, s.loop.pendingFunctors = [7] ∧
    (lts true EpollPoller.pollFlags sharedFd).step s (.poll [3]) t ∧ t.loop.phase = .dispatch [.wakeup] ∧
    ∀ tr u, (lts true EpollPoller.pollFlags sharedFd).Run s tr u → u.loop.phase = .test → [7] <+: u.loop.executed := by
  have turn : ∀ {s : State Bool Nat Bool} {l} a,
      ((lts true EpollPoller.pollFlags sharedFd).restrict (Private true)).Reachable s → inLoop a = true →
      (∀ cb, a ≠ .queueInLoop true cb) → EventLoop.step true s.loop a = some l →
      ((lts true EpollPoller.pollFlags sharedFd).restrict (Private true)).Reachable { s with loop := l } := by
    intro s l a h ha hq hl
    exact h.step (a := .loop a) ⟨fun _ => hq, step_of_loop ha hl⟩
  have h₁ := turn .loop (.init init_started) rfl (by simp) rfl
  have h₂ := turn .clearQuit h₁ rfl (by simp) rfl
  have h₃ := turn .test h₂ rfl (by simp) rfl
  have h₄ := turn (.queueInLoop false 7) h₃ rfl (by simp) rfl
  have h₅ := turn (.endQueueInLoop false) h₄ rfl (by simp) rfl
  obtain ⟨-, hpoll, hrun⟩ := wakeup_reaches h₅
  rcases hpoll rfl (List.cons_ne_nil _ _) with ⟨th, hth, hq⟩ | ⟨-, t, ht, hdispatch⟩
  · cases th with
    | true => exact absurd rfl hth
    | false => cases hq
  · exact ⟨_, t, rfl, ht, hdispatch, fun tr u hr hu => (hrun tr u hr).2 (.inl rfl) (.inl hu)⟩

end Dispatch

end MyLearning
