import Mathlib.Data.List.Nodup
import MyLearning.MyMuduo.EpollMirror
import MyLearning.MyMuduo.EventLoopEffect

/-!
# Dispatch

The loop thread polls, which fills `activeChannel_` with the channels the kernel
reports, and then calls `handleEvent` on each of them. The callbacks run in between
and may change and remove channels, so the list is only as good as the assertion of
`EventLoop::removeChannel`. The system is the event loop together with its poller;
the channels are the one of the wakeup descriptor and any others.

Which descriptors are ready is an argument of `poll`. Two channels may have the same
descriptor, one after the other. `dispatched` records the channels on which
`handleEvent` was called since the last poll; no function reads it.
-/

namespace MyLearning

/-! ## Polling -/

namespace EpollPoller

variable {ι : Type} [DecidableEq ι] (fd : ι → Int)

def kInitEventListSize : Nat := 16

/-- `epoll_wait`: entries of the interest list with different descriptors, at most as
many as there is room for. -/
def epollWait (l : InterestList ι) (room : Nat) (ready : List Int) : Option (List ι) :=
  if ready.Nodup ∧ ready.length ≤ room then ready.mapM fun f => (l f).map (·.data) else none

def fillActiveChannels (s : State ι) : List ι → Except Fault (List ι)
  | [] => .ok []
  | c :: events => do
    check (s.channels (fd c) ≠ none)
    check (s.channels (fd c) = some c)
    let activeChannels ← fillActiveChannels s events
    return c :: activeChannels

def growEvents (room numEvents : Nat) : Nat := if 0 < numEvents ∧ numEvents = room then room * 2 else room

end EpollPoller

namespace Dispatch

open EventLoop (Phase)

structure State (T F C : Type) where
  loop : EventLoop.State T F C
  poller : EpollPoller.State (Ready C)
  room : Nat
  dispatched : List (Ready C)

inductive Act (T F C : Type) where
  | loop (a : EventLoop.Act T F C)
  | poll (ready : List Int)
  | handleEvent
  | channel (a : EpollPoller.Act (Ready C))

variable {T F C : Type} [DecidableEq T] [DecidableEq C] (threadId : T) (k : EventFlags) (fd : Ready C → Int)

def removeChannel (s : State T F C) (c : Ready C) : Except Fault (State T F C) := do
  check (s.loop.eventHandling = true → s.loop.currentActivceChannel = some c ∨ c ∉ s.loop.activeChannel)
  let p ← EpollPoller.removeChannel k fd s.poller c
  return { s with poller := p }

/-- The functions of `Channel` that change its events, through `EventLoop::updateChannel`. -/
def updateChannel (s : State T F C) (a : EpollPoller.Act (Ready C)) : Option (Except Fault (State T F C)) :=
  (EpollPoller.step k fd s.poller a).map fun r => r.map fun p => { s with poller := p }

def upcoming : Phase F C → Option (Ready C)
  | .dispatch (c :: _) => some c
  | _ => none

/-- Steps of the loop that poll or call `handleEvent` are actions of their own. -/
def inLoop : EventLoop.Act T F C → Bool
  | .poll _ | .handleEvent => false
  | _ => true

def step (s : State T F C) : Act T F C → Option (Except Fault (State T F C))
  | .loop a =>
    if inLoop a then (EventLoop.step threadId s.loop a).map fun l => .ok { s with loop := l } else none
  | .poll ready =>
    match EpollPoller.epollWait s.poller.epollfd s.room ready with
    | none => none
    | some events =>
      match EpollPoller.fillActiveChannels fd s.poller events with
      | .error f => some (.error f)
      | .ok active =>
        (EventLoop.step threadId s.loop (.poll active)).map fun l =>
          .ok { s with loop := l, room := EpollPoller.growEvents s.room ready.length, dispatched := [] }
  | .handleEvent =>
    match upcoming s.loop.phase with
    | none => none
    | some c =>
      (EventLoop.step threadId s.loop .handleEvent).map fun l =>
        .ok { s with loop := l, dispatched := s.dispatched ++ [c] }
  | .channel a =>
    if s.loop.phase.inUser = true ∧ s.loop.call threadId = .idle then
      match a with
      | .remove c => some (removeChannel k fd s c)
      | a => updateChannel k fd s a
    else none

/-- The constructor of the loop enables its wakeup channel. -/
def lts : Lts (State T F C) (Act T F C) where
  init s := s.loop = EventLoop.initial ∧ s.room = EpollPoller.kInitEventListSize ∧ s.dispatched = [] ∧
    ∃ p, (EpollPoller.lts k fd).init p ∧ EpollPoller.enableReading k fd p .wakeup = .ok s.poller
  step s a t := step threadId k fd s a = some (.ok t)

/-! ## Events -/

end Dispatch

namespace EpollPoller

variable {ι : Type} [DecidableEq ι] {fd : ι → Int}

theorem fillActiveChannels_eq {s : State ι} (m : Mirror fd s) : ∀ {ready : List Int} {events : List ι},
    (ready.mapM fun f => (s.epollfd f).map (·.data)) = some events →
    fillActiveChannels fd s events = .ok events ∧ events.map fd = ready ∧ ∀ c ∈ events, s.channels (fd c) = some c
  | [], events, h => by
    cases h
    exact ⟨rfl, rfl, fun c hc => by cases hc⟩
  | f :: ready, events, h => by
    simp only [List.mapM_cons, Option.bind_eq_bind, Option.bind_eq_some_iff, Option.map_eq_some_iff,
      Option.pure_def, Option.some.injEq] at h
    obtain ⟨c, ⟨e, he, rfl⟩, events', h', rfl⟩ := h
    obtain ⟨hfill, hmap, hmem⟩ := fillActiveChannels_eq m h'
    obtain ⟨hf, ha, -⟩ := (m.interest f e).mp he
    have hc : s.channels (fd e.data) = some e.data := m.channels_some (by rw [ha]; decide)
    refine ⟨?_, by simp [hf, hmap], ?_⟩
    · unfold fillActiveChannels
      rw [hc, check_pos (Option.some_ne_none _), check_pos rfl, hfill]
      rfl
    · intro d hd
      rcases List.mem_cons.mp hd with rfl | hd
      · exact hc
      · exact hmem d hd

theorem epollWait_eq_some {s : State ι} {room : Nat} {ready : List Int} {events : List ι} (m : Mirror fd s)
    (h : epollWait s.epollfd room ready = some events) :
    fillActiveChannels fd s events = .ok events ∧ events.map fd = ready ∧ events.Nodup ∧
      ∀ c ∈ events, s.channels (fd c) = some c := by
  simp only [epollWait, Option.ite_none_right_eq_some] at h
  obtain ⟨hfill, hmap, hmem⟩ := fillActiveChannels_eq m h.2
  exact ⟨hfill, hmap, List.Nodup.of_map fd (hmap ▸ h.1.1), hmem⟩

end EpollPoller

namespace Dispatch

open EventLoop (Phase)

variable {T F C : Type} {threadId : T} {k : EventFlags} {fd : Ready C → Int}

/-! ## The active list while it is worked off -/

def todo : Phase F C → Option (List (Ready C))
  | .dispatch todo | .handling _ todo => some todo
  | _ => none

structure Snapshot (fd : Ready C → Int) (s : State T F C) : Prop where
  mirror : EpollPoller.Mirror fd s.poller
  handling : ∀ l, todo s.loop.phase = some l → s.loop.eventHandling = true
  active : ∀ l, todo s.loop.phase = some l → s.loop.activeChannel = s.dispatched ++ l
  nodup : ∀ l, todo s.loop.phase = some l → s.loop.activeChannel.Nodup
  registered : ∀ l, todo s.loop.phase = some l → ∀ c ∈ l, s.poller.channels (fd c) = some c
  current : ∀ c l, s.loop.phase = .handling c l →
    s.loop.currentActivceChannel = some (.channel c) ∧ .channel c ∈ s.dispatched

theorem Snapshot.frame {s : State T F C} (g : Snapshot fd s) {l : EventLoop.State T F C}
    (hphase : l.phase = s.loop.phase) (hhandling : l.eventHandling = s.loop.eventHandling)
    (hactive : l.activeChannel = s.loop.activeChannel)
    (hcurrent : l.currentActivceChannel = s.loop.currentActivceChannel) : Snapshot fd { s with loop := l } where
  mirror := g.mirror
  handling := by simp only [hphase, hhandling]; exact g.handling
  active := by simp only [hphase, hactive]; exact g.active
  nodup := by simp only [hphase, hactive]; exact g.nodup
  registered := by simp only [hphase]; exact g.registered
  current := by simp only [hphase, hcurrent]; exact g.current

theorem Snapshot.outside {s : State T F C} (g : Snapshot fd s) {l : EventLoop.State T F C}
    (hphase : todo l.phase = none) : Snapshot fd { s with loop := l } where
  mirror := g.mirror
  handling m hm := by rw [hphase] at hm; cases hm
  active m hm := by rw [hphase] at hm; cases hm
  nodup m hm := by rw [hphase] at hm; cases hm
  registered m hm := by rw [hphase] at hm; cases hm
  current c m hm := by
    have hm : l.phase = .handling c m := hm
    rw [hm] at hphase
    cases hphase

theorem Snapshot.place [DecidableEq C] {s : State T F C} (g : Snapshot fd s) {c : Ready C} {x : Channel}
    (hfree : EpollPoller.Free fd s.poller c)
    (hx : x.index = EpollPoller.kNew ∨ x.index = EpollPoller.kAdded ∨ x.index = EpollPoller.kDeleted)
    (hkeep : x.index = EpollPoller.kNew → ∀ l, todo s.loop.phase = some l → c ∉ l) :
    Snapshot fd { s with poller := EpollPoller.place fd s.poller c x } := by
  refine ⟨g.mirror.place hfree hx, g.handling, g.active, g.nodup, ?_, g.current⟩
  intro l hl d hd
  have hreg := g.registered l hl d hd
  simp only [EpollPoller.place]
  by_cases hfd : fd d = fd c
  · -- a channel with this descriptor is `c`, which is not removed while it is still to come
    have hdc : d = c := hfree d ((g.mirror.channels _ d).mp hreg).2 hfd
    subst hdc
    have hn : x.index ≠ EpollPoller.kNew := fun h => hkeep h l hl hd
    rw [Function.update_self, EpollPoller.registered, if_neg hn]
  · rw [Function.update_of_ne hfd]
    exact hreg

theorem handling_of_inUser {phase : Phase F C} {l : List (Ready C)} (hu : phase.inUser = true)
    (hl : todo phase = some l) : ∃ d, phase = .handling d l := by
  cases phase with
  | handling d rest => cases hl; exact ⟨d, rfl⟩
  | dispatch => cases hu
  | _ => cases hl

theorem Snapshot.removeChannel [DecidableEq C] {s t : State T F C} {c : Ready C} (g : Snapshot fd s)
    (hu : s.loop.phase.inUser = true) (h : removeChannel k fd s c = .ok t) : Snapshot fd t := by
  obtain ⟨hassert, h⟩ := check_bind_eq_ok.mp h
  obtain ⟨p, hp, h⟩ := bind_eq_ok.mp h
  cases h
  obtain ⟨hreg, hnone⟩ := EpollPoller.removeChannel_eq_ok hp
  have hfree := g.mirror.free_of_registered ((g.mirror.channels _ c).mp hreg).2
  rw [EpollPoller.removeChannel_eq g.mirror hreg hnone] at hp
  cases hp
  refine g.place hfree (.inl rfl) fun _ l hl hc => ?_
  have hactive : s.loop.activeChannel = s.dispatched ++ l := g.active l hl
  have hdisjoint := List.disjoint_of_nodup_append (hactive ▸ g.nodup l hl)
  rcases hassert (g.handling l hl) with hcur | hcur
  · -- a callback removes its own channel, which is behind the front of the list
    obtain ⟨d, hd⟩ := handling_of_inUser hu hl
    obtain ⟨hd, hmem⟩ := g.current d l hd
    rw [hcur] at hd
    cases hd
    exact hdisjoint hmem hc
  · exact hcur (by rw [hactive]; exact List.mem_append_right _ hc)

variable [DecidableEq T]

theorem Snapshot.loop {s : State T F C} (g : Snapshot fd s) {a : EventLoop.Act T F C} {l : EventLoop.State T F C}
    (ha : inLoop a = true) (h : EventLoop.Effect threadId s.loop a l) : Snapshot fd { s with loop := l } := by
  cases h with
  | queueInLoop | runHere | runInLoop | quit | wakeup => exact g.frame rfl rfl rfl rfl
  | @endQueueInLoop th _ =>
    obtain ⟨n, -, hw⟩ := EventLoop.wakeupAfterPush_eq threadId s.loop th
    rw [hw]
    exact g.frame rfl rfl rfl rfl
  | @endQuit th _ =>
    obtain ⟨n, -, hw⟩ := EventLoop.wakeupAfterQuit_eq threadId s.loop th
    rw [hw]
    exact g.frame rfl rfl rfl rfl
  | poll | handleRead | handleEvent => cases ha
  | @endHandle _ rest hp _ =>
    have ht : todo s.loop.phase = some rest := by rw [hp]; rfl
    have hl : ∀ l, some rest = some l → todo s.loop.phase = some l := fun l h => ht.trans h
    exact ⟨g.mirror, fun l h => g.handling l (hl l h), fun l h => g.active l (hl l h), fun l h => g.nodup l (hl l h),
      fun l h => g.registered l (hl l h), fun c l h => by cases h⟩
  | loop | clearQuit | exit | again | doPendingFunctors | swap | runFunctor | endFunctor | endRound =>
    exact g.outside rfl

theorem Snapshot.poll {s : State T F C} (g : Snapshot fd s) {active : List (Ready C)} {l : EventLoop.State T F C}
    {room : Nat} (hnodup : active.Nodup) (hreg : ∀ c ∈ active, s.poller.channels (fd c) = some c)
    (h : EventLoop.Effect threadId s.loop (.poll active) l) :
    Snapshot fd { s with loop := l, room := room, dispatched := [] } := by
  cases h with
  | poll =>
    refine ⟨g.mirror, fun _ _ => rfl, ?_, fun _ _ => hnodup, ?_, fun _ _ h => by cases h⟩
    · intro m hm
      cases hm
      rfl
    · intro m hm
      cases hm
      exact hreg

theorem Snapshot.handleEvent {s : State T F C} (g : Snapshot fd s) {c : Ready C} {l : EventLoop.State T F C}
    (hc : upcoming s.loop.phase = some c) (h : EventLoop.Effect threadId s.loop .handleEvent l) :
    Snapshot fd { s with loop := l, dispatched := s.dispatched ++ [c] } := by
  have next : ∀ rest, todo s.loop.phase = some (c :: rest) → todo l.phase = some rest →
      l.eventHandling = s.loop.eventHandling → l.activeChannel = s.loop.activeChannel →
      (∀ d m, l.phase = .handling d m → l.currentActivceChannel = some (.channel d) ∧ c = .channel d) →
      Snapshot fd { s with loop := l, dispatched := s.dispatched ++ [c] } := by
    intro rest hs hl hh ha hcur
    have hrest : ∀ m, todo l.phase = some m → m = rest := fun m hm => Option.some.inj (hm.symm.trans hl)
    refine ⟨g.mirror, fun m _ => hh.trans (g.handling _ hs), ?_, fun m _ => ?_, ?_, ?_⟩
    · intro m hm
      rw [hrest m hm]
      simp only [ha, g.active _ hs, List.append_assoc, List.singleton_append]
    · simp only [ha]
      exact g.nodup _ hs
    · intro m hm d hd
      rw [hrest m hm] at hd
      exact g.registered _ hs d (List.mem_cons_of_mem _ hd)
    · intro d m hm
      obtain ⟨h₁, h₂⟩ := hcur d m hm
      exact ⟨h₁, by simp [h₂]⟩
  cases h with
  | @handleRead rest hp =>
    have hcw : c = .wakeup := by
      rw [hp] at hc
      exact (Option.some.inj hc).symm
    subst hcw
    exact next rest (by rw [hp]; rfl) rfl rfl rfl fun d m h => by cases h
  | @handleEvent d rest hp =>
    have hcd : c = .channel d := by
      rw [hp] at hc
      exact (Option.some.inj hc).symm
    subst hcd
    refine next rest (by rw [hp]; rfl) rfl rfl rfl fun d' m h => ?_
    cases h
    exact ⟨rfl, rfl⟩

theorem loop_effect {l l' : EventLoop.State T F C} {a : EventLoop.Act T F C}
    (h : EventLoop.step threadId l a = some l') : EventLoop.Effect threadId l a l' := EventLoop.step_effect h

variable [DecidableEq C]

theorem Snapshot.step {s t : State T F C} {a : Act T F C} (g : Snapshot fd s) (h : (lts threadId k fd).step s a t) :
    Snapshot fd t := by
  cases a with
  | loop a =>
    simp only [lts, Dispatch.step, Option.ite_none_right_eq_some, Option.map_eq_some_iff, Except.ok.injEq] at h
    obtain ⟨ha, l, hl, rfl⟩ := h
    exact g.loop ha (loop_effect hl)
  | poll ready =>
    simp only [lts, Dispatch.step] at h
    split at h
    · cases h
    · rename_i events hwait
      obtain ⟨hfill, -, hnodup, hreg⟩ := EpollPoller.epollWait_eq_some g.mirror hwait
      rw [hfill] at h
      simp only [Option.map_eq_some_iff, Except.ok.injEq] at h
      obtain ⟨l, hl, rfl⟩ := h
      exact g.poll hnodup hreg (loop_effect hl)
  | handleEvent =>
    simp only [lts, Dispatch.step] at h
    split at h
    · cases h
    · rename_i c hc
      simp only [Option.map_eq_some_iff, Except.ok.injEq] at h
      obtain ⟨l, hl, rfl⟩ := h
      exact g.handleEvent hc (loop_effect hl)
  | channel a =>
    simp only [lts, Dispatch.step, Option.ite_none_right_eq_some] at h
    obtain ⟨⟨hu, -⟩, h⟩ := h
    split at h
    · exact g.removeChannel hu (Option.some.inj h)
    · rename_i hne
      simp only [updateChannel, Option.map_eq_some_iff, map_eq_ok] at h
      obtain ⟨r, hr, p, rfl, rfl⟩ := h
      obtain ⟨hfree, rfl⟩ := EpollPoller.step_ok_place g.mirror hr
      refine g.place hfree (a.index_valid k s.poller) fun hnew => ?_
      cases a with
      | remove c => exact absurd rfl (hne c)
      | _ =>
        simp only [EpollPoller.Act.index, EpollPoller.nextIndex] at hnew
        split at hnew <;> cases hnew

theorem snapshot_of_reachable {s : State T F C} (h : (lts threadId k fd).Reachable s) : Snapshot fd s := by
  refine h.invariant (fun s hs => ?_) fun s a t g hs => g.step hs
  obtain ⟨hloop, -, -, p, hp, henable⟩ := hs
  have m := EpollPoller.mirror_of_init hp
  have hstep : (EpollPoller.lts k fd).step p (.enableReading .wakeup) s.poller := congrArg some henable
  obtain ⟨hfree, hplace⟩ := EpollPoller.step_ok_place m hstep
  have m : EpollPoller.Mirror fd s.poller := hplace ▸ m.place hfree (EpollPoller.Act.index_valid k p (.enableReading .wakeup))
  have hnone : ∀ l, todo s.loop.phase ≠ some l := by
    rw [hloop]
    exact fun l h => by cases h
  refine ⟨m, fun l h => absurd h (hnone l), fun l h => absurd h (hnone l), fun l h => absurd h (hnone l),
    fun l h => absurd h (hnone l), fun c l h => ?_⟩
  rw [hloop] at h
  cases h

/-! ## One iteration -/

theorem step_active {s t : State T F C} {a : Act T F C} (h : (lts threadId k fd).step s a t)
    (hp : ∀ ready, a ≠ .poll ready) {l : List (Ready C)} (hl : todo t.loop.phase = some l) :
    (∃ m, todo s.loop.phase = some m) ∧ t.loop.activeChannel = s.loop.activeChannel := by
  cases a with
  | loop a =>
    simp only [lts, step, Option.ite_none_right_eq_some, Option.map_eq_some_iff, Except.ok.injEq] at h
    obtain ⟨ha, l', he, rfl⟩ := h
    cases loop_effect he with
    | queueInLoop | runHere | runInLoop | quit | wakeup => exact ⟨⟨l, hl⟩, rfl⟩
    | @endQueueInLoop th _ =>
      obtain ⟨n, -, hw⟩ := EventLoop.wakeupAfterPush_eq threadId s.loop th
      rw [hw] at hl ⊢
      exact ⟨⟨l, hl⟩, rfl⟩
    | @endQuit th _ =>
      obtain ⟨n, -, hw⟩ := EventLoop.wakeupAfterQuit_eq threadId s.loop th
      rw [hw] at hl ⊢
      exact ⟨⟨l, hl⟩, rfl⟩
    | poll | handleRead | handleEvent => cases ha
    | @endHandle _ rest hph _ => exact ⟨⟨rest, by rw [hph]; rfl⟩, rfl⟩
    | loop | clearQuit | exit | again | doPendingFunctors | swap | runFunctor | endFunctor | endRound => cases hl
  | poll ready => exact absurd rfl (hp ready)
  | handleEvent =>
    simp only [lts, step] at h
    split at h
    · cases h
    · simp only [Option.map_eq_some_iff, Except.ok.injEq] at h
      obtain ⟨l', he, rfl⟩ := h
      cases loop_effect he with
      | handleRead hph | handleEvent hph => exact ⟨⟨_, by rw [hph]; rfl⟩, rfl⟩
  | channel a =>
    have hsame : t.loop = s.loop := by
      simp only [lts, step, Option.ite_none_right_eq_some] at h
      obtain ⟨-, h⟩ := h
      split at h
      · obtain ⟨-, h⟩ := check_bind_eq_ok.mp (Option.some.inj h)
        obtain ⟨p, -, h⟩ := bind_eq_ok.mp h
        cases h
        rfl
      · simp only [updateChannel, Option.map_eq_some_iff, map_eq_ok] at h
        obtain ⟨r, -, p, -, rfl⟩ := h
        rfl
    rw [hsame] at hl ⊢
    exact ⟨⟨l, hl⟩, rfl⟩

theorem run_active {s t : State T F C} {tr : List (Act T F C)} (h : (lts threadId k fd).Run s tr t)
    (hp : ∀ a ∈ tr, ∀ ready, a ≠ .poll ready) {l : List (Ready C)} (hl : todo t.loop.phase = some l) :
    (∃ m, todo s.loop.phase = some m) ∧ t.loop.activeChannel = s.loop.activeChannel := by
  induction h with
  | nil _ => exact ⟨⟨l, hl⟩, rfl⟩
  | cons hs _ ih =>
    obtain ⟨⟨m, hm⟩, he⟩ := ih (fun a ha => hp a (List.mem_cons_of_mem _ ha)) hl
    obtain ⟨hm, he'⟩ := step_active hs (hp _ (List.mem_cons_self ..)) hm
    exact ⟨hm, he.trans he'⟩

theorem poll_active {s t : State T F C} {ready : List Int} (g : Snapshot fd s)
    (h : (lts threadId k fd).step s (.poll ready) t) :
    EpollPoller.epollWait s.poller.epollfd s.room ready = some t.loop.activeChannel := by
  simp only [lts, step] at h
  split at h
  · cases h
  · rename_i events hwait
    rw [(EpollPoller.epollWait_eq_some g.mirror hwait).1] at h
    simp only [Option.map_eq_some_iff, Except.ok.injEq] at h
    obtain ⟨l, he, rfl⟩ := h
    cases loop_effect he
    exact hwait

/-- Whatever the callbacks do: **every channel is registered where `handleEvent` is
called on it, and an iteration calls it once on each channel the kernel reported**, in
that order; nor does an assertion fail while the active list is filled. -/
theorem dispatch_registered :
    (∀ s : State T F C, (lts threadId k fd).Reachable s → ∀ c t, upcoming s.loop.phase = some c →
      (lts threadId k fd).step s .handleEvent t → s.poller.channels (fd c) = some c) ∧
    (∀ (s t u : State T F C) ready tr, (lts threadId k fd).Reachable s → (lts threadId k fd).step s (.poll ready) t →
      (lts threadId k fd).Run t tr u → (∀ a ∈ tr, ∀ ready, a ≠ .poll ready) → u.loop.phase = .dispatch [] →
      EpollPoller.epollWait s.poller.epollfd s.room ready = some u.dispatched ∧ u.dispatched.Nodup) ∧
    ∀ s : State T F C, (lts threadId k fd).Reachable s → ∀ ready f, step threadId k fd s (.poll ready) ≠ some (.error f) := by
  refine ⟨?_, ?_, ?_⟩
  · intro s h c t hc _
    have g := snapshot_of_reachable h
    cases hp : s.loop.phase with
    | dispatch l =>
      rw [hp] at hc
      cases l with
      | nil => cases hc
      | cons d l =>
        cases hc
        exact g.registered _ (by rw [hp]; rfl) _ (List.mem_cons_self ..)
    | _ => rw [hp] at hc; cases hc
  · intro s t u ready tr h hpoll hr hno hu
    have htodo : todo u.loop.phase = some [] := by rw [hu]; rfl
    have gu := snapshot_of_reachable ((h.step hpoll).run hr)
    have hlist : u.loop.activeChannel = u.dispatched := (gu.active _ htodo).trans (List.append_nil _)
    rw [← hlist, (run_active hr hno htodo).2]
    exact ⟨poll_active (snapshot_of_reachable h) hpoll, (run_active hr hno htodo).2 ▸ gu.nodup _ htodo⟩
  · intro s h ready f hf
    have g := snapshot_of_reachable h
    simp only [step] at hf
    split at hf
    · cases hf
    · rename_i events hwait
      rw [(EpollPoller.epollWait_eq_some g.mirror hwait).1] at hf
      simp at hf

/-! ## Evaluation -/

def next (threadId : T) (k : EventFlags) (fd : Ready C → Int) (s : State T F C) (a : Act T F C) : Option (State T F C) :=
  (step threadId k fd s a).bind Except.toOption

theorem next_eq_some {s t : State T F C} {a : Act T F C} (h : next threadId k fd s a = some t) :
    (lts threadId k fd).step s a t := by
  obtain ⟨r, hr, ht⟩ := Option.bind_eq_some_iff.mp h
  cases r with
  | error f => cases ht
  | ok u => cases ht; exact hr

open EpollPoller (pollFlags)

/-- Two channels with one descriptor, beside the wakeup channel. -/
def sharedFd : Ready Bool → Int
  | .wakeup => 3
  | .channel _ => 4

def started : State Bool Nat Bool where
  loop := EventLoop.initial
  poller := EpollPoller.place sharedFd (EpollPoller.fresh _) .wakeup ⟨pollFlags.kReadEvent, EpollPoller.kAdded⟩
  room := EpollPoller.kInitEventListSize
  dispatched := []

theorem init_started : (lts true pollFlags sharedFd).init started := by
  have m : EpollPoller.Mirror sharedFd _ := EpollPoller.mirror_of_init (k := pollFlags) EpollPoller.init_fresh
  refine ⟨rfl, rfl, rfl, EpollPoller.fresh _, EpollPoller.init_fresh, ?_⟩
  refine (EpollPoller.change_eq m ?_ _).trans rfl
  intro d hd
  exact absurd rfl hd

/-- A callback removes its own channel and registers the next one of the descriptor. -/
theorem dispatch_registered_replaced : ∃ u : State Bool Nat Bool, u.dispatched = [.channel false] ∧
    u.dispatched.Nodup ∧ u.poller.channels 4 = some (.channel true) := by
  have hrun : ((Lts.exec (next true pollFlags sharedFd) started [.channel (.enableReading (.channel false)),
      .loop .loop, .loop .clearQuit, .loop .test]).bind fun s =>
        (next true pollFlags sharedFd s (.poll [4])).bind fun t =>
          (Lts.exec (next true pollFlags sharedFd) t [.handleEvent, .channel (.disableAll (.channel false)),
            .channel (.remove (.channel false)), .channel (.enableReading (.channel true)), .loop .endHandle]).map
              fun u => (u.loop.phase, u.dispatched, u.poller.channels 4)) =
        some (.dispatch [], [.channel false], some (.channel true)) := by decide +kernel
  obtain ⟨s, hs, h⟩ := Option.bind_eq_some_iff.mp hrun
  obtain ⟨t, ht, h⟩ := Option.bind_eq_some_iff.mp h
  obtain ⟨u, hu, h⟩ := Option.map_eq_some_iff.mp h
  simp only [Prod.mk.injEq] at h
  have hr : (lts true pollFlags sharedFd).Reachable s :=
    ⟨started, _, init_started, Lts.run_of_exec (fun _ _ _ h => next_eq_some h) hs⟩
  have hd := dispatch_registered.2.1 s t u [4] _ hr (next_eq_some ht)
    (Lts.run_of_exec (fun _ _ _ h => next_eq_some h) hu) (by simp) h.1
  exact ⟨u, h.2.1, hd.2, h.2.2⟩

end Dispatch

end MyLearning
