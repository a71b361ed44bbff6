import MyLearning.MyMuduo.ConnectorMoves
import MyLearning.MyMuduo.Connectors
import MyLearning.MyMuduo.DispatchWakeup
import MyLearning.MyMuduo.EventLoopThreadEffect

/-!
# What a step of a connector does to the loop

Before a function of a connector runs, the loop queues its functor, takes it out of its vector or comes to the
channel in the active list, or does nothing; then it does what the function asks for. Both go through.
-/

namespace MyLearning

/-! ## The loop alone -/

namespace Dispatch

variable {T F C : Type} [DecidableEq T] {threadId : T} {flags : EventFlags} {fd : Ready C → Int}
  {s t : State T F C} {a : Act T F C}

theorem eventHandling_of_effect {l l' : EventLoop.State T F C} {b : EventLoop.Act T F C}
    (h : EventLoop.Effect threadId l b l') (g : l.eventHandling = true → (todo l.phase).isSome = true) :
    l'.eventHandling = true → (todo l'.phase).isSome = true := by
  have lowered : ∀ {p}, l.phase = p → todo p = none → l.eventHandling = true → False := by
    intro p hp hn hh
    have hsome := g hh
    rw [hp, hn] at hsome
    cases hsome
  cases h with
  | queueInLoop | runHere | runInLoop | quit | wakeup => exact g
  | @endQueueInLoop th _ =>
    obtain ⟨n, -, hw⟩ := EventLoop.wakeupAfterPush_eq threadId l th
    rw [hw]
    exact g
  | @endQuit th _ =>
    obtain ⟨n, -, hw⟩ := EventLoop.wakeupAfterQuit_eq threadId l th
    rw [hw]
    exact g
  | loop hp | clearQuit hp | exit hp | again hp | swap hp | runFunctor hp | endFunctor hp | endRound hp =>
    exact fun hh => (lowered hp rfl hh).elim
  | poll | handleRead | handleEvent | endHandle => exact fun _ => rfl
  | doPendingFunctors => exact fun hh => by cases hh

/-- The loop thread is in no call while it is in its own code, and the flag is down outside the dispatch. -/
structure Paced (threadId : T) (fd : Ready C → Int) (s : State T F C) : Prop where
  snapshot : Snapshot fd s
  calm : EventLoop.Calm threadId s.loop
  handling : s.loop.eventHandling = true → (todo s.loop.phase).isSome = true

variable [DecidableEq C]

theorem Paced.step (g : Paced threadId fd s) (h : (lts threadId flags fd).step s a t) : Paced threadId fd t := by
  rcases step_loop g.snapshot h with ⟨b, hb, -, -⟩ | ⟨he, -⟩
  · have he := EventLoop.step_effect hb
    exact ⟨g.snapshot.step h, he.calm g.calm, eventHandling_of_effect he g.handling⟩
  · refine ⟨g.snapshot.step h, ?_, ?_⟩ <;> rw [he]
    · exact g.calm
    · exact g.handling

theorem Paced.init (h : (lts threadId flags fd).init s) : Paced threadId fd s := by
  refine ⟨snapshot_of_reachable (.init h), ?_, ?_⟩
  · rw [h.1]
    exact fun hc => absurd rfl hc
  · rw [h.1]
    exact fun hh => by cases hh

theorem paced_of_reachable (h : (lts threadId flags fd).Reachable s) : Paced threadId fd s :=
  h.invariant (fun _ h => .init h) fun _ _ _ g h => g.step h

/-! ### The calls of a connector -/

section
variable {c : Ready C} (g : Snapshot fd s) (hu : s.loop.phase.inUser = true) (hi : s.loop.call threadId = .idle)
include g hu hi

theorem step_change {b : EpollPoller.Act (Ready C)} {events : BitVec 32}
    (hb : EpollPoller.step flags fd s.poller b = some (EpollPoller.change flags fd s.poller c events))
    (hremove : ∀ d, b ≠ .remove d) (hfree : EpollPoller.Free fd s.poller c) :
    (lts threadId flags fd).step s (.channel b) { s with
      poller := EpollPoller.place fd s.poller c
        ⟨events, EpollPoller.nextIndex flags (s.poller.channel c).index events⟩ } := by
  simp only [lts, Dispatch.step, hu, hi, and_self, if_true]
  simp only [updateChannel, hb, EpollPoller.change_eq g.mirror hfree]
  rfl

theorem step_remove (hreg : s.poller.channels (fd c) = some c)
    (hnone : EpollPoller.isNoneEvent flags s.poller c = true)
    (hassert : s.loop.eventHandling = true →
      s.loop.currentActivceChannel = some c ∨ c ∉ s.loop.activeChannel) :
    (lts threadId flags fd).step s (.channel (.remove c)) { s with
      poller := EpollPoller.place fd s.poller c ⟨(s.poller.channel c).events, EpollPoller.kNew⟩ } := by
  simp only [lts, Dispatch.step, hu, hi, and_self, if_true, removeChannel, check_pos hassert, ok_bind,
    EpollPoller.removeChannel_eq g.mirror hreg hnone]
  rfl

end

end Dispatch

/-! ## What a step of a connector asks of the loop -/

namespace Connectors

open Connector (Move)

variable {T κ F C : Type}

def ofConnector [DecidableEq κ] (k : κ) : Functor κ F → Option Connector.PendingFunctor
  | .connector j f => if j = k then some f else none
  | .other _ => none

def queueOf [DecidableEq κ] (k : κ) (l : EventLoop.State T (Functor κ F) (Chan κ C)) : List Connector.PendingFunctor :=
  (l.phase.rest ++ l.pendingFunctors).filterMap (ofConnector k)

def pushedOf [DecidableEq κ] (k : κ) (l : EventLoop.State T (Functor κ F) (Chan κ C)) : List Connector.PendingFunctor :=
  l.pushed.filterMap (ofConnector k)

theorem chan_inj {j k : κ} {m n : Nat} (h : (chan j m : Ready (Chan κ C)) = chan k n) : j = k ∧ m = n := by
  cases h
  exact ⟨rfl, rfl⟩

theorem inUser_phase {s : State T κ F C} (h : inUser s = true) : s.sys.loop.phase.inUser = true := by
  unfold inUser at h
  split at h
  · rename_i hp
    rw [hp]
    rfl
  · cases h
  · exact h

theorem asks_same (threadId : T) (k : κ) (x : Option Connector.Channel) :
    (asks threadId k x x : List (LoopAct T κ F C)) = [] := by
  cases x with
  | none => rfl
  | some c =>
    obtain ⟨n, r⟩ := c
    cases r <;> rfl

variable [DecidableEq κ] {threadId : T} {k : κ}

/-- The loop in `d`, where it has done what comes before the step `b` of the connector `k`. -/
structure Before (threadId : T) (s : State T κ F C) (k : κ) (b : Connector.Act) (d : Loop T κ F C) : Prop where
  poller : d.poller = s.sys.poller
  queue : ∀ j, queueOf j d.loop = if j = k then b.left (queueOf k s.sys.loop) ++ b.queued else queueOf j s.sys.loop
  pushed : ∀ j, pushedOf j d.loop = pushedOf j s.sys.loop ++ if j = k then b.queued else []
  user : b.queued = [] → d.loop.phase.inUser = true ∧ d.loop.call threadId = .idle
  keeps : ∀ c l, s.sys.loop.phase = .handling c l → d.loop.phase = s.sys.loop.phase
  enters : ∀ c l, d.loop.phase = .handling c l → s.sys.loop.phase = .handling c l ∨
    (∃ callbacks, b = .handleEvent callbacks) ∧ s.sys.loop.phase = .dispatch (.channel c :: l)
  own : b.isCallback = true ∨ (∃ callbacks, b = .handleEvent callbacks) →
    ∃ n l, d.loop.phase = .handling (.connector k n) l
  functor : b.isRunFunctor = true → Dispatch.todo d.loop.phase = none

theorem Before.refl {s : State T κ F C} {b : Connector.Act} (hb : ∀ q, b.left q ++ b.queued = q)
    (hu : b.queued = [] → s.sys.loop.phase.inUser = true ∧ s.sys.loop.call threadId = .idle)
    (hown : b.isCallback = true → ∃ n l, s.sys.loop.phase = .handling (.connector k n) l)
    (hevent : ∀ callbacks, b ≠ .handleEvent callbacks) (hrun : b.isRunFunctor = false) :
    Before threadId s k b s.sys where
  poller := rfl
  queue j := by
    split
    · rename_i hj
      rw [hj, hb]
    · rfl
  pushed j := by
    have hqueued : b.queued = [] := (List.append_eq_nil_iff.mp (hb [])).2
    rw [hqueued, ite_self, List.append_nil]
  user := hu
  keeps _ _ _ := rfl
  enters _ _ h := .inl h
  own h := h.elim hown fun ⟨callbacks, he⟩ => absurd he (hevent callbacks)
  functor h := by rw [hrun] at h; cases h

theorem filterMap_connector (j k : κ) (f : Connector.PendingFunctor) :
    ([.connector k f] : List (Functor κ F)).filterMap (ofConnector j) = if j = k then [f] else [] := by
  by_cases hj : j = k
  · simp [hj, ofConnector]
  · simp [hj, ofConnector, Ne.symm hj]

variable [DecidableEq T]

theorem queueOf_push (l : EventLoop.State T (Functor κ F) (Chan κ C)) (th : T) (j k : κ)
    (f : Connector.PendingFunctor) :
    queueOf j (EventLoop.setCall (EventLoop.push l (.connector k f)) th .queueing) =
      queueOf j l ++ if j = k then [f] else [] := by
  simp only [queueOf, EventLoop.setCall, EventLoop.push, ← List.append_assoc, List.filterMap_append,
    filterMap_connector]

theorem pushedOf_push (l : EventLoop.State T (Functor κ F) (Chan κ C)) (th : T) (j k : κ)
    (f : Connector.PendingFunctor) :
    pushedOf j (EventLoop.setCall (EventLoop.push l (.connector k f)) th .queueing) =
      pushedOf j l ++ if j = k then [f] else [] := by
  simp only [pushedOf, EventLoop.setCall, EventLoop.push, List.filterMap_append, filterMap_connector]

variable [DecidableEq C] {flags : EventFlags} {fd : Ready (Chan κ C) → Int}

theorem perform_eq {d d' : Loop T κ F C} {tr : List (LoopAct T κ F C)} :
    perform threadId flags fd d tr = some (.ok d') ↔ (Dispatch.lts threadId flags fd).Run d tr d' := by
  induction tr generalizing d with
  | nil =>
    constructor
    · intro h
      cases h
      exact .nil _
    · intro h
      cases h
      rfl
  | cons a tr ih =>
    constructor
    · intro h
      unfold perform at h
      split at h
      · rename_i u hu
        exact .cons hu (ih.mp h)
      · rename_i hno
        exact absurd h (hno d')
    · intro h
      cases h with
      | cons hs hr =>
        have hs : Dispatch.step threadId flags fd d a = some (.ok _) := hs
        unfold perform
        rw [hs]
        exact ih.mpr hr

section
variable {d : Loop T κ F C} {n : Nat} (g : Dispatch.Snapshot fd d) (hu : d.loop.phase.inUser = true)
  (hi : d.loop.call threadId = .idle)
include g hu hi

variable (flags) in
theorem connecting_run (hfree : EpollPoller.Free fd d.poller (chan k n)) :
    ∃ p, (Dispatch.lts threadId flags fd).Run d [.channel (.enableWriting (chan k n))] { d with poller := p } ∧
      (p.channel (chan k n)).index ≠ EpollPoller.kNew ∧ ∀ c, c ≠ chan k n → p.channel c = d.poller.channel c := by
  refine ⟨_, .single (Dispatch.step_change (b := .enableWriting (chan k n)) g hu hi rfl (by simp) hfree), ?_, ?_⟩
  · simp only [EpollPoller.place, Function.update_self, EpollPoller.nextIndex]
    split <;> decide
  · intro c hc
    exact Function.update_of_ne hc ..

variable (flags) in
theorem release_run (hreg : (d.poller.channel (chan k n)).index ≠ EpollPoller.kNew)
    (hassert : d.loop.eventHandling = true →
      d.loop.currentActivceChannel = some (chan k n) ∨ chan k n ∉ d.loop.activeChannel) :
    ∃ p, (Dispatch.lts threadId flags fd).Run d
        [.channel (.disableAll (chan k n)), .channel (.remove (chan k n)),
          .loop (.queueInLoop threadId (.connector k .resetChannel))]
        { d with
          poller := p
          loop := EventLoop.setCall (EventLoop.push d.loop (.connector k .resetChannel)) threadId .queueing } ∧
      (p.channel (chan k n)).index = EpollPoller.kNew ∧ ∀ c, c ≠ chan k n → p.channel c = d.poller.channel c := by
  have hfree := g.mirror.free_of_registered hreg
  let x : Channel :=
    ⟨flags.kNoneEvent, EpollPoller.nextIndex flags (d.poller.channel (chan k n)).index flags.kNoneEvent⟩
  have h₁ : (Dispatch.lts threadId flags fd).step d (.channel (.disableAll (chan k n)))
      { d with poller := EpollPoller.place fd d.poller (chan k n) x } :=
    Dispatch.step_change (b := .disableAll (chan k n)) g hu hi rfl (by simp) hfree
  have g₁ := g.step h₁
  have hx : (EpollPoller.place fd d.poller (chan k n) x).channel (chan k n) = x := Function.update_self ..
  have hnew : x.index ≠ EpollPoller.kNew := by
    simp only [x, EpollPoller.nextIndex]
    split <;> decide
  have hnone : EpollPoller.isNoneEvent flags (EpollPoller.place fd d.poller (chan k n) x) (chan k n) = true := by
    unfold EpollPoller.isNoneEvent
    rw [hx]
    exact beq_self_eq_true _
  have hreg₁ := g₁.mirror.channels_some (c := chan k n) (by rw [hx]; exact hnew)
  have h₂ := Dispatch.step_remove (T := T) g₁ hu hi hreg₁ hnone hassert
  have hcall : EventLoop.step threadId d.loop (.queueInLoop threadId (.connector k .resetChannel)) =
      some (EventLoop.setCall (EventLoop.push d.loop (.connector k .resetChannel)) threadId .queueing) :=
    if_pos (EventLoop.canCall_iff.mpr ⟨hi, fun _ => hu⟩)
  refine ⟨_, .cons h₁ (.cons h₂ (.single (Dispatch.step_of_loop rfl hcall))), ?_, ?_⟩
  · simp only [EpollPoller.place, Function.update_self]
  · intro c hc
    exact (Function.update_of_ne hc ..).trans (Function.update_of_ne hc ..)

end

variable (flags) in
theorem asks_run {d : Loop T κ F C} {x y : Connector.State} {b : Connector.Act} (g : Dispatch.Snapshot fd d)
    (hreg : ∀ n, (d.poller.channel (chan k n)).index ≠ EpollPoller.kNew ↔ x.channel = some ⟨n, true⟩)
    (hm : Move x b y) (hu : b.queued = [] → d.loop.phase.inUser = true ∧ d.loop.call threadId = .idle)
    (hfree : x.created < y.created → EpollPoller.Free fd d.poller (chan k x.created))
    (hassert : ∀ n, x.channel = some ⟨n, true⟩ → b.isRunFunctor = true ∨ b.isCallback = true →
      d.loop.eventHandling = true →
      d.loop.currentActivceChannel = some (chan k n) ∨ chan k n ∉ d.loop.activeChannel) :
    ∃ e q, (Dispatch.lts threadId flags fd).Run d (asks threadId k x.channel y.channel) e ∧
      e.loop.phase = d.loop.phase ∧
      (∀ n, (e.poller.channel (chan k n)).index ≠ EpollPoller.kNew ↔ y.channel = some ⟨n, true⟩) ∧
      (∀ c, (∀ n, c ≠ chan k n) → e.poller.channel c = d.poller.channel c) ∧
      (∀ j, queueOf j e.loop = queueOf j d.loop ++ if j = k then q else []) ∧
      (∀ j, pushedOf j e.loop = pushedOf j d.loop ++ if j = k then q else []) ∧
      y.pendingFunctors = b.left x.pendingFunctors ++ b.queued ++ q := by
  cases hm with
  | same hc hq =>
    refine ⟨d, [], ?_, rfl, fun n => by rw [hc]; exact hreg n, fun _ _ => rfl, by simp, by simp, by simpa using hq⟩
    rw [hc, asks_same]
    exact .nil d
  | connecting hc hc' hlt hb hq =>
    obtain ⟨hu, hi⟩ := hu hb
    obtain ⟨p, hr, hnew, hother⟩ := connecting_run flags g hu hi (hfree hlt)
    refine ⟨{ d with poller := p }, [], by rw [hc, hc']; exact hr, rfl, ?_, fun c h => hother c (h _), by simp,
      by simp, by simp [hb, hq]⟩
    intro n
    rw [hc', Option.some.injEq, Connector.Channel.mk.injEq, and_iff_left rfl]
    by_cases hn : x.created = n
    · subst hn
      exact iff_of_true hnew rfl
    · refine iff_of_false ?_ hn
      rw [hother _ fun h => hn (chan_inj h).2.symm, hreg, hc]
      simp
  | released m hc hc' hb ha hq =>
    obtain ⟨hu, hi⟩ := hu hb
    obtain ⟨p, hr, hnew, hother⟩ := release_run flags g hu hi ((hreg m).mpr hc) (hassert m hc ha)
    refine ⟨{ d with
      poller := p
      loop := EventLoop.setCall (EventLoop.push d.loop (.connector k .resetChannel)) threadId .queueing },
      [.resetChannel], by rw [hc, hc']; exact hr, rfl, ?_, fun c h => hother c (h _), fun _ => queueOf_push ..,
      fun _ => pushedOf_push .., by simp [hb, hq]⟩
    · intro n
      refine iff_of_false ?_ (by simp [hc'])
      by_cases hn : n = m
      · subst hn
        exact not_not.mpr hnew
      · rw [hother _ fun h => hn (chan_inj h).2, hreg, hc]
        simp [Ne.symm hn]
  | reset m hc hc' hb _ hq =>
    refine ⟨d, [], ?_, rfl, ?_, fun _ _ => rfl, by simp, by simp, by simp [hb, hq]⟩
    · rw [hc, hc']
      exact .nil d
    · intro n
      rw [hreg, hc, hc']
      simp

/-! ## What the loop does before -/

theorem Before.queueInLoop {s : State T κ F C} {th : T} {b : Connector.Act} {f : Connector.PendingFunctor}
    (hcall : EventLoop.canCall threadId s.sys.loop th = true) (hb : ∀ q, b.left q = q) (hq : b.queued = [f])
    (hown : b.isCallback = false) (hevent : ∀ callbacks, b ≠ .handleEvent callbacks) (hrun : b.isRunFunctor = false) :
    ∃ d, (Dispatch.lts threadId flags fd).Run s.sys [.loop (.queueInLoop th (.connector k f))] d ∧
      Before threadId s k b d := by
  have hl : EventLoop.step threadId s.sys.loop (.queueInLoop th (.connector k f)) =
      some (EventLoop.setCall (EventLoop.push s.sys.loop (.connector k f)) th .queueing) := if_pos hcall
  refine ⟨_, .single (Dispatch.step_of_loop rfl hl), rfl, ?_, ?_, ?_, fun _ _ _ => rfl, fun _ _ h => .inl h, ?_, ?_⟩
  · intro j
    rw [hb, hq, queueOf_push]
    by_cases hj : j = k <;> simp [hj]
  · intro j
    rw [hq, pushedOf_push]
  · rw [hq]
    exact fun h => by cases h
  · rintro (h | ⟨callbacks, h⟩)
    · rw [hown] at h
      cases h
    · exact absurd h (hevent callbacks)
  · intro h
    rw [hrun] at h
    cases h

theorem Before.runFunctor {s : State T κ F C} {f : Connector.PendingFunctor} {rest : List (Functor κ F)}
    (g : Dispatch.Paced threadId fd s.sys) (hphase : s.sys.loop.phase = .running (.connector k f :: rest))
    (e : Connector.SavedError) :
    ∃ d, (Dispatch.lts threadId flags fd).Run s.sys [.loop .runFunctor] d ∧ Before threadId s k (.runFunctor e) d := by
  have hl : EventLoop.step threadId s.sys.loop .runFunctor = some { s.sys.loop with
      executed := s.sys.loop.executed ++ [.connector k f], phase := .inFunctor (.connector k f) rest } := by
    simp only [EventLoop.step, hphase]
  have hidle := g.calm.idle (by rw [hphase]; rfl)
  refine ⟨_, .single (Dispatch.step_of_loop rfl hl), rfl, ?_, ?_, fun _ => ⟨rfl, hidle⟩, ?_, ?_, ?_, fun _ => rfl⟩
  · intro j
    simp only [queueOf, hphase, EventLoop.Phase.rest, List.cons_append, Connector.Act.left, Connector.Act.queued]
    by_cases hj : j = k
    · simp [hj, ofConnector]
    · simp [hj, ofConnector, Ne.symm hj]
  · intro j
    simp [pushedOf, Connector.Act.queued]
  · intro c l h
    rw [hphase] at h
    cases h
  · intro c l h
    cases h
  · rintro (h | ⟨callbacks, h⟩) <;> cases h

theorem Before.handleEvent {s : State T κ F C} {n : Nat} {l : List (Ready (Chan κ C))}
    (g : Dispatch.Paced threadId fd s.sys) (hphase : s.sys.loop.phase = .dispatch (chan k n :: l))
    (callbacks : List Connector.Callback) :
    ∃ d, (Dispatch.lts threadId flags fd).Run s.sys [.handleEvent] d ∧
      Before threadId s k (.handleEvent callbacks) d := by
  have hs : (Dispatch.lts threadId flags fd).step s.sys .handleEvent { s.sys with
      loop := { s.sys.loop with
        currentActivceChannel := some (.channel (.connector k n)), phase := .handling (.connector k n) l }
      dispatched := s.sys.dispatched ++ [chan k n] } := by
    simp only [Dispatch.lts, Dispatch.step, Dispatch.upcoming, EventLoop.step, hphase, chan]
    rfl
  have hidle := g.calm.idle (by rw [hphase]; rfl)
  refine ⟨_, .single hs, rfl, ?_, ?_, fun _ => ⟨rfl, hidle⟩, ?_, ?_, fun _ => ⟨n, l, rfl⟩, ?_⟩
  · intro j
    simp only [queueOf, hphase, EventLoop.Phase.rest, Connector.Act.left, Connector.Act.queued, List.append_nil]
    split
    · rename_i hj
      rw [hj]
    · rfl
  · intro j
    simp [pushedOf, Connector.Act.queued]
  · intro c m h
    rw [hphase] at h
    cases h
  · intro c m h
    cases h
    exact .inr ⟨⟨callbacks, rfl⟩, hphase⟩
  · intro h
    cases h

variable (flags) in
theorem part_before {s : State T κ F C} {a : Act T κ F C} {b : Connector.Act} {first : List (LoopAct T κ F C)}
    (g : Dispatch.Paced threadId fd s.sys) (hp : part threadId s a = some (k, b, first)) :
    ∃ d, (Dispatch.lts threadId flags fd).Run s.sys first d ∧ Before threadId s k b d := by
  cases a with
  | start th j =>
    simp only [part, Option.ite_none_right_eq_some, Option.some.injEq, Prod.mk.injEq] at hp
    obtain ⟨hcall, rfl, rfl, rfl⟩ := hp
    exact Before.queueInLoop hcall (fun _ => rfl) rfl rfl (by simp) rfl
  | stop th j =>
    simp only [part, Option.ite_none_right_eq_some, Option.some.injEq, Prod.mk.injEq] at hp
    obtain ⟨hcall, rfl, rfl, rfl⟩ := hp
    exact Before.queueInLoop hcall (fun _ => rfl) rfl rfl (by simp) rfl
  | restart j e =>
    simp only [part, Option.ite_none_right_eq_some, Option.some.injEq, Prod.mk.injEq] at hp
    obtain ⟨⟨hu, hi⟩, rfl, rfl, rfl⟩ := hp
    exact ⟨_, .nil _, .refl (fun q => List.append_nil q) (fun _ => ⟨inUser_phase hu, hi⟩)
      (by simp [Connector.Act.isCallback]) (by simp) rfl⟩
  | runFunctor e =>
    simp only [part] at hp
    split at hp
    · rename_i j f rest hphase
      cases hp
      exact Before.runFunctor g hphase e
    · cases hp
  | runTimer j i e =>
    simp only [part] at hp
    split at hp
    · rename_i c l hphase
      simp only [Option.ite_none_right_eq_some, Option.some.injEq, Prod.mk.injEq] at hp
      obtain ⟨hi, rfl, rfl, rfl⟩ := hp
      exact ⟨_, .nil _, .refl (fun q => List.append_nil q) (fun _ => ⟨by rw [hphase]; rfl, hi⟩)
        (by simp [Connector.Act.isCallback]) (by simp) rfl⟩
    · cases hp
  | handleEvent callbacks =>
    simp only [part] at hp
    split at hp
    · rename_i j n l hphase
      cases hp
      exact Before.handleEvent g hphase callbacks
    · cases hp
  | callback err self =>
    simp only [part] at hp
    split at hp
    · rename_i j n l hphase
      simp only [Option.ite_none_right_eq_some, Option.some.injEq, Prod.mk.injEq] at hp
      obtain ⟨hi, rfl, rfl, rfl⟩ := hp
      exact ⟨_, .nil _, .refl (fun q => List.append_nil q) (fun _ => ⟨by rw [hphase]; rfl, hi⟩)
        (fun _ => ⟨n, l, hphase⟩) (by simp) rfl⟩
    · cases hp
  | endUser =>
    simp only [part] at hp
    split at hp
    · rename_i j n l hphase
      simp only [Option.ite_none_right_eq_some, Option.some.injEq, Prod.mk.injEq] at hp
      obtain ⟨hi, rfl, rfl, rfl⟩ := hp
      exact ⟨_, .nil _, .refl (fun q => List.append_nil q) (fun _ => ⟨by rw [hphase]; rfl, hi⟩)
        (fun _ => ⟨n, l, hphase⟩) (by simp) rfl⟩
    · cases hp
  | plain a => cases hp

end Connectors

end MyLearning
