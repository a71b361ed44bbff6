import MyLearning.MyMuduo.ConnectorsEffect

/-!
# The channels of connectors are live

The poller, the kernel and the loop keep plain pointers to channels. A connector removes its channel before it
closes the socket, and leaves the channel to a functor that destroys it behind the dispatch. So every
pointer to a connector's channel is to one that the connector still has, although descriptors are
used again.
-/

namespace MyLearning.Connectors

variable {T κ F C : Type} [DecidableEq κ] {threadId : T} {k : κ} [DecidableEq T] [DecidableEq C] {flags : EventFlags}
  {fd : Ready (Chan κ C) → Int}

/-! ## The invariant -/

/-- What the loop and the poller hold of the connectors is what these have. -/
structure Inv (threadId : T) (flags : EventFlags) (fd : Ready (Chan κ C) → Int) (s : State T κ F C) : Prop where
  sys : (Dispatch.lts threadId flags fd).Reachable s.sys
  conn : ∀ k, Connector.lts.Reachable (s.conn k)
  registered : ∀ k n, (s.sys.poller.channel (chan k n)).index ≠ EpollPoller.kNew ↔ (s.conn k).channel = some ⟨n, true⟩
  handling : ∀ k n l, s.sys.loop.phase = .handling (.connector k n) l → ∃ r, (s.conn k).channel = some ⟨n, r⟩
  busy : ∀ k, Connector.Busy (s.conn k) → ∃ n l, s.sys.loop.phase = .handling (.connector k n) l
  queue : ∀ k, (s.conn k).pendingFunctors = queueOf k s.sys.loop

theorem Inv.paced {s : State T κ F C} (g : Inv threadId flags fd s) : Dispatch.Paced threadId fd s.sys :=
  Dispatch.paced_of_reachable g.sys

theorem Inv.init {s : State T κ F C} (h : (lts threadId flags fd).init s) : Inv threadId flags fd s := by
  obtain ⟨hsys, hconn⟩ := h
  have hnew : ∀ k n, (s.sys.poller.channel (chan k n)).index = EpollPoller.kNew := by
    intro k n
    obtain ⟨-, -, -, p, hp, henable⟩ := hsys
    have m : EpollPoller.Mirror fd p := EpollPoller.mirror_of_init hp
    have hstep : (EpollPoller.lts flags fd).step p (.enableReading .wakeup) s.sys.poller := congrArg some henable
    rw [(EpollPoller.step_ok_place m hstep).2]
    have hne : (chan k n : Ready (Chan κ C)) ≠ .wakeup := by simp [chan]
    simp only [EpollPoller.place, EpollPoller.Act.channel, Function.update_of_ne hne]
    exact hp.2.2.2 _
  refine ⟨.init hsys, ?_, ?_, ?_, ?_, ?_⟩
  · intro k
    rw [hconn]
    exact .init rfl
  · intro k n
    rw [hconn]
    exact iff_of_false (not_not.mpr (hnew k n)) (by simp [Connector.initial])
  · intro k n l h
    rw [hsys.1] at h
    cases h
  · intro k h
    rw [hconn] at h
    rcases h with h | h
    · exact absurd rfl h
    · cases h
  · intro k
    rw [hconn, hsys.1]
    rfl

theorem Inv.free {s : State T κ F C} (g : Inv threadId flags fd s) (h : Unused fd s k) :
    EpollPoller.Free fd s.sys.poller (chan k (s.conn k).created) := by
  intro c hc he
  cases hother : isOther c with
  | true => exact absurd he (h.others c hother (g.paced.snapshot.mirror.channels_some hc))
  | false =>
    unfold isOther at hother
    split at hother
    · rename_i j n
      -- a registered channel of a connector is that of an open socket
      have hopen := (Connector.sockets_of_reachable (g.conn j)).opened n ((g.registered j n).mp hc)
      exact absurd he (h.sockets j n hopen)
    · cases hother

section
variable {s : State T κ F C} {b : Connector.Act} {d : Loop T κ F C} (g : Inv threadId flags fd s)
  (hb : Before threadId s k b d)
include g hb

theorem Inv.owner {j : κ} {n : Nat} {l : List (Ready (Chan κ C))} (h : d.loop.phase = .handling (.connector j n) l) :
    ∃ r, (s.conn j).channel = some ⟨n, r⟩ := by
  rcases hb.enters _ l h with h | ⟨-, h⟩
  · exact g.handling j n l h
  · have hreg := g.paced.snapshot.registered _ (by rw [h]; rfl) (chan j n) (by simp [chan])
    exact ⟨true, (g.registered j n).mp ((g.paced.snapshot.mirror.channels _ _).mp hreg).2⟩

theorem Inv.removable (gd : Dispatch.Paced threadId fd d) {n : Nat} (hn : (s.conn k).channel = some ⟨n, true⟩)
    (ha : b.isRunFunctor = true ∨ b.isCallback = true) (hh : d.loop.eventHandling = true) :
    d.loop.currentActivceChannel = some (chan k n) ∨ chan k n ∉ d.loop.activeChannel := by
  rcases ha with ha | ha
  · -- a functor runs behind the dispatch
    have htodo := gd.handling hh
    rw [hb.functor ha] at htodo
    cases htodo
  · -- a callback removes the channel it is called from
    obtain ⟨m, l, hl⟩ := hb.own (.inl ha)
    obtain ⟨r, hm⟩ := g.owner hb hl
    rw [hn] at hm
    cases hm
    exact .inl (gd.snapshot.current _ l hl).1

end

/-- **A step of a connector**: it goes through in the loop. -/
theorem Inv.part_step {s : State T κ F C} {a : Act T κ F C} {b : Connector.Act} {first : List (LoopAct T κ F C)}
    {c : Connector.State} (g : Inv threadId flags fd s) (hp : part threadId s a = some (k, b, first))
    (hc : Connector.lts.step (s.conn k) b c) (hun : (s.conn k).created < c.created → Unused fd s k) :
    ∃ e, (Dispatch.lts threadId flags fd).Run s.sys (first ++ asks threadId k (s.conn k).channel c.channel) e ∧
      Inv threadId flags fd ⟨e, Function.update s.conn k c⟩ ∧
      ∃ q, c.pendingFunctors = b.left (s.conn k).pendingFunctors ++ q ∧
        ∀ j, pushedOf j e.loop = pushedOf j s.sys.loop ++ if j = k then q else [] := by
  -- the loop comes to the connector, and then does what the connector asks of it
  obtain ⟨d, hr, hb⟩ := part_before flags g.paced hp
  have he := Connector.step_effect hc
  have hm := he.move (Connector.shape_of_reachable (g.conn k))
  have gd := Dispatch.paced_of_reachable (g.sys.run hr)
  have hregd : ∀ n, (d.poller.channel (chan k n)).index ≠ EpollPoller.kNew ↔ (s.conn k).channel = some ⟨n, true⟩ := by
    rw [hb.poller]
    exact g.registered k
  have hfree : (s.conn k).created < c.created → EpollPoller.Free fd d.poller (chan k (s.conn k).created) := by
    rw [hb.poller]
    exact fun h => g.free (hun h)
  obtain ⟨e, q, hr', hphase, hreg, hother, hqueue, hpushed, hpending⟩ :=
    asks_run flags gd.snapshot hregd hm hb.user hfree fun n hn ha hh => g.removable hb gd hn ha hh
  refine ⟨e, hr.append hr', ⟨(g.sys.run hr).run hr', ?_, ?_, ?_, ?_, ?_⟩, b.queued ++ q, ?_, ?_⟩
  · intro j
    by_cases hj : j = k
    · subst hj
      simp only [Function.update_self]
      exact (g.conn j).step hc
    · simp only [Function.update_of_ne hj]
      exact g.conn j
  · intro j n
    by_cases hj : j = k
    · subst hj
      simp only [Function.update_self]
      exact hreg n
    · simp only [Function.update_of_ne hj]
      rw [hother _ fun m h => hj (chan_inj h).1, hb.poller]
      exact g.registered j n
  · intro j n l h
    have hd : d.loop.phase = .handling (.connector j n) l := hphase.symm.trans h
    obtain ⟨r, hown⟩ := g.owner hb hd
    by_cases hj : j = k
    · subst hj
      simp only [Function.update_self]
      refine hm.channel hown (Bool.eq_false_iff.mpr fun hrun => ?_)
      have htodo := hb.functor hrun
      rw [hd] at htodo
      cases htodo
    · simp only [Function.update_of_ne hj]
      exact ⟨r, hown⟩
  · intro j hbusy
    have before : Connector.Busy (s.conn j) → ∃ n l, e.loop.phase = .handling (.connector j n) l := by
      intro hbusy
      obtain ⟨n, l, h⟩ := g.busy j hbusy
      exact ⟨n, l, hphase.trans ((hb.keeps _ l h).trans h)⟩
    by_cases hj : j = k
    · subst hj
      simp only [Function.update_self] at hbusy
      -- the callbacks are still to come as before, or this step begins or ends one
      by_cases hown : b.isCallback = true ∨ ∃ callbacks, b = .handleEvent callbacks
      · obtain ⟨n, l, h⟩ := hb.own hown
        exact ⟨n, l, hphase.trans h⟩
      · obtain ⟨hcallback, hevent⟩ := not_or.mp hown
        exact before (he.busy (Bool.eq_false_iff.mpr hcallback) (not_exists.mp hevent) hbusy)
    · simp only [Function.update_of_ne hj] at hbusy
      exact before hbusy
  · intro j
    have hq := (hqueue j).trans (congrArg (· ++ _) (hb.queue j))
    by_cases hj : j = k
    · subst hj
      simp only [Function.update_self]
      rw [hq, hpending, g.queue j]
      simp
    · simp only [Function.update_of_ne hj]
      rw [hq, g.queue j]
      simp [hj]
  · rw [hpending, List.append_assoc]
  · intro j
    rw [hpushed, hb.pushed]
    by_cases hj : j = k <;> simp [hj]

/-! ## The other steps of the loop -/

omit [DecidableEq C] in
theorem queueOf_plain {s : State T κ F C} {b : EventLoop.Act T (Functor κ F) (Chan κ C)}
    {l : EventLoop.State T (Functor κ F) (Chan κ C)} (hp : plain s (.loop b) = true)
    (h : EventLoop.Effect threadId s.sys.loop b l) (k : κ) : queueOf k l = queueOf k s.sys.loop := by
  cases h with
  | @queueInLoop th cb _ | @runInLoop th cb _ _ =>
    cases cb with
    | connector => cases hp
    | other f => simp [queueOf, EventLoop.setCall, EventLoop.push, ofConnector]
  | @endQueueInLoop th _ =>
    obtain ⟨n, -, hw⟩ := EventLoop.wakeupAfterPush_eq threadId s.sys.loop th
    rw [hw]
    rfl
  | @endQuit th _ =>
    obtain ⟨n, -, hw⟩ := EventLoop.wakeupAfterQuit_eq threadId s.sys.loop th
    rw [hw]
    rfl
  | runHere | quit | wakeup => rfl
  | loop h | clearQuit h | exit h | again h | poll h | handleRead h | handleEvent h | endHandle h | doPendingFunctors h
  | endFunctor h | endRound h => simp [queueOf, h, EventLoop.Phase.rest, EventLoop.handleRead]
  | swap h => simp [queueOf, h, EventLoop.Phase.rest]
  | @runFunctor f rest h =>
    cases f with
    | connector => simp [plain, h] at hp
    | other f => simp [queueOf, h, EventLoop.Phase.rest, ofConnector, List.filterMap_cons]

omit [DecidableEq κ] [DecidableEq C] in
theorem handling_plain {s : State T κ F C} {b : EventLoop.Act T (Functor κ F) (Chan κ C)}
    {l : EventLoop.State T (Functor κ F) (Chan κ C)} (hp : plain s (.loop b) = true)
    (hevent : b = .handleEvent → plain s .handleEvent = true) (h : EventLoop.Effect threadId s.sys.loop b l) {n : Nat}
    {m : List (Ready (Chan κ C))} :
    (l.phase = .handling (.connector k n) m → s.sys.loop.phase = .handling (.connector k n) m) ∧
      (s.sys.loop.phase = .handling (.connector k n) m →
        l.phase = .handling (.connector k n) m ∨ Connector.InLoop (s.conn k)) := by
  cases h with
  | queueInLoop | runInLoop | runHere | quit | wakeup => exact ⟨id, .inl⟩
  | @endQueueInLoop th _ =>
    obtain ⟨_, -, hw⟩ := EventLoop.wakeupAfterPush_eq threadId s.sys.loop th
    rw [hw]
    exact ⟨id, .inl⟩
  | @endQuit th _ =>
    obtain ⟨_, -, hw⟩ := EventLoop.wakeupAfterQuit_eq threadId s.sys.loop th
    rw [hw]
    exact ⟨id, .inl⟩
  | loop h | clearQuit h | exit h | again h | poll h | handleRead h | doPendingFunctors h | swap h | runFunctor h
  | endFunctor h | endRound h => simp [h]
  | @handleEvent c todo h =>
    have hother := hevent rfl
    cases c with
    | connector => simp [plain, h] at hother
    | other c => simp [h]
  | @endHandle c todo h _ =>
    refine ⟨fun h => (by cases h), fun hk => .inr ?_⟩
    simpa [plain, hk] using hp

theorem Inv.plain_step {s : State T κ F C} {a : LoopAct T κ F C} {d : Loop T κ F C} (g : Inv threadId flags fd s)
    (hp : plain s a = true) (h : (Dispatch.lts threadId flags fd).step s.sys a d) :
    Inv threadId flags fd ⟨d, s.conn⟩ := by
  have loop : ∀ {b l}, plain s (.loop b) = true → (b = .handleEvent → plain s .handleEvent = true) →
      EventLoop.step threadId s.sys.loop b = some l → d.loop = l → d.poller = s.sys.poller →
      Inv threadId flags fd ⟨d, s.conn⟩ := by
    intro b l hp hevent hl hd hpoller
    have he := EventLoop.step_effect hl
    refine ⟨g.sys.step h, g.conn, ?_, ?_, ?_, ?_⟩
    · rw [hpoller]
      exact g.registered
    · rw [hd]
      exact fun k n m h => g.handling k n m ((handling_plain hp hevent he).1 h)
    · rw [hd]
      intro k hbusy
      obtain ⟨n, m, h⟩ := g.busy k hbusy
      rcases (handling_plain hp hevent he).2 h with h | h
      · exact ⟨n, m, h⟩
      · exact absurd h (Connector.busy_iff.mp hbusy)
    · rw [hd]
      exact fun k => (g.queue k).trans (queueOf_plain hp he k).symm
  cases Dispatch.step_effect g.paced.snapshot h with
  | loop ha hl => exact loop hp (fun hb => by rw [hb] at ha; cases ha) hl rfl rfl
  | poll hl => exact loop rfl (fun hb => by cases hb) hl rfl rfl
  | handleEvent _ hl => exact loop rfl (fun _ => hp) hl rfl rfl
  | @channel a x =>
    have hother : isOther a.channel = true := (Bool.and_eq_true_iff.mp hp).2
    refine ⟨g.sys.step h, g.conn, ?_, g.handling, g.busy, g.queue⟩
    intro k n
    have hne : chan k n ≠ a.channel := by
      intro he
      rw [← he] at hother
      cases hother
    simp only [EpollPoller.place, Function.update_of_ne hne]
    exact g.registered k n

theorem step_cases {s t : State T κ F C} {a : Act T κ F C} (h : (lts threadId flags fd).step s a t) :
    (∃ b, a = .plain b ∧ plain s b = true ∧ (Dispatch.lts threadId flags fd).step s.sys b t.sys ∧ t.conn = s.conn) ∨
    ∃ k b first c, part threadId s a = some (k, b, first) ∧ Connector.lts.step (s.conn k) b c ∧
      (Dispatch.lts threadId flags fd).Run s.sys (first ++ asks threadId k (s.conn k).channel c.channel) t.sys ∧
      t.conn = Function.update s.conn k c := by
  cases a with
  | plain a =>
    simp only [lts, Connectors.step, Option.ite_none_right_eq_some, Option.map_eq_some_iff] at h
    obtain ⟨hp, r, hr, h⟩ := h
    cases r with
    | error f => cases h
    | ok d =>
      cases h
      exact .inl ⟨a, rfl, hp, hr, rfl⟩
  | _ =>
    simp only [lts, Connectors.step] at h
    split at h
    · cases h
    · rename_i k b first hp
      split at h
      · cases h
      · cases h
      · rename_i c hc
        simp only [Option.map_eq_some_iff] at h
        obtain ⟨r, hr, h⟩ := h
        cases r with
        | error f => cases h
        | ok d =>
          cases h
          exact .inr ⟨k, b, first, c, hp, hc, perform_eq.mp hr, rfl⟩

theorem run_unique {d e e' : Loop T κ F C} {tr : List (LoopAct T κ F C)}
    (h : (Dispatch.lts threadId flags fd).Run d tr e) (h' : (Dispatch.lts threadId flags fd).Run d tr e') : e = e' :=
  Except.ok.inj (Option.some.inj ((perform_eq.mpr h).symm.trans (perform_eq.mpr h')))

theorem Inv.step {s t : State T κ F C} {a : Act T κ F C} (g : Inv threadId flags fd s) (ho : Opens threadId fd s a)
    (h : (lts threadId flags fd).step s a t) : Inv threadId flags fd t := by
  obtain ⟨d, conn⟩ := t
  rcases step_cases h with ⟨b, -, hp, hb, rfl⟩ | ⟨k, b, first, c, hp, hc, hr, rfl⟩
  · exact g.plain_step hp hb
  · obtain ⟨e, hr', ge, -⟩ := g.part_step hp hc (ho k b first c hp hc)
    cases run_unique hr hr'
    exact ge

theorem inv_of_reachable {s : State T κ F C}
    (h : ((lts threadId flags fd).restrict (Opens threadId fd)).Reachable s) : Inv threadId flags fd s :=
  h.invariant (fun _ h => .init h) fun _ _ _ g hs => g.step hs.1 hs.2

/-! ## Live channels -/

/-- **The channels of connectors are live**: the poller has those that are registered; the kernel has only such, of
sockets that are still open; those yet to come in a dispatch are registered, and the one whose callbacks run is not
destroyed. The loop and every connector take steps of their own systems; the functors of a connector are queued in
the order of its system, it is in callbacks only while its channel is handled, and what a step of it asks of the loop
goes through. -/
theorem channels_live {s : State T κ F C} (h : ((lts threadId flags fd).restrict (Opens threadId fd)).Reachable s) :
    (∀ k n, s.sys.poller.channels (fd (chan k n)) = some (chan k n) ↔ (s.conn k).channel = some ⟨n, true⟩) ∧
    (∀ f events k n, s.sys.poller.epollfd f = some ⟨events, chan k n⟩ →
      f = fd (chan k n) ∧ (s.conn k).channel = some ⟨n, true⟩ ∧ Connector.Open (s.conn k) n) ∧
    (∀ l, Dispatch.todo s.sys.loop.phase = some l → ∀ k n, chan k n ∈ l → (s.conn k).channel = some ⟨n, true⟩) ∧
    (∀ k n l, s.sys.loop.phase = .handling (.connector k n) l → ∃ r, (s.conn k).channel = some ⟨n, r⟩) ∧
    (Dispatch.lts threadId flags fd).Reachable s.sys ∧
    (∀ k, Connector.lts.Reachable (s.conn k) ∧ (s.conn k).pendingFunctors = queueOf k s.sys.loop ∧
      (¬ Connector.InLoop (s.conn k) → ∃ n l, s.sys.loop.phase = .handling (.connector k n) l)) ∧
    ∀ a k b first c, part threadId s a = some (k, b, first) → Connector.step (s.conn k) b = some (.ok c) →
      Opens threadId fd s a → ∃ t, step threadId flags fd s a = some (.ok t) ∧ t.conn = Function.update s.conn k c := by
  have g := inv_of_reachable h
  have m := g.paced.snapshot.mirror
  have hmap : ∀ k n, s.sys.poller.channels (fd (chan k n)) = some (chan k n) ↔ (s.conn k).channel = some ⟨n, true⟩ := by
    intro k n
    rw [m.channels, and_iff_right rfl]
    exact g.registered k n
  refine ⟨hmap, ?_, ?_, g.handling, g.sys, ?_, ?_⟩
  · intro f events k n he
    obtain ⟨hf, hadded, -⟩ := (m.interest f _).mp he
    have hc := (g.registered k n).mp (by rw [hadded]; decide)
    exact ⟨hf.symm, hc, (Connector.sockets_of_reachable (g.conn k)).opened n hc⟩
  · intro l hl k n hc
    exact (hmap k n).mp (g.paced.snapshot.registered l hl _ hc)
  · exact fun k => ⟨g.conn k, g.queue k, fun h => g.busy k (Connector.busy_iff.mpr h)⟩
  · intro a k b first c hp hc ho
    obtain ⟨e, hr, -⟩ := g.part_step hp hc (ho k b first c hp hc)
    have hperform := perform_eq.mpr hr
    cases a with
    | plain => cases hp
    | _ =>
      refine ⟨⟨e, Function.update s.conn k c⟩, ?_, rfl⟩
      simp only [Connectors.step, hp, hc, hperform]
      rfl

/-! ## Evaluation -/

def mayOpen : Act T κ F C → Bool
  | .restart .. | .runFunctor _ | .runTimer .. => true
  | _ => false

omit [DecidableEq κ] [DecidableEq C] in
theorem opens_quiet {s : State T κ F C} {a : Act T κ F C} (ha : mayOpen a = false) : Opens threadId fd s a := by
  intro k b first c hp hc hlt
  have hb : b.mayOpen = false := by
    cases a with
    | restart | runFunctor | runTimer => cases ha
    | plain => cases hp
    | start | stop =>
      simp only [part, Option.ite_none_right_eq_some, Option.some.injEq, Prod.mk.injEq] at hp
      obtain ⟨-, -, rfl, -⟩ := hp
      rfl
    | handleEvent callbacks =>
      simp only [part] at hp
      split at hp
      · cases hp
        rfl
      · cases hp
    | callback | endUser =>
      simp only [part] at hp
      split at hp
      · simp only [Option.ite_none_right_eq_some, Option.some.injEq, Prod.mk.injEq] at hp
        obtain ⟨-, -, rfl, -⟩ := hp
        rfl
      · cases hp
  have he : Connector.Effect (s.conn k) b c := Connector.step_effect hc
  rw [he.created hb] at hlt
  exact absurd hlt (Nat.lt_irrefl _)

def next (threadId : T) (flags : EventFlags) (fd : Ready (Chan κ C) → Int) (s : State T κ F C) (a : Act T κ F C) :
    Option (State T κ F C) :=
  (step threadId flags fd s a).bind Except.toOption

theorem next_eq_some {s t : State T κ F C} {a : Act T κ F C} (h : next threadId flags fd s a = some t) :
    (lts threadId flags fd).step s a t := by
  obtain ⟨r, hr, ht⟩ := Option.bind_eq_some_iff.mp h
  cases r with
  | error f => cases ht
  | ok u => cases ht; exact hr

def quietly (threadId : T) (flags : EventFlags) (fd : Ready (Chan κ C) → Int) (s : State T κ F C) (a : Act T κ F C) :
    Option (State T κ F C) :=
  if mayOpen a = false then next threadId flags fd s a else none

theorem quietly_eq_some {s t : State T κ F C} {a : Act T κ F C} (h : quietly threadId flags fd s a = some t) :
    ((lts threadId flags fd).restrict (Opens threadId fd)).step s a t := by
  obtain ⟨ha, h⟩ := Option.ite_none_right_eq_some.mp h
  exact ⟨opens_quiet ha, next_eq_some h⟩

open EpollPoller (pollFlags)

/-- Two connectors; every socket gets the same descriptor. -/
def reusedFd : Ready (Chan Bool Empty) → Int
  | .wakeup => 3
  | .channel _ => 4

def started : State Bool Bool Nat Empty where
  sys :=
    { loop := EventLoop.initial
      poller := EpollPoller.place reusedFd (EpollPoller.fresh _) .wakeup ⟨pollFlags.kReadEvent, EpollPoller.kAdded⟩
      room := EpollPoller.kInitEventListSize
      dispatched := [] }
  conn _ := Connector.initial

theorem init_started : (lts true pollFlags reusedFd).init started := by
  have m : EpollPoller.Mirror reusedFd _ := EpollPoller.mirror_of_init (k := pollFlags) EpollPoller.init_fresh
  refine ⟨⟨rfl, rfl, rfl, EpollPoller.fresh _, EpollPoller.init_fresh, ?_⟩, rfl⟩
  refine (EpollPoller.change_eq m ?_ _).trans rfl
  intro d hd
  exact absurd rfl hd

theorem opens_reused {s : State Bool Bool Nat Empty} {a : Act Bool Bool Nat Empty}
    (h : ∀ j, ∀ n < (s.conn j).created, n ∈ (s.conn j).closed ++ (s.conn j).passed) : Opens true reusedFd s a := by
  intro k b first c _ _ _
  refine ⟨fun j n hopen => absurd (h j n hopen.1) hopen.2, ?_⟩
  intro c hc _
  cases c with
  | wakeup => exact (by decide : (3 : Int) ≠ 4)
  | channel c =>
    cases c with
    | connector => cases hc
    | other c => exact c.elim

theorem channels_live_reused : ∃ s : State Bool Bool Nat Empty, (s.conn false).channel = some ⟨0, false⟩ ∧
    queueOf false s.sys.loop = [.resetChannel] ∧ s.sys.poller.channels 4 = some (chan true 0) := by
  have hrun : ((next true pollFlags reusedFd started (.restart false .EINPROGRESS)).bind fun s =>
      (Lts.exec (quietly true pollFlags reusedFd) s
          [.plain (.loop (.queueInLoop true (.other 7))), .plain (.loop (.endQueueInLoop true)), .plain (.loop .loop),
            .plain (.loop .clearQuit), .plain (.loop .test), .plain (.poll [4]), .handleEvent [.write],
            .callback true false, .plain (.loop (.endQueueInLoop true)), .plain (.loop .endHandle),
            .plain (.loop .doPendingFunctors), .plain (.loop .swap), .plain (.loop .runFunctor)]).bind fun t =>
        (next true pollFlags reusedFd t (.restart true .EINPROGRESS)).map fun u =>
          (decide (∀ j, ∀ n < (t.conn j).created, n ∈ (t.conn j).closed ++ (t.conn j).passed),
            (u.conn false).channel, (u.conn false).pendingFunctors, (u.conn true).channel)) =
      some (true, some ⟨0, false⟩, [.resetChannel], some ⟨0, true⟩) := by decide +kernel
  obtain ⟨s, hs, h⟩ := Option.bind_eq_some_iff.mp hrun
  obtain ⟨t, ht, h⟩ := Option.bind_eq_some_iff.mp h
  obtain ⟨u, hu, h⟩ := Option.map_eq_some_iff.mp h
  simp only [Prod.mk.injEq, decide_eq_true_eq] at h
  obtain ⟨hclosed, hfalse, hqueue, htrue⟩ := h
  have h₀ : ((lts true pollFlags reusedFd).restrict (Opens true reusedFd)).Reachable started := .init init_started
  have h₁ := h₀.step ⟨opens_reused (fun j n hn => absurd hn (Nat.not_lt_zero n)), next_eq_some hs⟩
  have h₂ := h₁.run (Lts.run_of_exec (fun _ _ _ h => quietly_eq_some h) ht)
  have h₃ := h₂.step ⟨opens_reused hclosed, next_eq_some hu⟩
  obtain ⟨hmap, -, -, -, -, hconn, -⟩ := channels_live h₃
  exact ⟨u, hfalse, (hconn false).2.1.symm.trans hqueue, (hmap true 0).mpr htrue⟩

end MyLearning.Connectors
