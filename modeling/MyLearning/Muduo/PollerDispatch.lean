import Mathlib.Data.List.Nodup
import MyLearning.Muduo.Poller

/-!
# Delivering the events of a poll

`fillActiveChannels` takes the ready entries in order, but only those whose events are
positive as a `short`, and `handleEvent` runs the read callback for `POLLPRI` and
`POLLRDHUP`, where channels subscribe to `POLLIN` and `POLLPRI`. What is ready is
delivered exactly where these come to the same.
-/

namespace MyLearning.Muduo

/-! ## What `poll(2)` returns -/

namespace PollFd

def isReady (p : PollFd) : Bool := p.revents != 0

def isPositive (p : PollFd) : Bool := 0 < p.revents.toInt

theorem ready_of_positive {p : PollFd} (h : p.isPositive = true) : p.isReady = true := by
  unfold isReady isPositive at *
  by_contra hz
  simp only [bne_iff_ne, ne_eq, not_not] at hz
  rw [hz] at h
  cases h

theorem filter_positive_ready (pollfds : List PollFd) :
    (pollfds.filter isReady).filter isPositive = pollfds.filter isPositive := by
  rw [List.filter_filter]
  apply List.filter_congr
  intro p _
  by_cases h : p.isPositive = true
  · rw [h, ready_of_positive h]
    rfl
  · rw [Bool.eq_false_iff.mpr h, Bool.false_and]

theorem filter_positive_eq {pollfds : List PollFd} (h : ∀ p ∈ pollfds, p.isReady = true → p.isPositive = true) :
    pollfds.filter isPositive = pollfds.filter isReady := by
  apply List.filter_congr
  intro p hp
  rw [Bool.eq_iff_iff]
  exact ⟨ready_of_positive, h p hp⟩

end PollFd

namespace Poller

variable {ι : Type}

/-- `poll(2)` writes the events that came and leaves the rest; an entry with a negative
descriptor is ignored. -/
structure Polled (s : State ι) (pollfds : List PollFd) : Prop where
  entries : pollfds.map (fun p => (p.fd, p.events)) = s.pollfds_.map (fun p => (p.fd, p.events))
  ignored : ∀ p ∈ pollfds, p.fd < 0 → p.revents = 0

def Consistent (s : State ι) : Prop :=
  ∀ p ∈ s.pollfds_, 0 ≤ p.fd → ∃ c, s.channels_ p.fd = some c ∧ (s.channel c).fd = p.fd

theorem Polled.channel {s : State ι} {pollfds : List PollFd} (h : Polled s pollfds) (hc : Consistent s) {p : PollFd}
    (hp : p ∈ pollfds) (hr : p.isReady = true) : ∃ c, s.channels_ p.fd = some c ∧ (s.channel c).fd = p.fd := by
  have hmem : (p.fd, p.events) ∈ s.pollfds_.map (fun p => (p.fd, p.events)) :=
    h.entries ▸ List.mem_map_of_mem hp
  obtain ⟨q, hq, he⟩ := List.mem_map.mp hmem
  rw [Prod.mk.injEq] at he
  rw [← he.1]
  apply hc q hq
  by_contra hneg
  have hz := h.ignored p hp (by omega)
  simp [PollFd.isReady, hz] at hr

/-! ## Filling the active list -/

def Mapped (s : State ι) (pollfds : List PollFd) : Prop :=
  ∀ p ∈ pollfds, ∃ c, s.channels_ p.fd = some c ∧ (s.channel c).fd = p.fd

def channelsOf (s : State ι) (pollfds : List PollFd) : List ι := pollfds.filterMap fun p => s.channels_ p.fd

theorem channelsOf_cons {s : State ι} {p : PollFd} {pollfds : List PollFd} {c : ι} (h : s.channels_ p.fd = some c) :
    channelsOf s (p :: pollfds) = c :: channelsOf s pollfds :=
  List.filterMap_cons_some (f := fun p : PollFd => s.channels_ p.fd) h

theorem Mapped.tail {s : State ι} {p : PollFd} {pollfds : List PollFd} (h : Mapped s (p :: pollfds)) : Mapped s pollfds :=
  fun q hq => h q (List.mem_cons_of_mem p hq)

theorem Mapped.map_eq {β : Type} {s : State ι} {pollfds : List PollFd} (h : Mapped s pollfds) (f : ι → β) (g : PollFd → β)
    (hfg : ∀ p c, s.channels_ p.fd = some c → (s.channel c).fd = p.fd → f c = g p) :
    (channelsOf s pollfds).map f = pollfds.map g := by
  induction pollfds with
  | nil => rfl
  | cons p pollfds ih =>
    obtain ⟨c, hc, hfd⟩ := h p List.mem_cons_self
    rw [channelsOf_cons hc, List.map_cons, List.map_cons, hfg p c hc hfd, ih h.tail]

theorem Mapped.map_some {s : State ι} {pollfds : List PollFd} (h : Mapped s pollfds) :
    (channelsOf s pollfds).map some = pollfds.map fun p => s.channels_ p.fd :=
  h.map_eq some _ fun _ _ hc _ => hc.symm

theorem Mapped.map_fd {s : State ι} {pollfds : List PollFd} (h : Mapped s pollfds) :
    (channelsOf s pollfds).map (fun c => (s.channel c).fd) = pollfds.map (·.fd) :=
  h.map_eq _ _ fun _ _ _ hfd => hfd

theorem Polled.mapped {s : State ι} {pollfds : List PollFd} (hp : Polled s pollfds) (hc : Consistent s) :
    Mapped s (pollfds.filter PollFd.isReady) := by
  intro p h
  obtain ⟨hp', hr⟩ := List.mem_filter.mp h
  exact hp.channel hc hp' hr

theorem Mapped.nodup_iff {s : State ι} {pollfds : List PollFd} (h : Mapped s pollfds) :
    (channelsOf s pollfds).Nodup ↔ (pollfds.map (·.fd)).Nodup := by
  constructor
  · intro hn
    have hsome := hn.map (Option.some_injective ι)
    rw [h.map_some] at hsome
    refine List.Nodup.of_map s.channels_ ?_
    rwa [List.map_map]
  · intro hn
    rw [← h.map_fd] at hn
    exact hn.of_map _

variable [DecidableEq ι]

/-- The events of the entries go to their channels, the last entry of a channel last. -/
def setAll : List PollFd → State ι → State ι
  | [], s => s
  | p :: pollfds, s =>
    match s.channels_ p.fd with
    | some c => setAll pollfds (setRevents s c (p.revents.signExtend 32))
    | none => setAll pollfds s

theorem setRevents_fd (s : State ι) (c d : ι) (revt : BitVec 32) :
    ((setRevents s c revt).channel d).fd = (s.channel d).fd := by
  unfold setRevents
  by_cases hd : d = c
  · rw [hd, setChannel_self]
  · rw [setChannel_of_ne hd]

theorem Mapped.setRevents {s : State ι} {pollfds : List PollFd} (h : Mapped s pollfds) (c : ι) (revt : BitVec 32) :
    Mapped (setRevents s c revt) pollfds := by
  intro p hp
  obtain ⟨d, hd, hfd⟩ := h p hp
  exact ⟨d, hd, (setRevents_fd s c d revt).trans hfd⟩

theorem fillActiveChannels_eq : ∀ (pollfds : List PollFd) (numEvents : Int) (s : State ι) (active : List ι),
    Mapped s (pollfds.filter PollFd.isPositive) → (pollfds.filter PollFd.isPositive).length ≤ numEvents →
    fillActiveChannels pollfds numEvents s active = .ok (setAll (pollfds.filter PollFd.isPositive) s,
      active ++ channelsOf s (pollfds.filter PollFd.isPositive))
  | [], numEvents, s, active, _, _ => by simp [fillActiveChannels, setAll, channelsOf]
  | p :: pollfds, numEvents, s, active, hm, hn => by
    by_cases hp : p.isPositive = true
    · rw [List.filter_cons_of_pos hp] at hm hn ⊢
      rw [List.length_cons] at hn
      obtain ⟨c, hc, hfd⟩ := hm p List.mem_cons_self
      rw [fillActiveChannels, if_pos (by omega), if_pos (of_decide_eq_true hp)]
      simp only [hc]
      rw [check_pos hfd, ok_bind, fillActiveChannels_eq pollfds _ _ _ (hm.tail.setRevents c _) (by omega), setAll,
        channelsOf_cons hc, List.append_assoc]
      simp only [hc]
      rfl
    · rw [List.filter_cons_of_neg hp] at hm hn ⊢
      rw [fillActiveChannels]
      split
      · rw [if_neg (fun h => hp (decide_eq_true h))]
        exact fillActiveChannels_eq pollfds numEvents s active hm hn
      · have hnil : pollfds.filter PollFd.isPositive = [] := List.length_eq_zero_iff.mp (by omega)
        rw [hnil]
        simp [setAll, channelsOf]

theorem setAll_other {c : ι} : ∀ {pollfds : List PollFd} {s : State ι}, (∀ p ∈ pollfds, s.channels_ p.fd ≠ some c) →
    (setAll pollfds s).channel c = s.channel c
  | [], _, _ => rfl
  | p :: pollfds, s, h => by
    have hrest : ∀ q ∈ pollfds, s.channels_ q.fd ≠ some c := fun q hq => h q (List.mem_cons_of_mem p hq)
    rw [setAll]
    split
    · rename_i d hd
      have hdc : c ≠ d := by
        intro he
        exact h p List.mem_cons_self (he ▸ hd)
      rw [setAll_other (s := setRevents s d _) hrest]
      exact setChannel_of_ne hdc
    · exact setAll_other hrest

theorem setAll_channel {c : ι} {p : PollFd} : ∀ {pollfds : List PollFd} {s : State ι}, Mapped s pollfds →
    (pollfds.map (·.fd)).Nodup → p ∈ pollfds → s.channels_ p.fd = some c →
    (setAll pollfds s).channel c = { s.channel c with revents := p.revents.signExtend 32 }
  | [], _, _, _, hp, _ => by cases hp
  | q :: pollfds, s, hm, hn, hp, hc => by
    rw [List.map_cons, List.nodup_cons] at hn
    obtain ⟨d, hd, hfd⟩ := hm q List.mem_cons_self
    rw [setAll]
    simp only [hd]
    rcases List.mem_cons.mp hp with rfl | hp
    · rw [hc] at hd
      cases hd
      rw [setAll_other]
      · exact setChannel_self ..
      · intro r hr he
        obtain ⟨e, he', hfd'⟩ := hm.tail r hr
        change s.channels_ r.fd = some c at he
        rw [he] at he'
        cases he'
        exact hn.1 (List.mem_map.mpr ⟨r, hr, hfd'.symm.trans hfd⟩)
    · rw [setAll_channel (s := setRevents s d _) (hm.tail.setRevents d _) hn.2 hp hc]
      have hcd : c ≠ d := by
        intro he
        obtain ⟨e, he', hfd'⟩ := hm.tail p hp
        rw [hc] at he'
        cases he'
        rw [he, hfd] at hfd'
        exact hn.1 (List.mem_map.mpr ⟨p, hp, hfd'.symm⟩)
      rw [setRevents, setChannel_of_ne hcd]

end Poller

/-! ## Dispatching -/

namespace Channel

@[simp] theorem mem_dispatch {c : Channel} {mask : BitVec 32} {set : Bool} {cb cb' : Callback} :
    cb' ∈ c.dispatch mask set cb ↔ cb' = cb ∧ c.revents &&& mask ≠ 0 ∧ set = true := by
  unfold dispatch
  split <;> simp_all

theorem mem_handleEvent_read {c : Channel} :
    .read ∈ c.handleEvent.2 ↔ c.revents &&& (POLLPRI ||| POLLRDHUP) ≠ 0 ∧ c.readCallback = true := by
  simp [handleEvent]

theorem mem_handleEvent_write {c : Channel} :
    .write ∈ c.handleEvent.2 ↔ c.revents &&& POLLOUT ≠ 0 ∧ c.writeCallback = true := by
  simp [handleEvent]

theorem handleEvent_again (c : Channel) : c.handleEvent.1.handleEvent.2 = c.handleEvent.2 := rfl

end Channel

namespace EventLoop

open Poller (State Polled Consistent Mapped channelsOf setChannel setAll)

variable {ι F : Type} [DecidableEq ι]

theorem handleEvents_tasks : ∀ (active : List ι) (s : State ι), (handleEvents active s : State ι × List (Task ι F)).2 =
    active.flatMap fun c => (s.channel c).handleEvent.2.map (.callback c)
  | [], _ => rfl
  | c :: active, s => by
    have same : ∀ d, ((setChannel s c (s.channel c).handleEvent.1).channel d).handleEvent.2 =
        (s.channel d).handleEvent.2 := by
      intro d
      by_cases hd : d = c
      · rw [hd, Poller.setChannel_self, Channel.handleEvent_again]
      · rw [Poller.setChannel_of_ne hd]
    rw [List.flatMap_cons, handleEvents]
    dsimp only
    rw [handleEvents_tasks active]
    simp only [same]

variable {l : EventLoop ι F} {pollfds : List PollFd}

theorem iteration_spec (hc : Consistent l.poller) (hp : Polled l.poller pollfds) :
    ∃ t tasks, iteration l (pollfds.countP PollFd.isReady) pollfds = .ok (t, tasks) ∧
      t.activeChannels_ = channelsOf l.poller (pollfds.filter PollFd.isPositive) ∧
      ∀ c cb, .callback c cb ∈ tasks ↔ c ∈ channelsOf l.poller (pollfds.filter PollFd.isPositive) ∧ cb ∈
        ((setAll (pollfds.filter PollFd.isPositive) { l.poller with pollfds_ := pollfds }).channel c).handleEvent.2 := by
  have hm : Mapped l.poller (pollfds.filter PollFd.isPositive) := by
    intro p h
    obtain ⟨hmem, hpos⟩ := List.mem_filter.mp h
    exact hp.mapped hc p (List.mem_filter.mpr ⟨hmem, PollFd.ready_of_positive hpos⟩)
  have hlen : ((pollfds.filter PollFd.isPositive).length : Int) ≤ pollfds.countP PollFd.isReady := by
    rw [← PollFd.filter_positive_ready, List.countP_eq_length_filter]
    exact Int.ofNat_le.mpr (List.length_filter_le ..)
  have hfill := Poller.fillActiveChannels_eq pollfds (pollfds.countP PollFd.isReady)
    { l.poller with pollfds_ := pollfds } [] hm hlen
  have hpoll : Poller.poll l.poller (pollfds.countP PollFd.isReady) pollfds [] =
      .ok (setAll (pollfds.filter PollFd.isPositive) { l.poller with pollfds_ := pollfds },
        channelsOf l.poller (pollfds.filter PollFd.isPositive)) := by
    rw [Poller.poll]
    split
    · exact hfill
    · have hnil : pollfds.filter PollFd.isPositive = [] := List.length_eq_zero_iff.mp (by omega)
      rw [hnil]
      rfl
  refine ⟨_, _, by simp only [iteration, hpoll, ok_bind]; rfl, rfl, ?_⟩
  intro c cb
  rw [handleEvents_tasks]
  simp [doPendingFunctors]

/-! ## Delivered events -/

/-- Each channel with events is in the active list once, in the order of the entries, and the
callbacks it subscribed to run. -/
structure Delivers (l : EventLoop ι F) (pollfds : List PollFd) (t : EventLoop ι F) (tasks : List (Task ι F)) : Prop where
  active : t.activeChannels_.map some = (pollfds.filter PollFd.isReady).map fun p => l.poller.channels_ p.fd
  once : t.activeChannels_.Nodup
  read : ∀ p ∈ pollfds, p.isReady = true → ∀ c, l.poller.channels_ p.fd = some c →
    (l.poller.channel c).readCallback = true →
    p.revents.signExtend 32 &&& (l.poller.channel c).events &&& Channel.kReadEvent ≠ 0 → .callback c .read ∈ tasks
  write : ∀ p ∈ pollfds, p.isReady = true → ∀ c, l.poller.channels_ p.fd = some c →
    (l.poller.channel c).writeCallback = true → p.revents.signExtend 32 &&& POLLOUT ≠ 0 → .callback c .write ∈ tasks

/-- All events are positive, no two of them are for one descriptor, and those that a channel reads
for come with `POLLPRI` or `POLLRDHUP`. -/
structure Deliverable (s : State ι) (pollfds : List PollFd) : Prop where
  positive : ∀ p ∈ pollfds, p.isReady = true → p.isPositive = true
  once : ((pollfds.filter PollFd.isReady).map (·.fd)).Nodup
  read : ∀ p ∈ pollfds, p.isReady = true → ∀ c, s.channels_ p.fd = some c → (s.channel c).readCallback = true →
    p.revents.signExtend 32 &&& (s.channel c).events &&& Channel.kReadEvent ≠ 0 →
    p.revents.signExtend 32 &&& (POLLPRI ||| POLLRDHUP) ≠ 0

/-- **One iteration delivers what `poll(2)` returned if and only if it is deliverable.** -/
theorem delivers_iff (hc : Consistent l.poller) (hp : Polled l.poller pollfds) :
    (∃ t tasks, iteration l (pollfds.countP PollFd.isReady) pollfds = .ok (t, tasks) ∧ Delivers l pollfds t tasks) ↔
      Deliverable l.poller pollfds := by
  obtain ⟨t, tasks, hiter, hactive, htasks⟩ := iteration_spec hc hp
  have hm := hp.mapped hc
  -- with positive events for different descriptors, each ready channel handles its own
  have handled : ∀ (_ : ∀ p ∈ pollfds, p.isReady = true → p.isPositive = true)
      (_ : ((pollfds.filter PollFd.isReady).map (·.fd)).Nodup), ∀ p ∈ pollfds, p.isReady = true →
      ∀ c, l.poller.channels_ p.fd = some c → ∀ cb, .callback c cb ∈ tasks ↔
        cb ∈ ({ l.poller.channel c with revents := p.revents.signExtend 32 } : Channel).handleEvent.2 := by
    intro hpos hn p hp' hr c hch cb
    have hmem : p ∈ pollfds.filter PollFd.isReady := List.mem_filter.mpr ⟨hp', hr⟩
    have hin : c ∈ channelsOf l.poller (pollfds.filter PollFd.isReady) := List.mem_filterMap.mpr ⟨p, hmem, hch⟩
    rw [htasks c cb, PollFd.filter_positive_eq hpos,
      Poller.setAll_channel (s := { l.poller with pollfds_ := pollfds }) hm hn hmem hch]
    exact and_iff_right hin
  constructor
  · intro h
    obtain ⟨t', tasks', hiter', hd⟩ := h
    rw [hiter] at hiter'
    cases hiter'
    have hpos : ∀ p ∈ pollfds, p.isReady = true → p.isPositive = true := by
      have hlen : ((pollfds.filter PollFd.isReady).filter PollFd.isPositive).length =
          (pollfds.filter PollFd.isReady).length := by
        have hsub : Mapped l.poller (pollfds.filter PollFd.isPositive) := by
          rw [← PollFd.filter_positive_ready]
          exact fun p h => hm p (List.mem_of_mem_filter h)
        have := congrArg List.length hd.active
        rw [hactive, hsub.map_some, List.length_map, List.length_map] at this
        rw [PollFd.filter_positive_ready, this]
      intro p hp' hr
      exact List.length_filter_eq_length_iff.mp hlen p (List.mem_filter.mpr ⟨hp', hr⟩)
    have hn : ((pollfds.filter PollFd.isReady).map (·.fd)).Nodup := by
      rw [← hm.nodup_iff, ← PollFd.filter_positive_eq hpos, ← hactive]
      exact hd.once
    refine ⟨hpos, hn, ?_⟩
    intro p hp' hr c hch hcb hsub
    have hran := (handled hpos hn p hp' hr c hch .read).mp (hd.read p hp' hr c hch hcb hsub)
    exact (Channel.mem_handleEvent_read.mp hran).1
  · intro h
    refine ⟨t, tasks, hiter, ?_, ?_, ?_, ?_⟩
    · rw [hactive, PollFd.filter_positive_eq h.positive, hm.map_some]
    · rw [hactive, PollFd.filter_positive_eq h.positive, hm.nodup_iff]
      exact h.once
    · intro p hp' hr c hch hcb hsub
      apply (handled h.positive h.once p hp' hr c hch .read).mpr
      exact Channel.mem_handleEvent_read.mpr ⟨h.read p hp' hr c hch hcb hsub, hcb⟩
    · intro p hp' hr c hch hcb hout
      apply (handled h.positive h.once p hp' hr c hch .write).mpr
      exact Channel.mem_handleEvent_write.mpr ⟨hout, hcb⟩

def reading : EventLoop Nat Unit where
  poller :=
    { pollfds_ := [⟨5, 3, 0⟩]
      channels_ := fun fd => if fd = 5 then some 5 else none
      channel := fun c => { Channel.create c with events := Channel.kReadEvent, index := 0, readCallback := true } }
  activeChannels_ := []
  callingPendingFunctors_ := false
  pendingFunctors_ := []

theorem reading_consistent : Consistent reading.poller := by
  intro p hp _
  rw [List.mem_singleton.mp hp]
  exact ⟨5, rfl, rfl⟩

theorem reading_polled (revents : BitVec 16) : Polled reading.poller [⟨5, 3, revents⟩] := by
  refine ⟨rfl, ?_⟩
  intro p hp hneg
  rw [List.mem_singleton.mp hp] at hneg
  cases hneg

theorem delivers_iff_urgent : ∃ t tasks, iteration reading 1 [⟨5, 3, 2⟩] = .ok (t, tasks) ∧
    Delivers reading [⟨5, 3, 2⟩] t tasks := by
  apply (delivers_iff reading_consistent (reading_polled 2)).mpr
  refine ⟨?_, by decide, ?_⟩
  · intro p hp _
    rw [List.mem_singleton.mp hp]
    decide
  · intro p hp _ c _ _ _
    rw [List.mem_singleton.mp hp]
    decide

/-- Plain input is ready and subscribed to, but nothing runs. -/
theorem input_not_delivered : Consistent reading.poller ∧ Polled reading.poller [⟨5, 3, 1⟩] ∧
    ¬ ∃ t tasks, iteration reading 1 [⟨5, 3, 1⟩] = .ok (t, tasks) ∧ Delivers reading [⟨5, 3, 1⟩] t tasks := by
  refine ⟨reading_consistent, reading_polled 1, ?_⟩
  intro h
  obtain ⟨t, tasks, hiter, hd⟩ := h
  have hran := hd.read ⟨5, 3, 1⟩ (List.mem_singleton_self _) (by decide) 5 rfl rfl (by decide)
  cases hiter
  cases hran

end EventLoop

end MyLearning.Muduo
