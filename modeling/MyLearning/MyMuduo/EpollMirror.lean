import MyLearning.MyMuduo.EpollPoller

/-!
# The poller mirrors the kernel

The index of a channel says where it stands: `kNew` is unknown to the poller,
`kDeleted` is registered, `kAdded` is registered and in the interest list. `place`
brings the map, the interest list and the channel in line with a new index and new
events at once, and every function of the poller turns out to be a `place`.
-/

namespace MyLearning.EpollPoller

variable {ι : Type} {k : EventFlags} {fd : ι → Int}

/-! ## The three views -/

structure Mirror (fd : ι → Int) (s : State ι) : Prop where
  channels : ∀ f c, s.channels f = some c ↔ fd c = f ∧ (s.channel c).index ≠ kNew
  interest : ∀ f e, s.epollfd f = some e ↔
    fd e.data = f ∧ (s.channel e.data).index = kAdded ∧ e.events = (s.channel e.data).events
  index : ∀ c, (s.channel c).index = kNew ∨ (s.channel c).index = kAdded ∨ (s.channel c).index = kDeleted
  failed : s.failed = []

def registered (c : ι) (x : Channel) : Option ι := if x.index = kNew then none else some c

def watched (c : ι) (x : Channel) : Option (EpollEvent ι) := if x.index = kAdded then some ⟨x.events, c⟩ else none

/-! ## Calls that go through -/

section
variable {s : State ι} {c : ι}

theorem update_add (h : s.epollfd (fd c) = none) : update fd s .add c =
    .ok { s with epollfd := Function.update s.epollfd (fd c) (some ⟨(s.channel c).events, c⟩) } := by
  unfold update epollCtl
  rw [h]

theorem update_mod {e : EpollEvent ι} (h : s.epollfd (fd c) = some e) : update fd s .mod c =
    .ok { s with epollfd := Function.update s.epollfd (fd c) (some ⟨(s.channel c).events, c⟩) } := by
  unfold update epollCtl
  rw [h]

theorem update_del {e : EpollEvent ι} (h : s.epollfd (fd c) = some e) : update fd s .del c =
    .ok { s with epollfd := Function.update s.epollfd (fd c) none } := by
  unfold update epollCtl
  rw [h]

end

def Free (fd : ι → Int) (s : State ι) (c : ι) : Prop := ∀ d, (s.channel d).index ≠ kNew → fd d = fd c → d = c

theorem free_of_injective {s : State ι} (hfd : Function.Injective fd) (c : ι) : Free fd s c := fun _ _ he => hfd he

section
variable {s : State ι} (m : Mirror fd s)
include m

theorem Mirror.channels_none {c : ι} (h : (s.channel c).index = kNew) (hfree : Free fd s c) :
    s.channels (fd c) = none := by
  apply Option.eq_none_iff_forall_ne_some.mpr
  intro d hd
  obtain ⟨he, hn⟩ := (m.channels _ d).mp hd
  exact hn (hfree d hn he ▸ h)

theorem Mirror.channels_some {c : ι} (h : (s.channel c).index ≠ kNew) : s.channels (fd c) = some c :=
  (m.channels _ c).mpr ⟨rfl, h⟩

theorem Mirror.interest_none {c : ι} (h : (s.channel c).index ≠ kAdded) (hfree : Free fd s c) :
    s.epollfd (fd c) = none := by
  apply Option.eq_none_iff_forall_ne_some.mpr
  intro e he
  obtain ⟨hf, ha, -⟩ := (m.interest _ e).mp he
  exact h (hfree _ (by rw [ha]; decide) hf ▸ ha)

theorem Mirror.free_of_registered {c : ι} (h : (s.channel c).index ≠ kNew) : Free fd s c := by
  intro d hd he
  have hd := m.channels_some hd
  rw [he, m.channels_some h] at hd
  exact (Option.some.inj hd).symm

theorem Mirror.free_of_none {c : ι} (h : s.channels (fd c) = none) : Free fd s c := by
  intro d hd he
  have hd := m.channels_some hd
  rw [he, h] at hd
  cases hd

theorem Mirror.interest_some {c : ι} (h : (s.channel c).index = kAdded) :
    s.epollfd (fd c) = some ⟨(s.channel c).events, c⟩ := (m.interest _ ⟨_, c⟩).mpr ⟨rfl, h, rfl⟩

end

/-! ## What a step does to its channel -/

def nextIndex (k : EventFlags) (index : Int) (events : BitVec 32) : Int :=
  if index = kAdded ∧ events = k.kNoneEvent then kDeleted else kAdded

def Act.events (k : EventFlags) (s : State ι) : Act ι → BitVec 32
  | .enableReading c => (s.channel c).events ||| k.kReadEvent
  | .disableReading c => (s.channel c).events &&& ~~~k.kReadEvent
  | .enableWriting c => (s.channel c).events ||| k.kWriteEvent
  | .disableWriting c => (s.channel c).events &&& ~~~k.kWriteEvent
  | .disableAll _ => k.kNoneEvent
  | .remove c => (s.channel c).events

def Act.channel : Act ι → ι
  | .enableReading c | .disableReading c | .enableWriting c | .disableWriting c | .disableAll c | .remove c => c

def Act.index (k : EventFlags) (s : State ι) : Act ι → Int
  | .remove _ => kNew
  | a => nextIndex k (s.channel a.channel).index (a.events k s)

theorem Act.index_valid (k : EventFlags) (s : State ι) (a : Act ι) :
    a.index k s = kNew ∨ a.index k s = kAdded ∨ a.index k s = kDeleted := by
  cases a with
  | remove c => exact .inl rfl
  | _ =>
    simp only [Act.index, nextIndex]
    split <;> simp

variable [DecidableEq ι]

/-- The channel `c` becomes `x` in all three views. -/
def place (fd : ι → Int) (s : State ι) (c : ι) (x : Channel) : State ι :=
  { s with
    channels := Function.update s.channels (fd c) (registered c x)
    epollfd := Function.update s.epollfd (fd c) (watched c x)
    channel := Function.update s.channel c x }

theorem Mirror.place {s : State ι} (m : Mirror fd s) {c : ι} (hfree : Free fd s c) {x : Channel}
    (hx : x.index = kNew ∨ x.index = kAdded ∨ x.index = kDeleted) : Mirror fd (place fd s c x) where
  channels f d := by
    simp only [EpollPoller.place]
    by_cases hf : f = fd c
    · subst hf
      rw [Function.update_self]
      unfold registered
      by_cases hd : d = c
      · subst hd; simp
      · rw [Function.update_of_ne hd]
        have hno : ¬ (fd d = fd c ∧ (s.channel d).index ≠ kNew) := fun h => hd (hfree d h.2 h.1)
        simp [Ne.symm hd, hno]
    · rw [Function.update_of_ne hf, m.channels]
      by_cases hd : d = c
      · subst hd; simp [Ne.symm hf]
      · rw [Function.update_of_ne hd]
  interest f e := by
    obtain ⟨ev, d⟩ := e
    simp only [EpollPoller.place]
    by_cases hf : f = fd c
    · subst hf
      rw [Function.update_self]
      unfold watched
      by_cases hd : d = c
      · subst hd; simp [eq_comm]
      · rw [Function.update_of_ne hd]
        have hno : fd d = fd c → (s.channel d).index ≠ kAdded :=
          fun he ha => hd (hfree d (by rw [ha]; decide) he)
        simp only [Option.ite_none_right_eq_some, Option.some.injEq, EpollEvent.mk.injEq, Ne.symm hd, and_false,
          false_iff, not_and]
        exact fun he ha => absurd ha (hno he)
    · rw [Function.update_of_ne hf, m.interest]
      by_cases hd : d = c
      · subst hd; simp [Ne.symm hf]
      · rw [Function.update_of_ne hd]
  index d := by
    simp only [EpollPoller.place]
    by_cases hd : d = c
    · subst hd; rwa [Function.update_self]
    · rw [Function.update_of_ne hd]; exact m.index d
  failed := m.failed

/-! ## Every function is a `place` -/

section
variable {s : State ι} {c : ι}

theorem update_self_of_eq {α β : Type} [DecidableEq α] {f : α → β} {a : α} {b : β} (h : f a = b) :
    Function.update f a b = f := h ▸ Function.update_eq_self a f

@[simp] theorem setEvents_channel (events : BitVec 32) :
    (setEvents s c events).channel c = ⟨events, (s.channel c).index⟩ := Function.update_self ..

variable (m : Mirror fd s)
include m

theorem change_eq (hfree : Free fd s c) (events : BitVec 32) :
    change k fd s c events = .ok (place fd s c ⟨events, nextIndex k (s.channel c).index events⟩) := by
  unfold change updateChannel
  simp only [setEvents_channel]
  rcases m.index c with hi | hi | hi
  · -- the channel is new: it enters the map and the list
    have hch : (setEvents s c events).channels (fd c) = none := m.channels_none hi hfree
    have hep : s.epollfd (fd c) = none := m.interest_none (by rw [hi]; decide) hfree
    rw [if_pos (.inl hi), register, setEvents_channel, if_pos hi, check_pos hch, ok_bind, pure_eq_ok, ok_bind,
      update_add (by exact hep)]
    simp [place, registered, watched, setIndex, setEvents, nextIndex, hi, kAdded, kNew]
  · -- it is in the list, and leaves it where it wants no event
    have hch : (setEvents s c events).channels (fd c) = some c := m.channels_some (by rw [hi]; decide)
    have hep : (setEvents s c events).epollfd (fd c) = some ⟨(s.channel c).events, c⟩ := m.interest_some hi
    have hreg : Function.update s.channels (fd c) (some c) = s.channels := update_self_of_eq hch
    have hnone : isNoneEvent k (setEvents s c events) c = decide (events = k.kNoneEvent) := by
      simp [isNoneEvent, beq_eq_decide]
    rw [if_neg (by rw [hi]; decide), hch, check_pos (Option.some_ne_none c), check_pos rfl, check_pos hi, hnone]
    simp only [ok_bind, decide_eq_true_eq]
    by_cases he : events = k.kNoneEvent
    · rw [if_pos he, update_del hep]
      simp [place, registered, watched, setIndex, setEvents, nextIndex, hi, he, hreg, kAdded, kNew, kDeleted]
    · rw [if_neg he, update_mod hep]
      simp [place, registered, watched, setEvents, nextIndex, hi, he, hreg, kAdded, kNew]
  · -- it is in the map only, and enters the list whatever it wants
    have hch : (setEvents s c events).channels (fd c) = some c := m.channels_some (by rw [hi]; decide)
    have hep : s.epollfd (fd c) = none := m.interest_none (by rw [hi]; decide) hfree
    have hreg : Function.update s.channels (fd c) (some c) = s.channels := update_self_of_eq hch
    rw [if_pos (.inr hi), register, setEvents_channel, if_neg (by rw [hi]; decide), hch,
      check_pos (Option.some_ne_none c), check_pos rfl]
    simp only [ok_bind, pure_eq_ok]
    rw [update_add (by exact hep)]
    simp [place, registered, watched, setIndex, setEvents, nextIndex, hi, hreg, kAdded, kNew, kDeleted]

theorem removeChannel_eq (hc : s.channels (fd c) = some c) (hnone : isNoneEvent k s c = true) :
    removeChannel k fd s c = .ok (place fd s c ⟨(s.channel c).events, kNew⟩) := by
  have hfree := m.free_of_registered ((m.channels _ c).mp hc).2
  unfold removeChannel
  have hi : (s.channel c).index = kAdded ∨ (s.channel c).index = kDeleted :=
    (m.index c).resolve_left ((m.channels _ c).mp hc).2
  simp only [hc, check_pos (Option.some_ne_none c), check_true, check_pos hnone, check_pos hi,
    if_neg (Option.some_ne_none c), ok_bind]
  rcases hi with hi | hi
  · have hep : s.epollfd (fd c) = some ⟨(s.channel c).events, c⟩ := m.interest_some hi
    rw [if_pos hi, update_del (by exact hep)]
    simp [place, registered, watched, setIndex, kAdded, kNew]
  · have hep : s.epollfd (fd c) = none := m.interest_none (by rw [hi]; decide) hfree
    have hstay : Function.update s.epollfd (fd c) none = s.epollfd := update_self_of_eq hep
    rw [if_neg (by rw [hi]; decide)]
    simp [place, registered, watched, setIndex, hstay, kAdded, kNew]

end

/-! ## What a call that went through has found -/

theorem removeChannel_eq_ok {s t : State ι} {c : ι} (h : removeChannel k fd s c = .ok t) :
    s.channels (fd c) = some c ∧ isNoneEvent k s c = true := by
  obtain ⟨-, h⟩ := check_bind_eq_ok.mp h
  obtain ⟨hc, h⟩ := check_bind_eq_ok.mp h
  obtain ⟨hn, -⟩ := check_bind_eq_ok.mp h
  exact ⟨hc, hn⟩

theorem free_of_change {s t : State ι} {c : ι} {events : BitVec 32} (m : Mirror fd s)
    (h : change k fd s c events = .ok t) : Free fd s c := by
  by_cases hi : (s.channel c).index = kNew
  · unfold change updateChannel at h
    simp only [setEvents_channel] at h
    rw [if_pos (.inl hi), register, setEvents_channel, if_pos hi] at h
    obtain ⟨s', hr, -⟩ := bind_eq_ok.mp h
    exact m.free_of_none (check_bind_eq_ok.mp hr).1
  · exact m.free_of_registered hi

theorem step_ok_place {s t : State ι} {a : Act ι} (m : Mirror fd s) (h : (lts k fd).step s a t) :
    Free fd s a.channel ∧ t = place fd s a.channel ⟨a.events k s, a.index k s⟩ := by
  cases a with
  | remove c =>
    simp only [lts, step, Option.ite_none_right_eq_some, Option.some.injEq] at h
    refine ⟨m.free_of_registered ((m.channels _ c).mp h.1.1).2, ?_⟩
    exact Except.ok.inj (h.2.symm.trans (removeChannel_eq m h.1.1 h.1.2))
  | _ =>
    have h := Option.some.inj h
    have hfree := free_of_change m h
    exact ⟨hfree, Except.ok.inj (h.symm.trans (change_eq m hfree _))⟩

/-! ## Runs -/

theorem step_eq {s : State ι} {a : Act ι} {r : Except Fault (State ι)} (m : Mirror fd s)
    (hfd : Function.Injective fd) (h : step k fd s a = some r) :
    r = .ok (place fd s a.channel ⟨a.events k s, a.index k s⟩) := by
  cases a with
  | remove c =>
    simp only [step, Option.ite_none_right_eq_some, Option.some.injEq] at h
    rw [← h.2, removeChannel_eq m h.1.1 h.1.2]
    rfl
  | _ =>
    cases h
    exact change_eq m (free_of_injective hfd _) _

theorem step_mirror {s t : State ι} {a : Act ι} (hfd : Function.Injective fd) (m : Mirror fd s)
    (h : (lts k fd).step s a t) : Mirror fd t := by
  cases step_eq m hfd h
  exact m.place (free_of_injective hfd _) (a.index_valid k s)

theorem mirror_of_init {s : State ι} (h : (lts k fd).init s) : Mirror fd s := by
  obtain ⟨hc, he, hf, hn⟩ := h
  refine ⟨?_, ?_, fun c => .inl (hn c), hf⟩
  · intro f c
    simp [hc, hn c]
  · intro f e
    simp [he, hn e.data, kNew, kAdded]

theorem reachable_mirror {s : State ι} (hfd : Function.Injective fd) (h : (lts k fd).Reachable s) :
    Mirror fd s :=
  h.invariant (fun _ hs => mirror_of_init hs) fun _ _ _ m hs => step_mirror hfd m hs

/-- In every reachable state the map holds the registered channels, **the interest
list holds the added channels with the events they want**, no `epoll_ctl` has failed,
and no step can fail an assertion or a call. -/
theorem mirrors_kernel (hfd : Function.Injective fd) {s : State ι} (h : (lts k fd).Reachable s) :
    (∀ f c, s.channels f = some c ↔ fd c = f ∧ (s.channel c).index ≠ kNew) ∧
    (∀ f e, s.epollfd f = some e ↔
      fd e.data = f ∧ (s.channel e.data).index = kAdded ∧ e.events = (s.channel e.data).events) ∧
    s.failed = [] ∧ ∀ a r, step k fd s a = some r → ∃ t, r = .ok t := by
  have m := reachable_mirror hfd h
  exact ⟨m.channels, m.interest, m.failed, fun a r hr => ⟨_, step_eq m hfd hr⟩⟩

/-! ## Evaluation -/

def next (k : EventFlags) (fd : ι → Int) (s : State ι) (a : Act ι) : Option (State ι) :=
  (step k fd s a).bind Except.toOption

theorem next_eq_some {s t : State ι} {a : Act ι} (h : next k fd s a = some t) : (lts k fd).step s a t := by
  obtain ⟨r, hr, ht⟩ := Option.bind_eq_some_iff.mp h
  cases r with
  | error f => cases ht
  | ok u => cases ht; exact hr

def pollFlags : EventFlags := ⟨0, 3, 4⟩

def fresh (ι : Type) : State ι := ⟨⟨fun _ => none, fun _ => none⟩, fun _ => ⟨0, kNew⟩, []⟩

theorem init_fresh : (lts k fd).init (fresh ι) := ⟨rfl, rfl, rfl, fun _ => rfl⟩

theorem reachable_of_exec {tr : List (Act ι)} {s : State ι} (h : Lts.exec (next k fd) (fresh ι) tr = some s) :
    (lts k fd).Reachable s :=
  ⟨fresh ι, tr, init_fresh, Lts.run_of_exec (fun _ _ _ h => next_eq_some h) h⟩

def twoFds (b : Bool) : Int := if b then 3 else 4

theorem twoFds_injective : Function.Injective twoFds := by
  intro a b h
  cases a <;> cases b <;> simp_all [twoFds]

/-- One channel is disabled twice and removed while the other is in use. -/
theorem mirrors_kernel_two : ∃ s, (lts pollFlags twoFds).Reachable s ∧ s.channels 3 = none ∧
    s.epollfd 4 = some ⟨4, false⟩ ∧ ∀ a r, step pollFlags twoFds s a = some r → ∃ t, r = .ok t := by
  have hrun : (Lts.exec (next pollFlags twoFds) (fresh Bool)
      [.enableReading true, .enableWriting false, .disableAll true, .disableAll true, .remove true]).map
        (fun s => (s.channels 3, s.epollfd 4)) = some (none, some ⟨4, false⟩) := by decide +kernel
  obtain ⟨s, hs, h⟩ := Option.map_eq_some_iff.mp hrun
  obtain ⟨hc, he⟩ := Prod.mk.inj h
  have hreach := reachable_of_exec hs
  exact ⟨s, hreach, hc, he, (mirrors_kernel twoFds_injective hreach).2.2.2⟩

end MyLearning.EpollPoller
