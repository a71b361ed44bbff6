import MyLearning.Muduo.Poller

/-!
# The poller as a mirror of its channels

What a poller that mirrors its channels looks like, and that no call of `updateChannel`
keeps it so: a new channel is entered into the vector and given an index before `at` throws,
and for a registered one the assertion on its map entry is the wrong way round.
-/

namespace MyLearning.Muduo.Poller

variable {ι : Type}

/-! ## Runs of calls -/

/-- A call of `updateChannel`; it is known whether the channel was new or registered. -/
structure Call (ι : Type) where
  channel : ι
  known : Bool
  before : State ι
  result : Except Fault Unit
  after : State ι

structure System (ι : Type) extends State ι where
  registered : List ι
  calls : List (Call ι)

def initial (fd : ι → Int) : System ι where
  pollfds_ := []
  channels_ _ := none
  channel c := Channel.create (fd c)
  registered := []
  calls := []

inductive Act (ι : Type) where
  | update (c : ι) (events : BitVec 32) (revents : BitVec 16)

def aborted (s : System ι) : Prop := ∃ r ∈ s.calls, r.result = .error .assertion

theorem not_aborted {s : System ι} (h : s.calls = []) : ¬ aborted s := by
  intro ha
  obtain ⟨r, hr, -⟩ := ha
  rw [h] at hr
  cases hr

variable [DecidableEq ι]

def update (s : System ι) (c : ι) (events : BitVec 32) (revents : BitVec 16) : System ι :=
  let before := setChannel s.toState c { s.channel c with events := events }
  let (result, after) := updateChannel before c revents
  { toState := after
    registered := if result.isOk then c :: s.registered else s.registered
    calls := s.calls ++ [⟨c, decide ((before.channel c).index < 0) || decide (c ∈ s.registered), before, result, after⟩] }

def lts : Lts (System ι) (Act ι) where
  init s := s.pollfds_ = [] ∧ (∀ fd, s.channels_ fd = none) ∧ s.registered = [] ∧ s.calls = [] ∧
    (∀ c, (s.channel c).index = -1 ∧ (s.channel c).events = 0 ∧ 0 ≤ (s.channel c).fd) ∧
    ∀ c d, (s.channel c).fd = (s.channel d).fd → c = d
  step s a t := ¬ aborted s ∧
    match a with
    | .update c events revents => t = update s c events revents

theorem initial_init {fd : ι → Int} (hfd : ∀ c d, fd c = fd d → c = d) (hpos : ∀ c, 0 ≤ fd c) : lts.init (initial fd) :=
  ⟨rfl, fun _ => rfl, rfl, rfl, fun c => ⟨rfl, rfl, hpos c⟩, hfd⟩

/-! ## What a mirror is -/

/-- The channels and the entries that are watched are those that are registered, every call on
a new or registered channel came to its end, and one that threw left everything as it was. -/
structure Mirrors (s : System ι) : Prop where
  completes : ∀ r ∈ s.calls, r.known = true → r.result = .ok ()
  restores : ∀ r ∈ s.calls, r.result = .error .bounds → r.after.pollfds_ = r.before.pollfds_ ∧
    r.after.channels_ = r.before.channels_ ∧ (r.after.channel r.channel).index = (r.before.channel r.channel).index
  channels : ∀ fd c, s.channels_ fd = some c ↔ c ∈ s.registered ∧ (s.channel c).fd = fd
  inRange : ∀ c ∈ s.registered, 0 ≤ (s.channel c).index ∧ (s.channel c).index < s.pollfds_.length
  distinct : ∀ c ∈ s.registered, ∀ d ∈ s.registered, (s.channel c).index = (s.channel d).index → c = d
  watched : ∀ fd events, 0 ≤ fd → ((∃ p ∈ s.pollfds_, p.fd = fd ∧ p.events = events) ↔
    ∃ c ∈ s.registered, (s.channel c).fd = fd ∧ (s.channel c).events.truncate 16 = events ∧ (s.channel c).events ≠ 0)

theorem Mirrors.of_init {s : System ι} (h : lts.init s) : Mirrors s := by
  obtain ⟨hpollfds, hchannels, hregistered, hcalls, -, -⟩ := h
  refine ⟨?_, ?_, ?_, ?_, ?_, ?_⟩
  · intro r hr
    rw [hcalls] at hr
    cases hr
  · intro r hr
    rw [hcalls] at hr
    cases hr
  · intro fd c
    rw [hchannels, hregistered]
    simp
  · intro c hc
    rw [hregistered] at hc
    cases hc
  · intro c hc
    rw [hregistered] at hc
    cases hc
  · intro fd events _
    rw [hpollfds, hregistered]
    simp

/-! ## No call completes -/

section
variable {s : State ι} {c : ι}

/-- The entry and the index of a new channel stay behind when `at` throws. -/
theorem updateChannel_new (revents : BitVec 16) (hnew : (s.channel c).index < 0)
    (hfree : s.channels_ (s.channel c).fd = none) :
    (updateChannel s c revents).1 = .error .bounds ∧
    (updateChannel s c revents).2.pollfds_ =
      s.pollfds_ ++ [⟨(s.channel c).fd, (s.channel c).events.truncate 16, revents⟩] ∧
    ((updateChannel s c revents).2.channel c).index = s.pollfds_.length := by
  simp [updateChannel, hnew, hfree]

/-- The call behind the one that threw aborts. -/
theorem updateChannel_again (revents revents' : BitVec 16) (hnew : (s.channel c).index < 0)
    (hfree : s.channels_ (s.channel c).fd = none) :
    (updateChannel (updateChannel s c revents).2 c revents').1 = .error .assertion := by
  have hold : ¬ (s.pollfds_.length : Int) < 0 := by omega
  simp [updateChannel, hnew, hfree, hold]

theorem updateChannel_registered (revents : BitVec 16) (hold : ¬ (s.channel c).index < 0)
    (hreg : s.channels_ (s.channel c).fd = some c) : updateChannel s c revents = (.error .assertion, s) := by
  simp only [updateChannel, if_neg hold]
  rw [if_neg (by rw [hreg]; simp), if_pos (by rw [hreg]; simp)]

theorem updateChannel_fails (revents : BitVec 16)
    (h : (s.channel c).index < 0 ∨ s.channels_ (s.channel c).fd = some c) : (updateChannel s c revents).1 ≠ .ok () := by
  by_cases hi : (s.channel c).index < 0
  · by_cases hfree : s.channels_ (s.channel c).fd = none
    · rw [(updateChannel_new revents hi hfree).1]
      exact nofun
    · simp only [updateChannel, if_pos hi, if_pos hfree]
      exact nofun
  · rw [updateChannel_registered revents hi (h.resolve_left hi)]
    exact nofun

end

/-- **The poller mirrors its channels along a run if and only if `updateChannel` is never called**;
and a call on a new or registered channel fails in whatever state the poller is. -/
theorem mirrors_iff {s₀ : System ι} (h₀ : lts.init s₀) (tr : List (Act ι)) :
    ((∀ tr' s, tr' <+: tr → lts.Run s₀ tr' s → Mirrors s) ↔ tr = []) ∧
    ∀ (s : State ι) c revents, (s.channel c).index < 0 ∨ s.channels_ (s.channel c).fd = some c →
      (updateChannel s c revents).1 ≠ .ok () := by
  refine ⟨?_, fun s c revents h => updateChannel_fails revents h⟩
  constructor
  · intro h
    cases tr with
    | nil => rfl
    | cons a tr =>
      obtain ⟨c, events, revents⟩ := a
      have hrun : lts.Run s₀ [.update c events revents] (update s₀ c events revents) := .single ⟨not_aborted h₀.2.2.2.1, rfl⟩
      have hm := h _ _ (List.prefix_append [_] tr) hrun
      have hnew : ((setChannel s₀.toState c { s₀.channel c with events := events }).channel c).index < 0 := by
        rw [setChannel_self]
        exact (h₀.2.2.2.2.1 c).1.trans_lt (by decide)
      have hok := hm.completes _ (List.mem_append_right _ (List.mem_singleton_self _))
        (by rw [decide_eq_true hnew]; rfl)
      exact absurd hok (updateChannel_fails revents (.inl hnew))
  · intro h tr' s hpre hr
    subst h
    rw [List.prefix_nil.mp hpre] at hr
    cases hr
    exact .of_init h₀

theorem mirrors_iff_first_call : ∃ s : System Nat, Mirrors s ∧
    ¬ ∀ tr' t, tr' <+: [.update 5 Channel.kReadEvent 0] → lts.Run s tr' t → Mirrors t := by
  have h₀ : lts.init (initial Int.ofNat) := initial_init (fun c d => Int.ofNat.inj) (fun c => Int.natCast_nonneg c)
  refine ⟨initial Int.ofNat, (mirrors_iff h₀ []).1.mpr rfl [] _ (List.prefix_refl _) (.nil _), ?_⟩
  intro h
  have := (mirrors_iff h₀ _).1.mp h
  cases this

/-- The first call throws, with the entry in the vector and the index set. -/
theorem throws_behind_push : ∃ t : System Nat, lts.Run (initial Int.ofNat) [.update 5 Channel.kReadEvent 0] t ∧
    t.calls.map (·.result) = [.error .bounds] ∧ t.pollfds_ = [⟨5, 3, 0⟩] ∧ (t.channel 5).index = 0 ∧ t.channels_ 5 = none :=
  ⟨update (initial Int.ofNat) 5 Channel.kReadEvent 0, .single ⟨not_aborted rfl, rfl⟩, rfl, rfl, rfl, rfl⟩

end MyLearning.Muduo.Poller
