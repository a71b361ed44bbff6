import MyLearning.MyMuduo.Connector

/-!
# What one step of the connector does

A socket is opened by an `Attempt` and given up by a `Release`. `Effect` lists, action
by action, when a step can happen and the state it leads to; `step_effect` is the
inversion of `step`.
-/

namespace MyLearning.Connector

/-! ## Attempts and releases -/

inductive Attempt : State → State → Prop
  | connecting {s} : s.channel = none →
      Attempt s { s with created := s.created + 1, state := .kConnecting, channel := some ⟨s.created, true⟩ }
  | retry {s} : Attempt s (retry { s with created := s.created + 1 } s.created)
  | refused {s} : Attempt s (close { s with created := s.created + 1, refused := true } s.created)

def released (s : State) (c : Channel) : State :=
  queueInLoop { s with channel := some { c with registered := false } } .resetChannel

def restarted (s : State) : State :=
  { setState s .kDisConnected with retryDelayMs := kInitRetryDelayMs, connect := true, request := some .restart }

theorem retry_eq (s : State) (sockfd : Nat) : retry s sockfd =
    { s with
      closed := s.closed ++ [sockfd]
      state := .kDisConnected
      timers := if s.connect then s.timers ++ [s.retryDelayMs] else s.timers
      retryDelayMs := if s.connect then min (s.retryDelayMs * 2) kMaxRetryDelayMs else s.retryDelayMs } := by
  unfold retry setState close
  cases s.connect <;> simp

theorem attempt_of_connect {s t : State} {e : SavedError} (h : connect s e = .ok t) : Attempt s t := by
  unfold connect connecting setState at h
  cases e with
  | zero | EINPROGRESS | EINTR | EISCONN =>
    obtain ⟨hc, h⟩ := check_bind_eq_ok.mp h
    cases h
    exact .connecting hc
  | EAGAIN | EADDRINUSE | EADDRNOTAVAIL | ECONNREFUSED | ENETUNREACH => cases h; exact .retry
  | _ => cases h; exact .refused

theorem startInLoop_eq_ok {s t : State} {e : SavedError} (h : startInLoop s e = .ok t) :
    s.state = .kDisConnected ∧ (s.connect = true ∧ Attempt s t ∨ s.connect = false ∧ t = s) := by
  unfold startInLoop at h
  obtain ⟨hd, h⟩ := check_bind_eq_ok.mp h
  refine ⟨hd, ?_⟩
  split at h
  · rename_i hc
    exact .inl ⟨hc, attempt_of_connect h⟩
  · rename_i hc
    cases h
    exact .inr ⟨Bool.eq_false_iff.mpr hc, rfl⟩

theorem removeAndResetChannel_eq {s : State} {c : Channel} (h : s.channel = some c) :
    removeAndResetChannel s = .ok (c.fd, released s c) := by
  unfold removeAndResetChannel released
  rw [h]

theorem removeAndResetChannel_eq_ok {s : State} {p : Nat × State} (h : removeAndResetChannel s = .ok p) :
    ∃ c, s.channel = some c ∧ p = (c.fd, released s c) := by
  unfold removeAndResetChannel at h
  split at h
  · cases h
  · rename_i c hc
    cases h
    exact ⟨c, hc, rfl⟩

theorem retry_setState (s : State) (x : States) (c : Channel) (fd : Nat) :
    retry (released (setState s x) c) fd = retry (released s c) fd := rfl

/-! ## The effect of an action -/

/-- `a` executes an outstanding `startInLoop`, which leaves the queue or the timers. -/
inductive Due : State → Act → State → Prop
  | functor {s rest e} : InLoop s → s.pendingFunctors = .startInLoop :: rest →
      Due s (.runFunctor e) { s with pendingFunctors := rest }
  | timer {s i e} : InLoop s → i < s.timers.length → Due s (.runTimer i e) { s with timers := s.timers.eraseIdx i }

inductive Effect : State → Act → State → Prop
  | start {s} : Effect s .start (start s)
  | stop {s} : Effect s .stop (stop s)
  | restart {s e t} : s.todo = [] ∨ s.inUser = true → Attempt (restarted s) t → Effect s (.restart e) t
  | attempt {s a s₀ t} : Due s a s₀ → s.state = .kDisConnected → s.connect = true → Attempt s₀ t → Effect s a t
  | doNotConnect {s a s₀} : Due s a s₀ → s.state = .kDisConnected → s.connect = false → Effect s a s₀
  | stopInLoop {s rest e c} : InLoop s → s.pendingFunctors = .stopInLoop :: rest → s.state = .kConnecting →
      s.channel = some c →
      Effect s (.runFunctor e) (retry (released { s with pendingFunctors := rest } c) c.fd)
  | stopped {s rest e} : InLoop s → s.pendingFunctors = .stopInLoop :: rest → s.state ≠ .kConnecting →
      Effect s (.runFunctor e) { s with pendingFunctors := rest }
  | resetChannel {s rest e} : InLoop s → s.pendingFunctors = .resetChannel :: rest →
      Effect s (.runFunctor e) (resetChannel { s with pendingFunctors := rest })
  | handleEvent {s callbacks c} : InLoop s → s.channel = some c → c.registered = true → callbacks.Nodup →
      Effect s (.handleEvent callbacks) { s with todo := callbacks }
  | failed {s cb rest err self c} : s.inUser = false → s.todo = cb :: rest → s.state = .kConnecting →
      s.channel = some c → Effect s (.callback err self) (retry (released { s with todo := rest } c) c.fd)
  | connected {s rest err self c} : s.inUser = false → s.todo = .write :: rest → s.state = .kConnecting →
      s.channel = some c → s.connect = true → Effect s (.callback err self)
        (newConnectionCallback (setState (released { s with todo := rest } c) .kConnected) c.fd)
  | late {s rest err self c} : s.inUser = false → s.todo = .write :: rest → s.state = .kConnecting →
      s.channel = some c → s.connect = false → Effect s (.callback err self)
        (close (setState (released { s with todo := rest } c) .kConnected) c.fd)
  | ignored {s cb rest err self} : s.inUser = false → s.todo = cb :: rest → s.state ≠ .kConnecting →
      (cb = .write → s.state = .kDisConnected) → Effect s (.callback err self) { s with todo := rest }
  | endUser {s} : s.inUser = true → Effect s .endUser { s with inUser := false }

theorem effect_of_due {s s₀ t : State} {a : Act} {e : SavedError} (hd : Due s a s₀)
    (hstate : s₀.state = s.state) (hconnect : s₀.connect = s.connect) (h : startInLoop s₀ e = .ok t) :
    Effect s a t := by
  obtain ⟨hs, ⟨hc, ha⟩ | ⟨hc, ht⟩⟩ := startInLoop_eq_ok h
  · exact .attempt hd (hstate ▸ hs) (hconnect ▸ hc) ha
  · rw [ht]
    exact .doNotConnect hd (hstate ▸ hs) (hconnect ▸ hc)

theorem effect_of_stopInLoop {s t : State} {rest : List PendingFunctor} {e : SavedError} (hl : InLoop s)
    (hp : s.pendingFunctors = .stopInLoop :: rest) (h : stopInLoop { s with pendingFunctors := rest } = .ok t) :
    Effect s (.runFunctor e) t := by
  unfold stopInLoop at h
  split at h
  · rename_i hs
    obtain ⟨p, hr, ht⟩ := bind_eq_ok.mp h
    obtain ⟨c, hc, rfl⟩ := removeAndResetChannel_eq_ok hr
    cases ht
    rw [retry_setState]
    exact .stopInLoop hl hp hs hc
  · rename_i hs
    cases h
    exact .stopped hl hp hs

theorem effect_of_handleWrite {s t : State} {rest : List Callback} {err self : Bool} (hu : s.inUser = false)
    (hp : s.todo = .write :: rest) (h : handleWrite { s with todo := rest } err self = .ok t) :
    Effect s (.callback err self) t := by
  unfold handleWrite at h
  split at h
  · rename_i hs
    obtain ⟨p, hr, ht⟩ := bind_eq_ok.mp h
    obtain ⟨c, hc, rfl⟩ := removeAndResetChannel_eq_ok hr
    simp only at ht
    split at ht
    · cases ht; exact .failed hu hp hs hc
    · split at ht
      · cases ht; exact .failed hu hp hs hc
      · split at ht
        · rename_i hconn
          cases ht; exact .connected hu hp hs hc hconn
        · rename_i hconn
          cases ht; exact .late hu hp hs hc (Bool.eq_false_iff.mpr hconn)
  · rename_i hs
    obtain ⟨hd, h⟩ := check_bind_eq_ok.mp h
    cases h
    exact .ignored hu hp hs fun _ => hd

theorem effect_of_handleError {s t : State} {rest : List Callback} {err self : Bool} (hu : s.inUser = false)
    (hp : s.todo = .error :: rest) (h : handleError { s with todo := rest } = .ok t) :
    Effect s (.callback err self) t := by
  unfold handleError at h
  split at h
  · rename_i hs
    obtain ⟨p, hr, ht⟩ := bind_eq_ok.mp h
    obtain ⟨c, hc, rfl⟩ := removeAndResetChannel_eq_ok hr
    cases ht
    exact .failed hu hp hs hc
  · rename_i hs
    cases h
    exact .ignored hu hp hs fun he => by cases he

theorem step_effect {s t : State} {a : Act} (h : lts.step s a t) : Effect s a t := by
  cases a with
  | start => cases h; exact .start
  | stop => cases h; exact .stop
  | restart e =>
    simp only [lts, step, Option.ite_none_right_eq_some, Option.some.injEq] at h
    obtain ⟨-, ⟨-, ha⟩ | ⟨hc, -⟩⟩ := startInLoop_eq_ok h.2
    · exact .restart h.1 ha
    · cases hc
  | runFunctor e =>
    simp only [lts, step, Option.ite_none_right_eq_some] at h
    obtain ⟨hl, h⟩ := h
    split at h
    · cases h
    · rename_i rest hp
      exact effect_of_due (.functor hl hp) rfl rfl (Option.some.inj h)
    · rename_i rest hp
      exact effect_of_stopInLoop hl hp (Option.some.inj h)
    · rename_i rest hp
      cases h
      exact .resetChannel hl hp
  | runTimer i e =>
    simp only [lts, step, Option.ite_none_right_eq_some, Option.some.injEq] at h
    obtain ⟨⟨hl, hi⟩, h⟩ := h
    exact effect_of_due (.timer hl hi) rfl rfl h
  | handleEvent callbacks =>
    simp only [lts, step, Option.ite_none_right_eq_some, Option.some.injEq, Option.any_eq_true] at h
    obtain ⟨⟨hl, ⟨c, hc, hr⟩, hn⟩, h⟩ := h
    cases h
    exact .handleEvent hl hc hr hn
  | callback err self =>
    simp only [lts, step, Option.ite_none_left_eq_some, Bool.not_eq_true] at h
    obtain ⟨hu, h⟩ := h
    split at h
    · cases h
    · rename_i rest hp
      exact effect_of_handleWrite hu hp (Option.some.inj h)
    · rename_i rest hp
      exact effect_of_handleError hu hp (Option.some.inj h)
  | endUser =>
    simp only [lts, step, Option.ite_none_right_eq_some, Option.some.injEq] at h
    obtain ⟨hu, h⟩ := h
    cases h
    exact .endUser hu

/-! ## Evaluation -/

def next (s : State) (a : Act) : Option State := (step s a).bind Except.toOption

theorem next_eq_some {s t : State} {a : Act} (h : next s a = some t) : lts.step s a t := by
  obtain ⟨r, hr, ht⟩ := Option.bind_eq_some_iff.mp h
  cases r with
  | error f => cases ht
  | ok u => cases ht; exact hr

theorem reachable_of_exec {tr : List Act} {s : State} (h : Lts.exec next initial tr = some s) : lts.Reachable s :=
  ⟨initial, tr, rfl, Lts.run_of_exec (fun _ _ _ h => next_eq_some h) h⟩

end MyLearning.Connector
