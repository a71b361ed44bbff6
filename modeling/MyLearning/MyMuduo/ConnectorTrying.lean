import MyLearning.MyMuduo.ConnectorEffect

/-!
# The connector keeps trying

`connect_` is the user's intent as the loop sees it: only `restart()` sets it, and
`start()` clears it just as `stop()` does. So after `restart()` every failed attempt
leaves a timer that starts another one, and after `start()` what is outstanding finds
`connect_` false and does nothing.
-/

namespace MyLearning.Connector

def Outstanding (s : State) : Prop := .startInLoop ∈ s.pendingFunctors ∨ s.timers ≠ []

/-- `startInLoop()` in this state passes its assertion and calls `connect()`. -/
def TakesConnect (s : State) : Prop := s.state = .kDisConnected ∧ s.connect = true

/-- The user calls nothing, and no `startInLoop` runs. -/
def Waits (s : State) (a : Act) : Prop :=
  a ≠ .start ∧ a ≠ .stop ∧ (∀ e, a ≠ .restart e) ∧ ∀ s₀, ¬ Due s a s₀

/-- Something is outstanding, and whenever the next `startInLoop` runs before another
call of the user, it connects. -/
def KeepsTrying (s : State) : Prop :=
  Outstanding s ∧ ∀ tr u a u₀, (lts.restrict Waits).Run s tr u → Due u a u₀ → TakesConnect u

theorem startInLoop_takesConnect {s : State} (h : TakesConnect s) (e : SavedError) : startInLoop s e = connect s e := by
  unfold startInLoop
  rw [check_pos h.1, ok_bind, if_pos h.2]

/-! ## The intent -/

structure Intent (s : State) : Prop where
  connect : s.connect = true ↔ s.request = some .restart
  trying : s.connect = true → s.refused = false → s.state = .kDisConnected → Outstanding s

theorem intent_initial : Intent initial where
  connect := by decide
  trying h := by cases h

theorem Intent.frame {s t : State} (g : Intent s) (hconnect : t.connect = s.connect) (hrequest : t.request = s.request)
    (htrying : t.refused = false → t.state = .kDisConnected → s.connect = true → Outstanding t) : Intent t where
  connect := by rw [hconnect, hrequest]; exact g.connect
  trying hc hr hs := htrying hr hs (hconnect ▸ hc)

theorem Attempt.intent {s t : State} (h : Attempt s t) (hc : s.connect = true)
    (hr : s.request = some .restart) : Intent t := by
  cases h with
  | connecting => exact ⟨by simp [hc, hr], fun _ _ hs => by cases hs⟩
  | retry =>
    rw [retry_eq]
    exact ⟨by simp [hc, hr], fun _ _ _ => .inr (by simp [hc])⟩
  | refused => exact ⟨by simp [close, hc, hr], fun _ hr => by cases hr⟩

theorem Outstanding.pop {s : State} {cb : PendingFunctor} {rest : List PendingFunctor} (h : Outstanding s)
    (hp : s.pendingFunctors = cb :: rest) (hcb : cb ≠ .startInLoop) : .startInLoop ∈ rest ∨ s.timers ≠ [] := by
  refine h.imp_left fun hm => ?_
  rw [hp] at hm
  exact (List.mem_cons.mp hm).resolve_left (Ne.symm hcb)

theorem Effect.intent {s t : State} {a : Act} (h : Effect s a t) (g : Intent s) : Intent t := by
  cases h with
  | start | stop => exact ⟨by simp [Connector.start, Connector.stop, queueInLoop], fun hc => by cases hc⟩
  | restart _ ha => exact ha.intent rfl rfl
  | attempt hd _ hc ha => cases hd <;> exact ha.intent hc (g.connect.mp hc)
  | doNotConnect hd _ hc =>
    have hc : ¬ s.connect = true := by simp [hc]
    cases hd <;> exact g.frame rfl rfl fun _ _ h => absurd h hc
  | stopInLoop | failed =>
    refine g.frame (by rw [retry_eq]; rfl) (by rw [retry_eq]; rfl) fun _ _ hc => .inr ?_
    rw [retry_eq]
    simp [released, queueInLoop, hc]
  | stopped _ hp _ => exact g.frame rfl rfl fun hr hs hc => (g.trying hc hr hs).pop hp (by decide)
  | resetChannel _ hp => exact g.frame rfl rfl fun hr hs hc => (g.trying hc hr hs).pop hp (by decide)
  | connected | late => exact g.frame rfl rfl fun _ hs => by cases hs
  | handleEvent | ignored | endUser => exact g.frame rfl rfl fun hr hs hc => g.trying hc hr hs

theorem intent_of_reachable {s : State} (h : lts.Reachable s) : Intent s :=
  h.invariant_from intent_initial (fun _ _ _ g hs => (step_effect hs).intent g) fun _ h => h

/-! ## Waiting for the next `startInLoop` -/

theorem Effect.waits {s t : State} {a : Act} (h : Effect s a t) (hw : Waits s a) (hs : s.state = .kDisConnected) :
    t.state = .kDisConnected ∧ t.connect = s.connect := by
  obtain ⟨h₁, h₂, h₃, h₄⟩ := hw
  cases h with
  | start => exact absurd rfl h₁
  | stop => exact absurd rfl h₂
  | restart => exact absurd rfl (h₃ _)
  | attempt hd | doNotConnect hd => exact absurd hd (h₄ _)
  | stopInLoop _ _ hc _ | failed _ _ hc _ | connected _ _ hc _ | late _ _ hc _ =>
    exact absurd (hs.symm.trans hc) (by decide)
  | stopped | resetChannel | handleEvent | ignored | endUser => exact ⟨hs, rfl⟩

theorem waits_connect {s u : State} {tr : List Act} (hr : (lts.restrict Waits).Run s tr u)
    (hs : s.state = .kDisConnected) : u.state = .kDisConnected ∧ u.connect = s.connect := by
  refine hr.invariant (I := fun u => u.state = .kDisConnected ∧ u.connect = s.connect) ?_ ⟨hs, rfl⟩
  intro u a v hu hstep
  have hv := (step_effect hstep.2).waits hstep.1 hu.1
  exact ⟨hv.1, hv.2.trans hu.2⟩

theorem waits_callbacks : ∀ (todo : List Callback) (s : State), s.todo = todo → s.inUser = false →
    s.state = .kDisConnected → ∃ tr, (lts.restrict Waits).Run s tr { s with todo := [] }
  | [], s, ht, _, _ => ⟨[], by rw [show ({ s with todo := [] } : State) = s by rw [← ht]]; exact .nil s⟩
  | cb :: rest, s, ht, hu, hs => by
    obtain ⟨tr, hr⟩ := waits_callbacks rest { s with todo := rest } rfl hu hs
    refine ⟨.callback false false :: tr, .cons ⟨?_, ?_⟩ hr⟩
    · refine ⟨by simp, by simp, by simp, fun s₀ hd => by cases hd⟩
    · cases cb <;> simp [lts, step, hu, ht, handleWrite, handleError, hs]

theorem waits_inLoop {s : State} (hs : s.state = .kDisConnected) :
    ∃ tr, (lts.restrict Waits).Run s tr { s with todo := [], inUser := false } := by
  cases hu : s.inUser with
  | false =>
    obtain ⟨tr, hr⟩ := waits_callbacks s.todo s rfl hu hs
    exact ⟨tr, by rw [← hu]; exact hr⟩
  | true =>
    obtain ⟨tr, hr⟩ := waits_callbacks s.todo { s with inUser := false } rfl rfl hs
    refine ⟨.endUser :: tr, .cons ⟨⟨by simp, by simp, by simp, fun s₀ hd => by cases hd⟩, ?_⟩ hr⟩
    simp [lts, step, hu]

theorem waits_functors : ∀ (q : List PendingFunctor) (s : State), s.pendingFunctors = q → InLoop s →
    s.state = .kDisConnected → .startInLoop ∈ q →
    ∃ tr u a u₀, (lts.restrict Waits).Run s tr u ∧ Due u a u₀
  | [], _, _, _, _, hm => by cases hm
  | .startInLoop :: rest, s, hq, hl, _, _ => ⟨[], s, .runFunctor .zero, _, .nil s, .functor hl hq⟩
  | .stopInLoop :: rest, s, hq, hl, hs, hm => by
    obtain ⟨tr, u, a, u₀, hr, hd⟩ := waits_functors rest { s with pendingFunctors := rest } rfl hl hs (by simpa using hm)
    refine ⟨.runFunctor .zero :: tr, u, a, u₀, .cons ⟨⟨by simp, by simp, by simp, fun s₀ hd => ?_⟩, ?_⟩ hr, hd⟩
    · cases hd with
      | functor _ hp => rw [hq] at hp; cases hp
    · simp [lts, step, hl, hq, stopInLoop, hs]
  | .resetChannel :: rest, s, hq, hl, hs, hm => by
    obtain ⟨tr, u, a, u₀, hr, hd⟩ :=
      waits_functors rest (resetChannel { s with pendingFunctors := rest }) rfl hl hs (by simpa using hm)
    refine ⟨.runFunctor .zero :: tr, u, a, u₀, .cons ⟨⟨by simp, by simp, by simp, fun s₀ hd => ?_⟩, ?_⟩ hr, hd⟩
    · cases hd with
      | functor _ hp => rw [hq] at hp; cases hp
    · simp [lts, step, hl, hq]

theorem waits_due {s : State} (ho : Outstanding s) (hs : s.state = .kDisConnected) :
    ∃ tr u a u₀, (lts.restrict Waits).Run s tr u ∧ Due u a u₀ := by
  obtain ⟨tr, hr⟩ := waits_inLoop hs
  rcases ho with ho | ho
  · obtain ⟨tr', u, a, u₀, hr', hd⟩ :=
      waits_functors s.pendingFunctors { s with todo := [], inUser := false } rfl ⟨rfl, rfl⟩ hs ho
    exact ⟨tr ++ tr', u, a, u₀, hr.append hr', hd⟩
  · exact ⟨tr, _, .runTimer 0 .zero, _, hr, .timer ⟨rfl, rfl⟩ (List.length_pos_iff.mpr ho)⟩

/-- In every reachable state in which the last request is `start()` or `restart()`, no
attempt met a non-retryable errno and the connector is disconnected: **it keeps trying
if and only if that request is `restart()`**. -/
theorem keepsTrying_iff {s : State} (h : lts.Reachable s)
    (_ : s.request = some .start ∨ s.request = some .restart) (hrefused : s.refused = false)
    (hs : s.state = .kDisConnected) : KeepsTrying s ↔ s.request = some .restart := by
  have g := intent_of_reachable h
  constructor
  · intro hk
    obtain ⟨tr, u, a, u₀, hr, hd⟩ := waits_due hk.1 hs
    have hu := (hk.2 tr u a u₀ hr hd).2
    exact g.connect.mp ((waits_connect hr hs).2 ▸ hu)
  · intro hrestart
    have hc := g.connect.mpr hrestart
    refine ⟨g.trying hc hrefused hs, ?_⟩
    intro tr u a u₀ hr _
    have hu := waits_connect hr hs
    exact ⟨hu.1, hu.2.trans hc⟩

theorem keepsTrying_after_refusal : ∃ s, lts.Reachable s ∧ s.timers = [500] ∧ KeepsTrying s := by
  have hrun : (Lts.exec next initial [.restart .ECONNREFUSED]).map
      (fun s => (s.request, s.refused, s.state, s.timers)) =
        some (some .restart, false, .kDisConnected, [500]) := by decide +kernel
  obtain ⟨s, hs, h⟩ := Option.map_eq_some_iff.mp hrun
  simp only [Prod.mk.injEq] at h
  have hr := reachable_of_exec hs
  exact ⟨s, hr, h.2.2.2, (keepsTrying_iff hr (.inr h.1) h.2.1 h.2.2.1).mpr h.1⟩

/-- `start()` on a new connector queues a `startInLoop` that does not connect. -/
theorem start_does_not_try : ¬ ∀ s, lts.Reachable s → s.request = some .start ∨ s.request = some .restart →
    s.refused = false → s.state = .kDisConnected → KeepsTrying s := by
  intro hall
  have hr : lts.Reachable (start initial) := ⟨initial, [.start], rfl, .single rfl⟩
  have hk := hall _ hr (.inl rfl) rfl rfl
  have hd : Due (start initial) (.runFunctor .zero) _ := .functor ⟨rfl, rfl⟩ rfl
  have hc := (hk.2 [] _ _ _ (.nil _) hd).2
  cases hc

end MyLearning.Connector
