import MyLearning.MyMuduo.ConnectorEffect

/-!
# The channel of the connector

`removeAndResetChannel()` leaves the channel to a functor that destroys it later.
The queue never holds two such functors, and none while an attempt is under way, so
no attempt loses its channel to one that ended before.
-/

namespace MyLearning.Connector

/-- The channel is registered during an attempt; once it is removed, one queued
`resetChannel` will destroy it. -/
structure Shape (s : State) : Prop where
  connecting : s.state = .kConnecting → ∃ fd, s.channel = some ⟨fd, true⟩
  reset : s.pendingFunctors.count .resetChannel = if s.channel.any (fun c => !c.registered) then 1 else 0
  user : s.inUser = true → ∃ fd, s.channel = some ⟨fd, false⟩

theorem shape_initial : Shape initial where
  connecting h := by cases h
  reset := rfl
  user h := by cases h

section
variable {s : State} (g : Shape s)
include g

theorem Shape.no_reset {rest : List PendingFunctor} (hp : s.pendingFunctors = .resetChannel :: rest) :
    s.state ≠ .kConnecting ∧ rest.count .resetChannel = 0 := by
  have hr := g.reset
  rw [hp, List.count_cons_self] at hr
  constructor
  · intro hs
    obtain ⟨fd, hc⟩ := g.connecting hs
    simp [hc] at hr
  · split at hr <;> omega

theorem Shape.pop {cb : PendingFunctor} {rest : List PendingFunctor} (hp : s.pendingFunctors = cb :: rest)
    (hcb : cb ≠ .resetChannel) : Shape { s with pendingFunctors := rest } where
  connecting := g.connecting
  reset := by
    have hr := g.reset
    rwa [hp, List.count_cons_of_ne hcb] at hr
  user := g.user

theorem Shape.due {a : Act} {s₀ : State} (hd : Due s a s₀) : Shape s₀ := by
  cases hd with
  | functor _ hp => exact g.pop hp (by decide)
  | timer _ _ => exact ⟨g.connecting, g.reset, g.user⟩

theorem Shape.attempt {t : State} (hs : s.state = .kDisConnected) (ha : Attempt s t) : Shape t := by
  cases ha with
  | connecting hc =>
    refine ⟨fun _ => ⟨_, rfl⟩, ?_, ?_⟩
    · have hr := g.reset
      simpa [hc] using hr
    · intro hu
      obtain ⟨fd, he⟩ := g.user hu
      rw [hc] at he
      cases he
  | retry =>
    rw [retry_eq]
    exact ⟨by simp, g.reset, g.user⟩
  | refused => exact ⟨fun h => absurd (hs.symm.trans h) (by decide), g.reset, g.user⟩

theorem Shape.release {c : Channel} (hs : s.state = .kConnecting) (hc : s.channel = some c) :
    (released s c).pendingFunctors.count .resetChannel = 1 ∧ s.inUser = false := by
  obtain ⟨fd, he⟩ := g.connecting hs
  rw [hc] at he
  cases he
  constructor
  · have hr := g.reset
    simpa [released, queueInLoop, hc] using hr
  · by_contra hu
    obtain ⟨fd', he⟩ := g.user (Bool.eq_true_of_not_eq_false hu)
    rw [hc] at he
    cases he

end

theorem Effect.shape {s t : State} {a : Act} (h : Effect s a t) (g : Shape s) : Shape t := by
  cases h with
  | start | stop =>
    refine ⟨g.connecting, (List.count_append ..).trans ?_, g.user⟩
    exact g.reset
  | restart _ ha => exact Shape.attempt (s := restarted s) ⟨by simp [restarted, setState], g.reset, g.user⟩ rfl ha
  | attempt hd hs _ ha =>
    refine (g.due hd).attempt ?_ ha
    cases hd <;> exact hs
  | doNotConnect hd _ _ => exact g.due hd
  | stopInLoop _ hp hs hc =>
    have hrel := (g.pop hp (by decide)).release hs hc
    rw [retry_eq]
    exact ⟨by simp, by simpa [released, queueInLoop] using hrel.1, fun _ => ⟨_, rfl⟩⟩
  | stopped _ hp _ => exact g.pop hp (by decide)
  | resetChannel hl hp =>
    have hr := g.no_reset hp
    refine ⟨fun hs => absurd hs hr.1, by simpa [Connector.resetChannel] using hr.2, fun hu => ?_⟩
    exact absurd (hl.2.symm.trans hu) (by decide)
  | handleEvent => exact ⟨g.connecting, g.reset, g.user⟩
  | failed _ _ hs hc =>
    have hrel := g.release hs hc
    rw [retry_eq]
    exact ⟨by simp, by simpa [released, queueInLoop] using hrel.1, fun _ => ⟨_, rfl⟩⟩
  | connected _ _ hs hc _ =>
    have hrel := g.release hs hc
    exact ⟨by simp [newConnectionCallback, setState],
      by simpa [newConnectionCallback, setState, released, queueInLoop] using hrel.1, fun _ => ⟨_, rfl⟩⟩
  | late _ _ hs hc _ =>
    have hrel := g.release hs hc
    exact ⟨by simp [close, setState],
      by simpa [close, setState, released, queueInLoop] using hrel.1, fun _ => ⟨_, rfl⟩⟩
  | ignored => exact ⟨g.connecting, g.reset, g.user⟩
  | endUser => exact ⟨g.connecting, g.reset, fun hu => by cases hu⟩

theorem shape_of_reachable {s : State} (h : lts.Reachable s) : Shape s :=
  h.invariant_from shape_initial (fun _ _ _ g hs => (step_effect hs).shape g) fun _ h => h

end MyLearning.Connector
