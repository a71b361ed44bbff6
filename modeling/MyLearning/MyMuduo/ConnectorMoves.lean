import MyLearning.MyMuduo.ConnectorSockets

/-!
# What a connector asks of its loop

Beside its own fields a step of the connector changes two things that are the loop's: its channel, which it registers
and removes, and the queue of functors. A channel that is registered is that of an open socket, also where
`restart()` forgets sockets.
-/

namespace MyLearning.Connector

variable {s t : State} {a : Act}

/-- A channel that is registered is that of an open socket. -/
structure Sockets (s : State) : Prop where
  lt : ∀ n ∈ s.closed ++ s.passed, n < s.created
  opened : ∀ n, s.channel = some ⟨n, true⟩ → Open s n

theorem Sockets.due {s₀ : State} (g : Sockets s) (hd : Due s a s₀) : Sockets s₀ := by
  cases hd <;> exact ⟨g.lt, g.opened⟩

theorem Sockets.giveUp (g : Sockets s) (hcreated : t.created = s.created + 1)
    (hclosed : t.closed = s.closed ++ [s.created]) (hpassed : t.passed = s.passed) (hchannel : t.channel = s.channel) :
    Sockets t := by
  have mem : ∀ n, n ∈ t.closed ++ t.passed ↔ n ∈ s.closed ++ s.passed ∨ n = s.created := by
    intro n
    rw [hclosed, hpassed]
    simp only [List.mem_append, List.mem_singleton]
    tauto
  refine ⟨?_, ?_⟩
  · intro n hn
    rcases (mem n).mp hn with hn | rfl
    · have := g.lt n hn
      omega
    · omega
  · intro n hc
    obtain ⟨hlt, hno⟩ := g.opened n (hchannel ▸ hc)
    refine ⟨by omega, ?_⟩
    rw [mem]
    rintro (hn | rfl)
    · exact hno hn
    · omega

theorem Sockets.attempt (g : Sockets s) (ha : Attempt s t) : Sockets t := by
  cases ha with
  | connecting hc =>
    refine ⟨fun n hn => Nat.lt_succ_of_lt (g.lt n hn), ?_⟩
    intro n hn
    cases hn
    exact ⟨Nat.lt_succ_self _, fun hn => absurd (g.lt _ hn) (by omega)⟩
  | retry =>
    rw [retry_eq]
    exact g.giveUp rfl rfl rfl rfl
  | refused => exact g.giveUp rfl rfl rfl rfl

theorem Sockets.release {n : Nat} (g : Sockets s) (hc : s.channel = some ⟨n, true⟩) (hcreated : t.created = s.created)
    (hp : ∀ m, m ∈ t.closed ++ t.passed → m ∈ s.closed ++ s.passed ∨ m = n) (hchannel : t.channel = some ⟨n, false⟩) :
    Sockets t := by
  refine ⟨?_, ?_⟩
  · intro m hm
    rw [hcreated]
    rcases hp m hm with hm | rfl
    · exact g.lt m hm
    · exact (g.opened m hc).1
  · intro m hm
    -- the channel was removed before the socket is closed or handed over
    rw [hchannel] at hm
    cases hm

theorem Shape.held {c : Channel} (g : Shape s) (hs : s.state = .kConnecting) (hc : s.channel = some c) :
    s.channel = some ⟨c.fd, true⟩ := by
  obtain ⟨n, he⟩ := g.connecting hs
  rw [hc] at he ⊢
  cases he
  rfl

theorem Effect.sockets (h : Effect s a t) (hsh : Shape s) (g : Sockets s) : Sockets t := by
  cases h with
  | start | stop | stopped | handleEvent | ignored | endUser => exact ⟨g.lt, g.opened⟩
  | restart _ ha => exact Sockets.attempt (s := restarted s) ⟨g.lt, g.opened⟩ ha
  | attempt hd _ _ ha => exact (g.due hd).attempt ha
  | doNotConnect hd => exact g.due hd
  | resetChannel =>
    refine ⟨g.lt, ?_⟩
    intro n hn
    cases hn
  | stopInLoop _ _ hs hc | failed _ _ hs hc =>
    rw [retry_eq]
    refine g.release (hsh.held hs hc) rfl ?_ rfl
    intro n hn
    simp only [released, queueInLoop, List.mem_append, List.mem_singleton] at hn ⊢
    tauto
  | connected _ _ hs hc _ =>
    refine g.release (hsh.held hs hc) rfl ?_ rfl
    intro n hn
    simp only [newConnectionCallback, setState, released, queueInLoop, List.mem_append, List.mem_singleton] at hn ⊢
    tauto
  | late _ _ hs hc _ =>
    refine g.release (hsh.held hs hc) rfl ?_ rfl
    intro n hn
    simp only [close, setState, released, queueInLoop, List.mem_append, List.mem_singleton] at hn ⊢
    tauto

theorem sockets_of_reachable (h : lts.Reachable s) : Sockets s := by
  refine h.invariant_of (fun _ h => shape_of_reachable h) ?_ ?_
  · intro s hs
    cases hs
    exact ⟨by simp [initial], by simp [initial]⟩
  · intro s a t hsh g hs
    exact (step_effect hs).sockets hsh g

/-! ## What a step does to the channel and the queue -/

/-- What is left of the queue when an action has taken its functor. -/
def Act.left : Act → List PendingFunctor → List PendingFunctor
  | runFunctor _, q => q.tail
  | _, q => q

def Act.queued : Act → List PendingFunctor
  | start => [.startInLoop]
  | stop => [.stopInLoop]
  | _ => []

def Act.isRunFunctor : Act → Bool
  | runFunctor _ => true
  | _ => false

def Act.isCallback : Act → Bool
  | callback .. => true
  | _ => false

inductive Move (s : State) (a : Act) (t : State) : Prop
  | same : t.channel = s.channel → t.pendingFunctors = a.left s.pendingFunctors ++ a.queued → Move s a t
  | connecting : s.channel = none → t.channel = some ⟨s.created, true⟩ → s.created < t.created → a.queued = [] →
      t.pendingFunctors = a.left s.pendingFunctors → Move s a t
  | released (n : Nat) : s.channel = some ⟨n, true⟩ → t.channel = some ⟨n, false⟩ → a.queued = [] →
      a.isRunFunctor = true ∨ a.isCallback = true → t.pendingFunctors = a.left s.pendingFunctors ++ [.resetChannel] →
      Move s a t
  | reset (n : Nat) : s.channel = some ⟨n, false⟩ → t.channel = none → a.queued = [] → a.isRunFunctor = true →
      t.pendingFunctors = a.left s.pendingFunctors → Move s a t

theorem Move.channel {n : Nat} {r : Bool} (h : Move s a t) (hc : s.channel = some ⟨n, r⟩)
    (hrun : a.isRunFunctor = false) : ∃ r', t.channel = some ⟨n, r'⟩ := by
  cases h with
  | same hsame => exact ⟨r, hsame ▸ hc⟩
  | connecting hnone =>
    rw [hc] at hnone
    cases hnone
  | released m hs ht =>
    rw [hc] at hs
    cases hs
    exact ⟨false, ht⟩
  | reset _ _ _ _ h =>
    rw [hrun] at h
    cases h

theorem Move.no_reset {n : Nat} {r : Bool} {q : List PendingFunctor} (h : Move s a t)
    (hq : t.pendingFunctors = a.left s.pendingFunctors ++ q) (hc : t.channel = some ⟨n, r⟩) (hn : n < s.created)
    (hs : ∀ r, s.channel = some ⟨n, r⟩ → r = false) : s.channel = some ⟨n, r⟩ ∧ q.count .resetChannel = 0 := by
  cases h with
  | same hsame hp =>
    refine ⟨hsame ▸ hc, ?_⟩
    rw [List.append_cancel_left (hq.symm.trans hp)]
    cases a <;> rfl
  | connecting _ ht =>
    rw [ht] at hc
    cases hc
    exact absurd hn (Nat.lt_irrefl _)
  | released m hm ht =>
    rw [ht] at hc
    cases hc
    cases hs true hm
  | reset _ _ ht =>
    rw [ht] at hc
    cases hc

theorem Attempt.move {u : State} (h : Attempt u t) (hcreated : u.created = s.created) (hchannel : u.channel = s.channel)
    (hq : a.queued = []) (hpending : u.pendingFunctors = a.left s.pendingFunctors) : Move s a t := by
  have hkeep : u.pendingFunctors = a.left s.pendingFunctors ++ a.queued := by
    rw [hq, List.append_nil, hpending]
  cases h with
  | connecting hc =>
    exact .connecting (hchannel ▸ hc) (by rw [hcreated]) (hcreated ▸ Nat.lt_succ_self u.created) hq hpending
  | retry =>
    rw [retry_eq]
    exact .same hchannel hkeep
  | refused => exact .same hchannel hkeep

theorem Shape.reset_eq {rest : List PendingFunctor} (g : Shape s) (hp : s.pendingFunctors = .resetChannel :: rest) :
    ∃ n, s.channel = some ⟨n, false⟩ := by
  have hreset := g.reset
  cases hc : s.channel with
  | none => simp [hp, hc] at hreset
  | some c =>
    obtain ⟨n, r⟩ := c
    cases r with
    | false => exact ⟨n, rfl⟩
    | true => simp [hp, hc] at hreset

theorem Effect.move (h : Effect s a t) (g : Shape s) : Move s a t := by
  have keep : ∀ l : List PendingFunctor, l = l ++ [] := fun l => (List.append_nil l).symm
  have popped : ∀ {f rest}, s.pendingFunctors = f :: rest → ∀ e, rest = (Act.runFunctor e).left s.pendingFunctors := by
    intro f rest hp e
    rw [hp]
    rfl
  cases h with
  | start | stop => exact .same rfl rfl
  | restart _ ha => exact ha.move rfl rfl rfl rfl
  | attempt hd _ _ ha =>
    cases hd with
    | functor _ hp => exact ha.move rfl rfl rfl (popped hp _)
    | timer => exact ha.move rfl rfl rfl rfl
  | doNotConnect hd =>
    cases hd with
    | functor _ hp => exact .same rfl ((popped hp _).trans (keep _))
    | timer => exact .same rfl (keep _)
  | stopInLoop _ hp hs hc =>
    rw [retry_eq]
    exact .released _ (g.held hs hc) rfl rfl (.inl rfl) (congrArg (· ++ _) (popped hp _))
  | stopped _ hp _ => exact .same rfl ((popped hp _).trans (keep _))
  | resetChannel _ hp =>
    obtain ⟨n, hc⟩ := g.reset_eq hp
    exact .reset n hc rfl rfl rfl (popped hp _)
  | handleEvent | ignored | endUser => exact .same rfl (keep _)
  | failed _ _ hs hc =>
    rw [retry_eq]
    exact .released _ (g.held hs hc) rfl rfl (.inr rfl) rfl
  | connected _ _ hs hc _ | late _ _ hs hc _ => exact .released _ (g.held hs hc) rfl rfl (.inr rfl) rfl

/-- A callback of the channel is still to come, or the user is in one. -/
def Busy (s : State) : Prop := s.todo ≠ [] ∨ s.inUser = true

theorem busy_iff : Busy s ↔ ¬ InLoop s := by
  rw [InLoop, not_and_or, Bool.not_eq_false]
  rfl

theorem Effect.busy (h : Effect s a t) (ha : a.isCallback = false) (hb : ∀ callbacks, a ≠ .handleEvent callbacks)
    (ht : Busy t) : Busy s := by
  have attempt : ∀ {u : State}, Attempt u t → u.todo = s.todo → u.inUser = s.inUser → Busy s := by
    intro u hu htodo huser
    cases hu with
    | connecting => exact ht.imp (htodo ▸ ·) (huser ▸ ·)
    | retry =>
      rw [retry_eq] at ht
      exact ht.imp (htodo ▸ ·) (huser ▸ ·)
    | refused => exact ht.imp (htodo ▸ ·) (huser ▸ ·)
  cases h with
  | start | stop | stopped | resetChannel => exact ht
  | restart _ hu => exact attempt hu rfl rfl
  | attempt hd _ _ hu =>
    cases hd with
    | functor | timer => exact attempt hu rfl rfl
  | doNotConnect hd =>
    cases hd with
    | functor | timer => exact ht
  | stopInLoop =>
    rw [retry_eq] at ht
    exact ht
  | handleEvent => exact absurd rfl (hb _)
  | failed | connected | late | ignored => cases ha
  | endUser hu => exact .inr hu

/-! ## Sockets made -/

def Act.mayOpen : Act → Bool
  | restart _ | runFunctor _ | runTimer .. => true
  | _ => false

theorem Effect.created (h : Effect s a t) (ha : a.mayOpen = false) : t.created = s.created := by
  cases h with
  | start | stop | handleEvent | connected | late | ignored | endUser => rfl
  | failed => rw [retry_eq]; rfl
  | restart | stopInLoop | stopped | resetChannel => cases ha
  | attempt hd | doNotConnect hd => cases hd <;> cases ha

theorem Effect.created_le (h : Effect s a t) : s.created ≤ t.created := by
  have attempt : ∀ {u : State}, Attempt u t → u.created ≤ t.created := by
    intro u hu
    cases hu with
    | retry =>
      rw [retry_eq]
      exact Nat.le_succ _
    | connecting | refused => exact Nat.le_succ _
  cases h with
  | restart _ ha => exact attempt (u := restarted s) ha
  | attempt hd _ _ ha =>
    have hle := attempt ha
    cases hd with
    | functor | timer => exact hle
  | doNotConnect hd => cases hd <;> exact Nat.le_refl _
  | stopInLoop | failed =>
    rw [retry_eq]
    exact Nat.le_refl _
  | _ => exact Nat.le_refl _

theorem made_of_reachable (h : lts.Reachable s) : ∀ n r, s.channel = some ⟨n, r⟩ → n < s.created := by
  refine h.invariant_of (J := fun s => ∀ n r, s.channel = some ⟨n, r⟩ → n < s.created)
    (fun _ h => shape_of_reachable h) ?_ ?_
  · intro s hs n r hc
    cases hs
    cases hc
  · intro s a t g hmade hs n r hc
    have he := step_effect hs
    cases he.move g with
    | same hsame => exact Nat.lt_of_lt_of_le (hmade n r (hsame ▸ hc)) he.created_le
    | connecting _ ht hlt =>
      rw [ht] at hc
      cases hc
      exact hlt
    | released m hm ht =>
      rw [ht] at hc
      cases hc
      exact Nat.lt_of_lt_of_le (hmade n true hm) he.created_le
    | reset _ _ ht =>
      rw [ht] at hc
      cases hc

end MyLearning.Connector
