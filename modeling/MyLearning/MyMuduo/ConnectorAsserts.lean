import MyLearning.MyMuduo.ConnectorChannel
import MyLearning.MyMuduo.ConnectorTrying

/-!
# The assertions of the connector

`startInLoop()` asserts that the connector is disconnected, `connecting()` that it has
no channel, `handleWrite()` that it is not connected. Nothing makes the callers see to
it: a queued `startInLoop` and a retry timer run in whatever state they find, and
`restart()` takes no notice of the channel nor of what is outstanding. `Calm` says
which calls and timers keep the assertions, and any other can break one.
-/

namespace MyLearning.Connector

/-- The callback to come next is `handleError` of an attempt, which ends it. -/
def AboutToFail (s : State) : Prop := s.state = .kConnecting ∧ s.todo.head? = some .error

/-- `start()` finds the connector disconnected or about to be, `restart()` finds no
channel and nothing outstanding, and a retry timer that connects finds no channel. -/
def Calm (s : State) : Act → Prop
  | .start => s.state = .kDisConnected ∨ AboutToFail s
  | .restart _ => s.channel = none ∧ ¬ Outstanding s
  | .runTimer _ _ => s.connect = true → s.channel = none
  | _ => True

structure Safe (s : State) : Prop where
  shape : Shape s
  due : Outstanding s → s.state = .kDisConnected ∨ s.connect = false ∧ AboutToFail s
  single : s.connect = true → .startInLoop ∉ s.pendingFunctors ∧ s.timers.length ≤ 1
  registered : ∀ fd, s.channel = some ⟨fd, true⟩ → s.state = .kConnecting
  write : .write ∈ s.todo → s.state ≠ .kConnected
  nodup : s.todo.Nodup

theorem safe_initial : Safe initial where
  shape := shape_initial
  due _ := .inl rfl
  single h := by cases h
  registered fd h := by cases h
  write h := by cases h
  nodup := List.nodup_nil

section
variable {s : State} (g : Safe s)
include g

theorem Safe.due_inLoop (hl : s.todo = []) (ho : Outstanding s) : s.state = .kDisConnected := by
  refine (g.due ho).resolve_right fun h => ?_
  have := h.2.2
  rw [hl] at this
  cases this

theorem Safe.not_outstanding (hs : s.state = .kConnecting) (ht : s.todo.head? ≠ some .error) : ¬ Outstanding s := by
  intro ho
  rcases g.due ho with h | h
  · exact absurd (hs.symm.trans h) (by decide)
  · exact ht h.2.2

theorem Safe.not_outstanding_of_connect (hs : s.state = .kConnecting) (hc : s.connect = true) : ¬ Outstanding s := by
  intro ho
  rcases g.due ho with h | h
  · exact absurd (hs.symm.trans h) (by decide)
  · exact absurd (hc.symm.trans h.1) (by decide)

theorem Safe.user_todo (hu : s.inUser = true) : s.channel ≠ none := by
  obtain ⟨fd, hc⟩ := g.shape.user hu
  simp [hc]

end

theorem outstanding_cons {s : State} {cb : PendingFunctor} {rest : List PendingFunctor}
    (hp : s.pendingFunctors = cb :: rest) (h : .startInLoop ∈ rest ∨ s.timers ≠ []) : Outstanding s :=
  h.imp_left fun hm => by rw [hp]; exact List.mem_cons_of_mem _ hm

theorem outstanding_of_due {s s₀ : State} {a : Act} (h : Due s a s₀) : Outstanding s := by
  cases h with
  | functor _ hp => exact .inl (by simp [hp])
  | timer _ hi => exact .inr (by intro h; simp [h] at hi)

theorem Safe.alone {s s₀ : State} {a : Act} (g : Safe s) (hd : Due s a s₀) (hc : s.connect = true) :
    ¬ Outstanding s₀ := by
  obtain ⟨hq, hlen⟩ := g.single hc
  cases hd with
  | functor _ hp => exact absurd (by simp [hp]) hq
  | @timer i e hl hi =>
    have hnil : s.timers.eraseIdx i = [] := by
      apply List.eq_nil_of_length_eq_zero
      rw [List.length_eraseIdx_of_lt hi]
      omega
    intro ho
    rcases ho with ho | ho
    · exact hq ho
    · exact ho hnil

theorem Attempt.safe {s t : State} (h : Attempt s t) (hsh : Shape t) (hs : s.state = .kDisConnected)
    (ho : ¬ Outstanding s) (hr : ∀ fd, s.channel ≠ some ⟨fd, true⟩) (hn : s.todo.Nodup) : Safe t := by
  simp only [Outstanding, not_or, not_not] at ho
  cases h with
  | connecting hc =>
    exact ⟨hsh, fun h => absurd h (by simp [Outstanding, ho]), fun _ => ⟨ho.1, by simp [ho.2]⟩, fun _ _ => rfl,
      fun _ => by simp, hn⟩
  | retry =>
    rw [retry_eq] at hsh ⊢
    refine ⟨hsh, fun _ => .inl rfl, fun hc => ⟨ho.1, ?_⟩, fun fd hc => absurd hc (hr fd), fun _ => by simp, hn⟩
    simp only at hc
    simp [hc, ho.2]
  | refused =>
    exact ⟨hsh, fun h => absurd h (by simp [Outstanding, close, ho]), fun _ => ⟨ho.1, by simp [close, ho.2]⟩,
      fun fd hc => absurd hc (hr fd), fun _ => by simp [close, hs], hn⟩

theorem safe_retry {s : State} {c : Channel} {sockfd : Nat} (hsh : Shape (retry (released s c) sockfd))
    (ho : s.connect = true → ¬ Outstanding s) (hn : s.todo.Nodup) : Safe (retry (released s c) sockfd) := by
  refine ⟨hsh, ?_, ?_, ?_, ?_, ?_⟩ <;> rw [retry_eq]
  · exact fun _ => .inl rfl
  · intro hc
    have ho := ho hc
    simp only [Outstanding, not_or, not_not] at ho
    have hconn : s.connect = true := hc
    simp [released, queueInLoop, hconn, ho]
  · intro fd hc
    cases hc
  · exact fun _ => by simp
  · exact hn

theorem safe_connected {s t : State} (hsh : Shape t) (ho : ¬ Outstanding s)
    (hq : t.pendingFunctors = s.pendingFunctors ++ [.resetChannel]) (ht : t.timers = s.timers)
    (hc : ∀ fd, t.channel ≠ some ⟨fd, true⟩) (hw : .write ∉ t.todo) (hn : t.todo.Nodup) : Safe t := by
  simp only [Outstanding, not_or, not_not] at ho
  have hmem : .startInLoop ∉ t.pendingFunctors := by simp [hq, ho.1]
  refine ⟨hsh, ?_, fun _ => ⟨hmem, by simp [ht, ho.2]⟩, fun fd h => absurd h (hc fd), fun h => absurd h hw, hn⟩
  intro h
  rcases h with h | h
  · exact absurd h hmem
  · exact absurd (ht.trans ho.2) h

theorem Effect.safe {s t : State} {a : Act} (h : Effect s a t) (g : Safe s) (hc : Calm s a) : Safe t := by
  have hsh : Shape t := h.shape g.shape
  have hunreg : s.state ≠ .kConnecting → ∀ fd, s.channel ≠ some ⟨fd, true⟩ := fun hs fd h => hs (g.registered fd h)
  cases h with
  | start => exact ⟨hsh, fun _ => hc.imp_right fun h => ⟨rfl, h⟩, (fun h => by cases h), g.registered, g.write, g.nodup⟩
  | stop =>
    refine ⟨hsh, fun ho => ?_, (fun h => by cases h), g.registered, g.write, g.nodup⟩
    have ho : Outstanding s := by simpa [Outstanding, Connector.stop, queueInLoop] using ho
    exact (g.due ho).imp_right fun h => ⟨rfl, h.2⟩
  | restart _ ha =>
    refine ha.safe hsh rfl hc.2 ?_ g.nodup
    intro fd h
    exact absurd (hc.1.symm.trans h) (by simp)
  | attempt hd hs hconn ha =>
    have halone := g.alone hd hconn
    have hr := hunreg (by rw [hs]; decide)
    cases hd <;> exact ha.safe hsh hs halone hr g.nodup
  | doNotConnect hd hs hconn =>
    have hf : ¬ s.connect = true := by simp [hconn]
    have hne : s.state ≠ .kConnected := by rw [hs]; decide
    cases hd <;> exact ⟨hsh, fun _ => .inl hs, fun h => absurd h hf, g.registered, fun _ => hne, g.nodup⟩
  | stopInLoop hl hp hs _ =>
    have ho := g.not_outstanding hs (by simp [hl.1])
    exact safe_retry hsh (fun _ h => ho (outstanding_cons hp h)) g.nodup
  | stopped _ hp _ =>
    refine ⟨hsh, fun ho => g.due (outstanding_cons hp ho), fun h => ?_, g.registered, g.write, g.nodup⟩
    obtain ⟨hq, ht⟩ := g.single h
    exact ⟨fun hm => hq (by rw [hp]; exact List.mem_cons_of_mem _ hm), ht⟩
  | resetChannel hl hp =>
    refine ⟨hsh, fun ho => .inl (g.due_inLoop hl.1 (outstanding_cons hp ho)), fun h => ?_, (fun fd h => by cases h),
      g.write, g.nodup⟩
    obtain ⟨hq, ht⟩ := g.single h
    exact ⟨fun hm => hq (by rw [hp]; exact List.mem_cons_of_mem _ hm), ht⟩
  | handleEvent hl hch hreg hn =>
    have hs : s.state = .kConnecting := g.registered _ (by rw [hch, ← hreg])
    have ho := g.not_outstanding hs (by simp [hl.1])
    exact ⟨hsh, fun h => absurd h ho, g.single, g.registered, fun _ => by simp [hs], hn⟩
  | failed hu ht hs _ =>
    have hn := (List.nodup_cons.mp (ht ▸ g.nodup)).2
    exact safe_retry hsh (fun h => g.not_outstanding_of_connect hs h) hn
  | connected hu ht hs _ _ | late hu ht hs _ _ =>
    have hn := List.nodup_cons.mp (ht ▸ g.nodup)
    exact safe_connected hsh (g.not_outstanding hs (by simp [ht])) rfl rfl (fun fd h => by cases h) hn.1 hn.2
  | ignored hu ht hs hw =>
    have hn := List.nodup_cons.mp (ht ▸ g.nodup)
    refine ⟨hsh, fun ho => ?_, g.single, g.registered, fun hm => g.write (by rw [ht]; exact List.mem_cons_of_mem _ hm),
      hn.2⟩
    exact .inl ((g.due ho).resolve_right fun h => hs h.2.1)
  | endUser => exact ⟨hsh, g.due, g.single, g.registered, g.write, g.nodup⟩

theorem safe_of_reachable {s : State} (h : (lts.restrict Calm).Reachable s) : Safe s :=
  h.invariant_from safe_initial (fun _ _ _ g hs => (step_effect hs.2).safe g hs.1) fun _ h => h

/-! ## Calls that go through -/

theorem connect_ok {s : State} (h : s.channel = none) (e : SavedError) : ∃ t, connect s e = .ok t := by
  have hconnecting : ∃ t, connecting { s with created := s.created + 1 } s.created = .ok t :=
    ⟨_, check_bind_eq_ok.mpr ⟨h, rfl⟩⟩
  cases e with
  | zero | EINPROGRESS | EINTR | EISCONN => exact hconnecting
  | _ => exact ⟨_, rfl⟩

theorem startInLoop_ok {s : State} (hs : s.state = .kDisConnected) (hc : s.connect = true → s.channel = none)
    (e : SavedError) : ∃ t, startInLoop s e = .ok t := by
  unfold startInLoop
  rw [check_pos hs, ok_bind]
  split
  · rename_i h
    exact connect_ok (hc h) e
  · exact ⟨s, rfl⟩

theorem stopInLoop_ok {s : State} (h : s.state = .kConnecting → s.channel ≠ none) : ∃ t, stopInLoop s = .ok t := by
  unfold stopInLoop
  split
  · rename_i hs
    obtain ⟨c, hc⟩ := Option.ne_none_iff_exists'.mp (h hs)
    rw [removeAndResetChannel_eq (by exact hc)]
    exact ⟨_, rfl⟩
  · exact ⟨s, rfl⟩

theorem handleError_ok {s : State} (h : s.state = .kConnecting → s.channel ≠ none) : ∃ t, handleError s = .ok t := by
  unfold handleError
  split
  · rename_i hs
    obtain ⟨c, hc⟩ := Option.ne_none_iff_exists'.mp (h hs)
    rw [removeAndResetChannel_eq hc]
    exact ⟨_, rfl⟩
  · exact ⟨s, rfl⟩

theorem handleWrite_ok {s : State} (h : s.state = .kConnecting → s.channel ≠ none) (hs : s.state ≠ .kConnected)
    (err self : Bool) : ∃ t, handleWrite s err self = .ok t := by
  unfold handleWrite
  split
  · rename_i hs
    obtain ⟨c, hc⟩ := Option.ne_none_iff_exists'.mp (h hs)
    rw [removeAndResetChannel_eq hc, ok_bind]
    simp only
    split
    · exact ⟨_, rfl⟩
    · split
      · exact ⟨_, rfl⟩
      · split <;> exact ⟨_, rfl⟩
  · rename_i hne
    have hd : s.state = .kDisConnected := by cases hst : s.state <;> simp_all
    rw [check_pos hd]
    exact ⟨s, rfl⟩

theorem Safe.step_ok {s : State} {a : Act} {r : Except Fault State} (g : Safe s) (hc : Calm s a)
    (h : step s a = some r) : ∃ t, r = .ok t := by
  have hchan : s.state = .kConnecting → s.channel ≠ none := by
    intro hs
    obtain ⟨fd, hc⟩ := g.shape.connecting hs
    simp [hc]
  cases a with
  | start | stop => cases h; exact ⟨_, rfl⟩
  | restart e =>
    simp only [step, Option.ite_none_right_eq_some, Option.some.injEq] at h
    rw [← h.2]
    refine startInLoop_ok ?_ ?_ e
    · rfl
    · exact fun _ => hc.1
  | runFunctor e =>
    simp only [step, Option.ite_none_right_eq_some] at h
    obtain ⟨hl, h⟩ := h
    split at h
    · cases h
    · rename_i rest hp
      cases h
      refine startInLoop_ok ?_ ?_ e
      · exact g.due_inLoop hl.1 (.inl (by simp [hp]))
      · exact fun hconn => absurd (by simp [hp]) (g.single hconn).1
    · cases h; exact stopInLoop_ok hchan
    · cases h; exact ⟨_, rfl⟩
  | runTimer i e =>
    simp only [step, Option.ite_none_right_eq_some, Option.some.injEq] at h
    obtain ⟨⟨hl, hi⟩, rfl⟩ := h
    refine startInLoop_ok ?_ ?_ e
    · exact g.due_inLoop hl.1 (outstanding_of_due (.timer (e := e) hl hi))
    · exact hc
  | handleEvent callbacks =>
    simp only [step, Option.ite_none_right_eq_some, Option.some.injEq] at h
    exact ⟨_, h.2.symm⟩
  | callback err self =>
    simp only [step, Option.ite_none_left_eq_some] at h
    obtain ⟨-, h⟩ := h
    split at h
    · cases h
    · rename_i rest hp
      cases h
      refine handleWrite_ok ?_ ?_ err self
      · exact hchan
      · exact g.write (by simp [hp])
    · cases h; exact handleError_ok hchan
  | endUser =>
    simp only [step, Option.ite_none_right_eq_some, Option.some.injEq] at h
    exact ⟨_, h.2.symm⟩

/-! ## Calls that do not -/

def Fails (s : State) : Prop := ∃ tr u b, lts.Run s tr u ∧ step u b = some (.error .assertion)

/-- The call with `connect(2)` under way at once. -/
def Act.call : Act → Act
  | .restart _ => .restart .zero
  | .runTimer i _ => .runTimer i .zero
  | a => a

def CanFail (s : State) (a : Act) : Prop :=
  step s a.call = some (.error .assertion) ∨ ∃ t, lts.step s a.call t ∧ Fails t

theorem Fails.step {s t : State} {a : Act} (h : Fails t) (hs : lts.step s a t) : Fails s := by
  obtain ⟨tr, u, b, hr, hb⟩ := h
  exact ⟨a :: tr, u, b, .cons hs hr, hb⟩

theorem startInLoop_fails {s : State} (hs : s.state ≠ .kDisConnected) (e : SavedError) :
    startInLoop s e = .error .assertion := by
  exact check_bind_error hs

theorem startInLoop_fails_channel {s : State} (hs : s.state = .kDisConnected) (hc : s.connect = true)
    (h : s.channel ≠ none) : startInLoop s .zero = .error .assertion := by
  unfold startInLoop
  rw [check_pos hs, ok_bind, if_pos hc]
  exact check_bind_error h

theorem fails_functors : ∀ (q : List PendingFunctor) (s : State), s.pendingFunctors = q → InLoop s →
    s.state = .kConnected → .startInLoop ∈ q → Fails s
  | [], _, _, _, _, hm => by cases hm
  | .startInLoop :: rest, s, hq, hl, hs, _ => by
    refine ⟨[], s, .runFunctor .zero, .nil s, ?_⟩
    simp only [step, hl, hq, if_true]
    rw [startInLoop_fails (by simp [hs])]
  | .stopInLoop :: rest, s, hq, hl, hs, hm => by
    refine Fails.step (fails_functors rest { s with pendingFunctors := rest } rfl hl hs (by simpa using hm))
      (a := .runFunctor .zero) ?_
    simp [lts, Connector.step, hl, hq, stopInLoop, hs]
  | .resetChannel :: rest, s, hq, hl, hs, hm => by
    refine Fails.step (fails_functors rest (resetChannel { s with pendingFunctors := rest }) rfl hl hs
      (by simpa using hm)) (a := .runFunctor .zero) ?_
    simp [lts, Connector.step, hl, hq]

theorem fails_callbacks : ∀ (todo : List Callback) (s : State), s.todo = todo → s.inUser = false →
    s.state = .kConnected → .write ∉ todo → .startInLoop ∈ s.pendingFunctors → Fails s
  | [], s, ht, hu, hs, _, hm => fails_functors _ s rfl ⟨ht, hu⟩ hs hm
  | .write :: rest, _, _, _, _, hw, _ => absurd (List.mem_cons_self ..) hw
  | .error :: rest, s, ht, hu, hs, hw, hm => by
    refine Fails.step (fails_callbacks rest { s with todo := rest } rfl hu hs (by simpa using hw) hm)
      (a := .callback false false) ?_
    simp [lts, Connector.step, hu, ht, handleError, hs]

theorem fails_connected {s : State} (hs : s.state = .kConnected) (hw : .write ∉ s.todo)
    (hm : .startInLoop ∈ s.pendingFunctors) : Fails s := by
  cases hu : s.inUser with
  | false => exact fails_callbacks _ s rfl hu hs hw hm
  | true =>
    refine Fails.step (fails_callbacks _ { s with inUser := false } rfl rfl hs hw hm) (a := .endUser) ?_
    simp [lts, Connector.step, hu]

theorem fails_write {s : State} {rest : List Callback} (g : Shape s) (hs : s.state = .kConnecting)
    (ht : s.todo = .write :: rest) (hw : .write ∉ rest) (hm : .startInLoop ∈ s.pendingFunctors) : Fails s := by
  obtain ⟨fd, hc⟩ := g.connecting hs
  have hu : s.inUser = false := (g.release hs hc).2
  -- the attempt succeeds, so the `startInLoop` that waits will find `kConnected`
  have hwrite : ∃ t, handleWrite { s with todo := rest } false false = .ok t ∧ t.state = .kConnected ∧
      t.todo = rest ∧ t.pendingFunctors = s.pendingFunctors ++ [.resetChannel] := by
    unfold handleWrite
    rw [if_pos (by exact hs), removeAndResetChannel_eq (by exact hc), ok_bind]
    cases s.connect <;>
      simp [released, queueInLoop, setState, newConnectionCallback, close]
  obtain ⟨t, heq, hst, htodo, hq⟩ := hwrite
  refine Fails.step (fails_connected hst (htodo ▸ hw) (by simp [hq, hm])) (a := .callback false false) ?_
  have hstep : Connector.step s (.callback false false) = some (handleWrite { s with todo := rest } false false) := by
    simp [Connector.step, hu, ht]
  exact hstep.trans (congrArg some heq)

theorem fails_connecting {s : State} (g : Shape s) (hs : s.state = .kConnecting) (hn : s.todo.Nodup)
    (ht : s.todo.head? ≠ some .error) (hm : .startInLoop ∈ s.pendingFunctors) : Fails s := by
  cases htodo : s.todo with
  | cons cb rest =>
    cases cb with
    | write => exact fails_write g hs htodo (List.nodup_cons.mp (htodo ▸ hn)).1 hm
    | error => exact absurd (by simp [htodo]) ht
  | nil =>
    obtain ⟨fd, hc⟩ := g.connecting hs
    have hl : InLoop s := ⟨htodo, (g.release hs hc).2⟩
    have hg : Shape { s with todo := [.write] } := ⟨g.connecting, g.reset, g.user⟩
    refine Fails.step (fails_write hg hs rfl (by simp) hm) (a := .handleEvent [.write]) ?_
    simp [lts, Connector.step, hl, hc]

theorem Safe.canFail {s : State} {a : Act} (g : Safe s) (hc : ¬ Calm s a) (h : (step s a).isSome = true) :
    CanFail s a := by
  cases a with
  | start =>
    simp only [Calm, AboutToFail, not_or, not_and] at hc
    have hm : PendingFunctor.startInLoop ∈ (start s).pendingFunctors := by simp [start, queueInLoop]
    refine .inr ⟨start s, rfl, ?_⟩
    have hsh : Shape (start s) := (Effect.start (s := s)).shape g.shape
    cases hs : s.state with
    | kDisConnected => exact absurd hs hc.1
    | kConnecting => exact fails_connecting hsh hs g.nodup (hc.2 hs) hm
    | kConnected => exact fails_connected hs (fun hw => g.write hw hs) hm
  | restart e =>
    simp only [step, Option.isSome_ite] at h
    by_cases hch : s.channel = none
    · -- the attempt is under way at once, and what is outstanding connects again
      have ho : Outstanding s := by simpa [Calm, hch] using hc
      have hu : s.inUser = false := by
        by_contra hu
        exact g.user_todo (Bool.eq_true_of_not_eq_false hu) hch
      have hl : InLoop s := ⟨h.resolve_right (by simp [hu]), hu⟩
      have hstep : lts.step s (.restart .zero)
          { restarted s with
            created := s.created + 1, state := .kConnecting, channel := some ⟨s.created, true⟩ } := by
        simp [lts, step, h, restart, startInLoop, restarted, setState, connect, connecting, check_pos, hch]
      have hsh := (step_effect hstep).shape g.shape
      refine .inr ⟨_, hstep, ?_⟩
      rcases ho with ho | ho
      · exact fails_connecting hsh rfl g.nodup (by simp [restarted, setState, hl.1]) ho
      · refine ⟨[], _, .runTimer 0 .zero, .nil _, ?_⟩
        have hi : 0 < s.timers.length := List.length_pos_iff.mpr ho
        have hl : InLoop { restarted s with
            created := s.created + 1, state := .kConnecting, channel := some ⟨s.created, true⟩ } := hl
        simp only [step]
        rw [if_pos ⟨hl, hi⟩, startInLoop_fails (by simp)]
    · refine .inl ?_
      simp only [Act.call, step, if_pos h]
      exact congrArg some (startInLoop_fails_channel rfl rfl hch)
  | runTimer i e =>
    simp only [step, Option.isSome_ite] at h
    simp only [Calm, not_forall] at hc
    obtain ⟨hconn, hch⟩ := hc
    refine .inl ?_
    have hs := g.due_inLoop h.1.1 (outstanding_of_due (.timer (e := e) h.1 h.2))
    simp only [Act.call, step, if_pos h]
    rw [startInLoop_fails_channel (by exact hs) (by exact hconn) (by exact hch)]
  | stop | runFunctor | handleEvent | callback | endUser => exact absurd trivial hc

/-- **In every run whose calls and timers are calm no assertion fails**, nor does any
other step; and a call or timer that is not calm there begins a run that fails one. -/
theorem asserts_hold {s : State} (h : (lts.restrict Calm).Reachable s) {a : Act} (hs : (step s a).isSome = true) :
    (Calm s a → ∃ t, step s a = some (.ok t)) ∧ (¬ Calm s a → CanFail s a) := by
  obtain ⟨r, hr⟩ := Option.isSome_iff_exists.mp hs
  constructor
  · intro hc
    obtain ⟨t, ht⟩ := (safe_of_reachable h).step_ok hc hr
    exact ⟨t, by rw [hr, ht]⟩
  · intro hc
    exact (safe_of_reachable h).canFail hc hs

/-- A refused attempt, its retry, the connection, and a second `restart()`. -/
theorem asserts_hold_reconnect : ∃ s, (lts.restrict Calm).Reachable s ∧ s.passed = [1] ∧
    ∃ t, restart s .EINPROGRESS = .ok t := by
  have hstep : ∀ {s t a}, (lts.restrict Calm).Reachable s → Calm s a → lts.step s a t →
      (lts.restrict Calm).Reachable t := fun h hc hs => h.step ⟨hc, hs⟩
  have h₁ := hstep (a := .restart .ECONNREFUSED) (.init rfl) ⟨rfl, by unfold Outstanding; decide⟩ rfl
  have h₂ := hstep (a := .runTimer 0 .EINPROGRESS) h₁ (fun _ => rfl) rfl
  have h₃ := hstep (a := .handleEvent [.write]) h₂ trivial rfl
  have h₄ := hstep (a := .callback false false) h₃ trivial rfl
  have h₅ := hstep (a := .endUser) h₄ trivial rfl
  have h₆ := hstep (a := .runFunctor .zero) h₅ trivial rfl
  obtain ⟨t, ht⟩ := (asserts_hold h₆ (a := .restart .EINPROGRESS) rfl).1 ⟨rfl, by unfold Outstanding; decide⟩
  exact ⟨_, h₆, rfl, t, Option.some.inj ht⟩

/-- `start()` during an attempt: its functor finds the connector connecting. -/
theorem start_in_attempt_fails : ¬ ∀ s a, lts.Reachable s → step s a ≠ some (.error .assertion) := by
  intro hall
  have hrun : (Lts.exec next initial [.restart .EINPROGRESS, .start]).bind
      (fun s => step s (.runFunctor .zero)) = some (.error .assertion) := by decide +kernel
  obtain ⟨s, hs, h⟩ := Option.bind_eq_some_iff.mp hrun
  exact hall s _ (reachable_of_exec hs) h

end MyLearning.Connector
