import MyLearning.Muduo.TcpConnection

/-!
# Teardown of a connection

`handleClose` calls the close callback twice. No run in which a connection reads the end
of the file tears it down once: with assertions the second `removeConnection` fails, as
the connection has left the map, and without them `connectDestroyed` is queued twice.
-/

namespace MyLearning.Muduo

variable {χ : Type} {E : Env χ} {s t : State χ} {conn : Addr}

def Established (s : State χ) (conn : Addr) : Prop :=
  ∃ c, s.conns conn = some c ∧ c.state = .kConnected ∧ s.connections c.name = some conn

/-- The run has torn the connection down once, and no assertion has failed. -/
def TornDownOnce (conn : Addr) (r : Except Fault (State χ)) : Prop :=
  ∃ t, r = .ok t ∧ t.calls.count (.close conn) = 1 ∧ t.calls.count (.erase conn 1) = 1 ∧
    t.calls.count (.queue conn) = 1 ∧ ∀ state, .destroy conn state ∈ t.calls → state = .kConnected

/-! ## What has been called stays on record -/

theorem called_grows (s : State χ) (c : Call) : s.calls <+: (called s c).calls := List.prefix_append ..

theorem queueInLoop_eq (s : State χ) (conn : Addr) : ∃ calls, s.calls <+: calls ∧
    queueInLoop s conn = { s with pendingFunctors := s.pendingFunctors ++ [conn], calls := calls } := by
  have hqueue : s.calls <+: s.calls ++ [.queue conn] := List.prefix_append ..
  unfold queueInLoop
  by_cases hcalling : s.callingPendingFunctors = true
  · exact ⟨_, hqueue.trans (List.prefix_append ..), if_pos hcalling⟩
  · exact ⟨_, hqueue, if_neg hcalling⟩

theorem queueInLoop_grows (s : State χ) (conn : Addr) : s.calls <+: (queueInLoop s conn).calls := by
  obtain ⟨calls, hgrows, hqueue⟩ := queueInLoop_eq s conn
  rw [hqueue]
  exact hgrows

theorem erase_calls (s : State χ) (name : String) : (erase s name).2.calls = s.calls := by
  unfold erase
  split <;> rfl

theorem onChannel_calls {f : χ → Except Fault χ} (h : onChannel s conn f = .ok t) : t.calls = s.calls := by
  obtain ⟨c, -, h⟩ := bind_eq_ok.mp h
  obtain ⟨channel, -, h⟩ := bind_eq_ok.mp h
  cases h
  rfl

theorem closeCallback_grows (h : closeCallback E s conn = .ok t) : s.calls ++ [.close conn] <+: t.calls := by
  obtain ⟨c, -, h⟩ := bind_eq_ok.mp h
  obtain ⟨_, -, h⟩ := bind_eq_ok.mp h
  cases h
  refine List.IsPrefix.trans ?_ (queueInLoop_grows ..)
  refine List.IsPrefix.trans ?_ (called_grows ..)
  exact (erase_calls (called s (.close conn)) c.name).symm ▸ List.prefix_refl _

theorem handleClose_grows (h : handleClose E s conn = .ok t) :
    ∃ calls, s.calls ++ [.close conn] <+: calls ∧ calls ++ [.close conn] <+: t.calls := by
  obtain ⟨c, -, h⟩ := bind_eq_ok.mp h
  obtain ⟨_, -, h⟩ := bind_eq_ok.mp h
  obtain ⟨s₁, h₁, h⟩ := bind_eq_ok.mp h
  obtain ⟨s₂, h₂, h⟩ := bind_eq_ok.mp h
  have hclose := closeCallback_grows h₂
  rw [onChannel_calls h₁] at hclose
  exact ⟨s₂.calls, hclose, closeCallback_grows h⟩

theorem handleRead_grows {n : Int} (h : handleRead E s conn n = .ok t) : s.calls <+: t.calls := by
  unfold handleRead at h
  split at h
  · cases h
    exact called_grows ..
  · split at h
    · obtain ⟨calls, h₁, h₂⟩ := handleClose_grows h
      exact ((List.prefix_append ..).trans h₁).trans ((List.prefix_append ..).trans h₂)
    · cases h
      exact called_grows ..

theorem connectDestroyed_grows (h : connectDestroyed E s conn = .ok t) : s.calls <+: t.calls := by
  obtain ⟨c, -, h⟩ := bind_eq_ok.mp h
  obtain ⟨_, -, h⟩ := bind_eq_ok.mp h
  obtain ⟨s₁, h₁, h⟩ := bind_eq_ok.mp h
  rw [onChannel_calls h]
  refine List.IsPrefix.trans ?_ (called_grows ..)
  rw [onChannel_calls h₁]
  exact called_grows ..

theorem runFunctors_grows : ∀ {functors : List Addr} {s t : State χ}, runFunctors E s functors = .ok t →
    s.calls <+: t.calls
  | [], _, _, h => by
    cases h
    exact List.prefix_refl _
  | conn :: functors, _, _, h => by
    obtain ⟨s₁, h₁, h⟩ := bind_eq_ok.mp h
    exact (connectDestroyed_grows h₁).trans (runFunctors_grows h)

theorem step_grows {a : Act} (h : step E s a = .ok t) : s.calls <+: t.calls := by
  cases a with
  | handleRead conn n => exact handleRead_grows h
  | doPendingFunctors =>
    obtain ⟨s₁, h₁, h⟩ := bind_eq_ok.mp h
    cases h
    have hrun := runFunctors_grows h₁
    exact hrun

theorem exec_grows : ∀ {tr : List Act} {s t : State χ}, exec E s tr = .ok t → s.calls <+: t.calls
  | [], _, _, h => by
    cases h
    exact List.prefix_refl _
  | a :: tr, _, _, h => by
    obtain ⟨s₁, h₁, h⟩ := bind_eq_ok.mp h
    exact (step_grows h₁).trans (exec_grows h)

theorem exec_append : ∀ {tr tr' : List Act} {s : State χ},
    exec E s (tr ++ tr') = exec E s tr >>= fun t => exec E t tr'
  | [], _, _ => rfl
  | a :: tr, tr', s => by
    simp only [List.cons_append, exec]
    cases step E s a with
    | error f => rfl
    | ok t => exact exec_append

/-! ## The end of the file -/

theorem eof_closes_twice (h : handleRead E s conn 0 = .ok t) : 2 ≤ t.calls.count (.close conn) := by
  obtain ⟨calls, h₁, h₂⟩ := handleClose_grows h
  have hcount₁ := h₁.sublist.count_le (.close conn)
  have hcount₂ := h₂.sublist.count_le (.close conn)
  simp only [List.count_append, List.count_singleton, beq_self_eq_true, if_true] at hcount₁ hcount₂
  omega

theorem erase_eq {name : String} {p : Addr} (h : s.connections name = some p) :
    erase s name = (1, { s with connections := Function.update s.connections name none }) := by
  unfold erase
  rw [h]

theorem erase_none {name : String} (h : s.connections name = none) : erase s name = (0, s) := by
  unfold erase
  rw [h]

theorem assert_pos {p : Prop} [Decidable p] (hp : p) : assert E p = .ok () := by
  unfold assert
  rw [check_pos hp, ite_self]

theorem closeCallback_first {c : TcpConnection χ} (hc : s.conns conn = some c)
    (hmap : s.connections c.name = some conn) :
    ∃ t, closeCallback E s conn = .ok t ∧ t.conns = s.conns ∧
      t.connections = Function.update s.connections c.name none ∧ t.pendingFunctors = s.pendingFunctors ++ [conn] := by
  unfold closeCallback removeConnection
  rw [Heap.deref_some (show (called s (.close conn)).conns conn = some c from hc), ok_bind,
    erase_eq (show (called s (.close conn)).connections c.name = some conn from hmap)]
  simp only [assert_pos, ok_bind]
  obtain ⟨calls, -, hqueue⟩ := queueInLoop_eq (called { called s (.close conn) with
    connections := Function.update s.connections c.name none } (.erase conn 1)) conn
  exact ⟨_, congrArg Except.ok hqueue, rfl, rfl, rfl⟩

/-- The second close callback finds no entry: its assertion fails, or it queues `connectDestroyed` again. -/
theorem closeCallback_second {c : TcpConnection χ} (hc : s.conns conn = some c) (hmap : s.connections c.name = none) :
    (E.ndebug = false → closeCallback E s conn = .error .assertion) ∧
      (E.ndebug = true → ∃ t, closeCallback E s conn = .ok t ∧ t.conns = s.conns ∧
        t.pendingFunctors = s.pendingFunctors ++ [conn]) := by
  unfold closeCallback removeConnection
  rw [Heap.deref_some (show (called s (.close conn)).conns conn = some c from hc), ok_bind,
    erase_none (show (called s (.close conn)).connections c.name = none from hmap)]
  constructor
  · intro hdebug
    simp [assert, hdebug, check]
  · intro hdebug
    simp only [assert, hdebug, if_true, ok_bind]
    obtain ⟨calls, -, hqueue⟩ := queueInLoop_eq (called (called s (.close conn)) (.erase conn 0)) conn
    exact ⟨_, congrArg Except.ok hqueue, rfl, rfl⟩

theorem eof_of_established (hs : Established s conn) (hdisable : ∀ x, ∃ y, E.disableAll x = .ok y) :
    (E.ndebug = false → handleRead E s conn 0 = .error .assertion) ∧
      (E.ndebug = true → ∃ t, handleRead E s conn 0 = .ok t ∧ t.pendingFunctors = s.pendingFunctors ++ [conn, conn]) := by
  obtain ⟨c, hc, hstate, hmap⟩ := hs
  obtain ⟨channel, hchannel⟩ := hdisable c.channel
  have hon : onChannel s conn E.disableAll = .ok { s with conns := s.conns.write conn { c with channel := channel } } := by
    rw [onChannel, Heap.deref_some hc, ok_bind, hchannel]
    rfl
  obtain ⟨s₁, h₁, hconns, hconnections, hpending⟩ := closeCallback_first (E := E)
    (s := { s with conns := s.conns.write conn { c with channel := channel } }) (Heap.write_self ..) hmap
  obtain ⟨hdebug, hndebug⟩ := closeCallback_second (E := E) (s := s₁) (c := { c with channel := channel })
    (by rw [hconns]; exact Heap.write_self ..) (by rw [hconnections]; exact Function.update_self ..)
  have heq : handleRead E s conn 0 = closeCallback E s₁ conn := by
    rw [handleRead, if_neg (lt_irrefl _), if_pos rfl, handleClose, Heap.deref_some hc, ok_bind, assert_pos hstate,
      ok_bind, hon, ok_bind, h₁, ok_bind]
  rw [heq]
  refine ⟨hdebug, ?_⟩
  intro hn
  obtain ⟨t, ht, -, hpending'⟩ := hndebug hn
  exact ⟨t, ht, by rw [hpending', hpending]; simp⟩

/-- However the events of all connections are ordered, a connection that reads the end of the file is
not torn down once. -/
theorem never_torn_down_once (E : Env χ) (s : State χ) (conn : Addr) (before after : List Act) :
    ¬ TornDownOnce conn (exec E s (before ++ .handleRead conn 0 :: after)) := by
  intro h
  obtain ⟨t, ht, hclose, -⟩ := h
  rw [exec_append] at ht
  obtain ⟨s₁, -, ht⟩ := bind_eq_ok.mp ht
  obtain ⟨s₂, h₂, ht⟩ := bind_eq_ok.mp ht
  have htwice := eof_closes_twice h₂
  have hcount := (exec_grows ht).sublist.count_le (.close conn)
  omega

def oneConnection : State Unit :=
  ⟨fun p => if p = 0 then some ⟨"conn", .kConnected, ()⟩ else none, fun name => if name = "conn" then some 0 else none,
    [], false, []⟩

/-- It reads some bytes and then the end of the file. -/
theorem second_close_callback_fails : Established oneConnection 0 ∧
    exec ⟨false, .ok, .ok⟩ oneConnection [.handleRead 0 5, .handleRead 0 0, .doPendingFunctors] = .error .assertion ∧
    ¬ TornDownOnce 0
      (exec ⟨false, .ok, .ok⟩ oneConnection [.handleRead 0 5, .handleRead 0 0, .doPendingFunctors]) := by
  have hrun : exec ⟨false, .ok, .ok⟩ oneConnection [.handleRead 0 5, .handleRead 0 0, .doPendingFunctors] =
    .error .assertion := rfl
  refine ⟨⟨_, rfl, rfl, rfl⟩, hrun, ?_⟩
  rw [hrun]
  intro h
  obtain ⟨t, ht, -⟩ := h
  cases ht

end MyLearning.Muduo
