import MyLearning.MyMuduo.Acceptor

/-!
# Accounting for descriptors

A connection with a positive descriptor is passed on or closed, and on `EMFILE` the connection
that takes the place of the idle descriptor is closed and the idle descriptor opened again.
But a failed `accept4` never gets there, since `sockets::accept` logs it as fatal before it
looks at the error; and descriptor 0 is taken for a failure and kept by nobody.
-/

namespace MyLearning.Acceptor

variable {A : Type} {s t : State A} {o : Outcome A}

/-! ## What is accounted for -/

def IdleOpen (s : State A) : Prop := ∃ fd : Nat, s.idleFd_ = fd ∧ s.fds fd = some .devNull

/-- Passed on once with its address, or closed once. -/
def Conn.Settled (c : Conn A) : Prop := c.passed = [c.peer] ∧ c.closes = 0 ∨ c.passed = [] ∧ c.closes = 1

structure Accounted (s : State A) : Prop where
  alive : s.aborted = false
  settled : ∀ c ∈ s.conns, c.Settled
  idle : IdleOpen s

theorem Accounted.append (g : Accounted s) (cs : List (Conn A)) (alive : t.aborted = s.aborted)
    (conns : t.conns = s.conns ++ cs) (settled : ∀ c ∈ cs, c.Settled) (idle : IdleOpen t) : Accounted t where
  alive := alive.trans g.alive
  settled c hc := by
    rw [conns] at hc
    rcases List.mem_append.mp hc with hc | hc
    · exact g.settled c hc
    · exact settled c hc
  idle := idle

theorem IdleOpen.update {fd : Nat} {d : Option Desc} (h : IdleOpen s) (hfd : s.fds fd = none)
    (idleFd : t.idleFd_ = s.idleFd_) (fds : t.fds = Function.update s.fds fd d) : IdleOpen t := by
  obtain ⟨n, hidle, hn⟩ := h
  refine ⟨n, idleFd.trans hidle, ?_⟩
  have hne : n ≠ fd := by
    intro he
    rw [he, hfd] at hn
    cases hn
  rw [fds, Function.update_of_ne hne]
  exact hn

/-! ## The pieces of `handleRead` -/

theorem logSysFatal_eq (out : Option Errno) (s : State A) : logSysFatal out s = .error .fatal := rfl

theorem logSysErr_eq (out : Option Errno) (s : State A) : logSysErr out s = .ok { s with errno := out.getD s.errno } := rfl

theorem modify_last {α : Type} (l : List α) (c : α) (f : α → α) : (l ++ [c]).modify l.length f = l ++ [f c] := by
  induction l with
  | nil => rfl
  | cons x l ih => simp [ih]

theorem sysClose_accepted (s : State A) (fd : Nat) (peer : A) : sysClose (accepted s fd peer) fd =
    { s with
      fds := Function.update (Function.update s.fds fd (some (.conn s.conns.length))) fd none,
      conns := s.conns ++ [⟨peer, [], 1⟩] } := by
  have hfd : (accepted s fd peer).fds fd = some (.conn s.conns.length) := Function.update_self ..
  simp only [sysClose, hfd]
  rw [accepted, modify_last]

theorem newConnectionCallback_accepted (s : State A) (fd : Nat) (peer : A) :
    newConnectionCallback (accepted s fd peer) fd peer =
      { accepted s fd peer with conns := s.conns ++ [⟨peer, [peer], 0⟩] } := by
  have hfd : (accepted s fd peer).fds (fd : Int).toNat = some (.conn s.conns.length) := Function.update_self ..
  simp only [newConnectionCallback, hfd]
  rw [accepted, modify_last]
  rfl

theorem sysClose_idle (h : IdleOpen s) : (sysClose s s.idleFd_).conns = s.conns ∧
    (sysClose s s.idleFd_).aborted = s.aborted := by
  obtain ⟨fd, hidle, hfd⟩ := h
  rw [hidle]
  simp only [sysClose, hfd, and_self]

theorem swapIdleFd_spec (h : IdleOpen s) : (swapIdleFd s o).aborted = s.aborted ∧ IdleOpen (swapIdleFd s o) ∧
    ∃ cs, (swapIdleFd s o).conns = s.conns ++ cs ∧ ∀ c ∈ cs, c.Settled := by
  obtain ⟨hconns, halive⟩ := sysClose_idle h
  have idle : IdleOpen (swapIdleFd s o) := ⟨o.devNull, rfl, Function.update_self ..⟩
  cases ho : o.accept with
  | error e =>
    refine ⟨?_, idle, [], ?_, fun c hc => by cases hc⟩
    · simp only [swapIdleFd, sysAccept, ho, openDevNull]
      exact halive
    · simp only [swapIdleFd, sysAccept, ho, openDevNull, List.append_nil]
      exact hconns
  | ok p =>
    obtain ⟨fd, peer⟩ := p
    have hclose := sysClose_accepted { sysClose s s.idleFd_ with idleFd_ := fd } fd peer
    have hswap : (swapIdleFd s o).conns = (sysClose (accepted { sysClose s s.idleFd_ with idleFd_ := fd } fd peer) fd).conns ∧
        (swapIdleFd s o).aborted = (sysClose (accepted { sysClose s s.idleFd_ with idleFd_ := fd } fd peer) fd).aborted := by
      simp only [swapIdleFd, sysAccept, ho, openDevNull]
      exact ⟨rfl, rfl⟩
    rw [hclose] at hswap
    refine ⟨hswap.2.trans halive, idle, [⟨peer, [], 1⟩], hswap.1.trans (congrArg (· ++ _) hconns), ?_⟩
    exact List.forall_mem_singleton.mpr (.inr ⟨rfl, rfl⟩)

/-! ## What one call does -/

theorem socketAccept_ok {fd : Nat} {peer : A} (h : o.accept4 = .ok (fd, peer)) (p : A) :
    socketAccept s o p = .ok (fd, peer, accepted s fd peer) := by
  have hneg : ¬ (fd : Int) < 0 := by omega
  simp only [socketAccept, socketsAccept, h, sysAccept, if_neg hneg, pure_eq_ok, ok_bind]
  rw [if_pos (by omega)]
  rfl

theorem socketAccept_error {e : Errno} (h : o.accept4 = .error e) (p : A) : socketAccept s o p = .error .fatal := by
  have hneg : (-1 : Int) < 0 := by decide
  simp only [socketAccept, socketsAccept, h, sysAccept, if_pos hneg, logSysFatal_eq, error_bind]

variable [Inhabited A]

theorem handleRead_error {e : Errno} (h : o.accept4 = .error e) : handleRead s o = .error .fatal := by
  rw [handleRead, socketAccept_error h, error_bind]

theorem handleRead_pos {fd : Nat} {peer : A} (h : o.accept4 = .ok (fd, peer)) (hfd : 0 < fd) : handleRead s o =
    .ok (if s.newConnectionCallback_ then newConnectionCallback (accepted s fd peer) fd peer
      else sysClose (accepted s fd peer) fd) := by
  have hpos : (fd : Int) > 0 := by omega
  rw [handleRead, socketAccept_ok h, ok_bind]
  simp only [if_pos hpos]
  by_cases hcb : s.newConnectionCallback_ = true
  · rw [if_pos hcb]
    exact if_pos hcb
  · rw [if_neg hcb]
    exact if_neg hcb

/-- Descriptor 0 is taken for a failure: its connection stays open and is passed to nobody. -/
theorem handleRead_zero {peer : A} (h : o.accept4 = .ok (0, peer)) (hidle : IdleOpen (accepted s 0 peer)) :
    ∃ t cs, handleRead s o = .ok t ∧ t.conns = s.conns ++ ⟨peer, [], 0⟩ :: cs := by
  have hpos : ¬ ((0 : Nat) : Int) > 0 := by decide
  rw [handleRead, socketAccept_ok h, ok_bind]
  simp only [if_neg hpos, logSysErr_eq, ok_bind]
  split
  · obtain ⟨-, -, cs, hcs, -⟩ := swapIdleFd_spec (s := { accepted s 0 peer with errno := o.log.getD s.errno }) (o := o) hidle
    exact ⟨_, cs, rfl, hcs.trans (List.append_assoc ..)⟩
  · exact ⟨_, [], rfl, rfl⟩

theorem Accounted.accepts {fd : Nat} {peer : A} (g : Accounted s) (ho : o.accept4 = .ok (fd, peer))
    (hfree : s.fds fd = none) (hpos : 0 < fd) : Accounted (next s (handleRead s o)) := by
  rw [handleRead_pos ho hpos]
  change Accounted (if s.newConnectionCallback_ then _ else _)
  split
  · rw [newConnectionCallback_accepted]
    refine g.append [⟨peer, [peer], 0⟩] rfl rfl ?_ (g.idle.update hfree rfl rfl)
    exact List.forall_mem_singleton.mpr (.inl ⟨rfl, rfl⟩)
  · rw [sysClose_accepted]
    refine g.append [⟨peer, [], 1⟩] rfl rfl ?_ (g.idle.update hfree rfl (Function.update_idem ..))
    exact List.forall_mem_singleton.mpr (.inr ⟨rfl, rfl⟩)

theorem Accounted.loses_zero {peer : A} (g : Accounted s) (ho : o.accept4 = .ok (0, peer))
    (hfree : s.fds 0 = none) : ¬ Accounted (next s (handleRead s o)) := by
  obtain ⟨t, cs, ht, hconns⟩ := handleRead_zero ho (g.idle.update hfree rfl rfl)
  rw [ht]
  intro hacc
  have hmem : (⟨peer, [], 0⟩ : Conn A) ∈ t.conns := by rw [hconns]; simp
  rcases hacc.settled _ hmem with hset | hset
  · cases hset.1
  · cases hset.2

/-! ## Along a run -/

def Accepts (a : Act A) : Prop := ∀ o, a = .handleRead o → ∃ fd peer, o.accept4 = .ok (fd, peer) ∧ 0 < fd

theorem step_accounted_iff {a : Act A} (g : Accounted s) (h : lts.step s a t) : Accounted t ↔ Accepts a := by
  obtain ⟨-, h⟩ := h
  cases a with
  | handleRead o =>
    obtain ⟨hd, rfl⟩ := h
    cases ho : o.accept4 with
    | error e =>
      rw [handleRead_error ho]
      refine iff_of_false ?_ ?_
      · intro ht
        cases ht.alive
      · intro ha
        obtain ⟨fd, peer, hfd, -⟩ := ha o rfl
        rw [ho] at hfd
        cases hfd
    | ok p =>
      obtain ⟨fd, peer⟩ := p
      have hfree := hd.accept4 fd peer ho
      rcases Nat.eq_zero_or_pos fd with rfl | hpos
      · -- descriptor 0 is taken for a failure
        refine iff_of_false (g.loses_zero ho hfree) ?_
        intro ha
        obtain ⟨fd, peer, hfd, hlt⟩ := ha o rfl
        rw [ho] at hfd
        cases hfd
        exact Nat.lt_irrefl 0 hlt
      · refine iff_of_true (g.accepts ho hfree hpos) ?_
        intro o' he
        cases he
        exact ⟨fd, peer, ho, hpos⟩
  | setNewConnectionCallback cb =>
    subst h
    exact iff_of_true ⟨g.alive, g.settled, g.idle⟩ fun o he => by cases he
  | others fds errno =>
    obtain ⟨hk, rfl⟩ := h
    refine iff_of_true ⟨g.alive, g.settled, ?_⟩ fun o he => by cases he
    obtain ⟨fd, hidle, hfd⟩ := g.idle
    refine ⟨fd, hidle, ?_⟩
    rcases hk fd with he | ⟨hno, -⟩
    · exact he.trans hfd
    · exact absurd (.inl hidle) hno

/-- **The acceptor survives and accounts for its descriptors along a run if and only if every
call of `handleRead()` gets a connection with a positive descriptor.** -/
theorem descriptors_accounted_iff {s₀ : State A} (h₀ : lts.init s₀) (tr : List (Act A)) :
    (∀ tr' s, tr' <+: tr → lts.Run s₀ tr' s → Accounted s) ↔
      ∀ tr' s a t, tr' ++ [a] <+: tr → lts.Run s₀ tr' s → lts.step s a t → Accepts a := by
  apply Lts.Run.always_iff (I := fun _ => True) (C := fun _ a => Accepts a)
  · exact fun s a t _ g h => step_accounted_iff g h
  · exact fun _ _ _ _ _ _ _ => trivial
  · obtain ⟨hidle, hconns, halive⟩ := h₀
    refine ⟨trivial, halive, ?_, hidle⟩
    intro c hc
    rw [hconns] at hc
    cases hc

theorem opened_init (fd : Nat) : lts.init (opened fd : State A) := ⟨⟨fd, rfl, if_pos rfl⟩, rfl, rfl⟩

theorem descriptors_accounted_iff_passed : ∃ t : State Unit, t.conns = [⟨(), [], 1⟩, ⟨(), [()], 0⟩] ∧ Accounted t := by
  have free : ∀ s : State Unit, s.fds 5 = none → s.fds 9 = none → Delivered s ⟨.ok (5, ()), none, .error .EAGAIN, 9⟩ := by
    intro s h₅ h₉
    refine ⟨?_, nofun, .inl h₉, nofun⟩
    intro fd peer h
    cases h
    exact h₅
  have hr : lts.Run (opened 3) [.handleRead ⟨.ok (5, ()), none, .error .EAGAIN, 9⟩, .setNewConnectionCallback true,
      .handleRead ⟨.ok (5, ()), none, .error .EAGAIN, 9⟩] _ :=
    .cons ⟨rfl, free _ rfl rfl, rfl⟩ (.cons ⟨rfl, rfl⟩ (.single ⟨rfl, free _ rfl rfl, rfl⟩))
  refine ⟨_, rfl, (descriptors_accounted_iff (opened_init 3) _).mpr ?_ _ _ (List.prefix_refl _) hr⟩
  intro tr' s a t hpre _ _ o he
  have hmem := hpre.subset (List.mem_append_right tr' (List.mem_singleton_self a))
  rw [he] at hmem
  simp only [List.mem_cons, List.not_mem_nil, or_false, reduceCtorEq, false_or, or_self] at hmem
  cases hmem
  exact ⟨5, (), rfl, by decide⟩

/-- A connection that went away before it was accepted is fatal, and one with descriptor 0 is lost. -/
theorem aborted_or_lost :
    (∃ t : State Unit, lts.Run (opened 3) [.handleRead ⟨.error .ECONNABORTED, none, .error .EAGAIN, 9⟩] t ∧
      t.aborted = true) ∧
    ∃ t : State Unit, lts.Run (opened 3) [.handleRead ⟨.ok (0, ()), none, .error .EAGAIN, 9⟩] t ∧
      t.fds 0 = some (.conn 0) ∧ t.conns = [⟨(), [], 0⟩] := by
  constructor
  · exact ⟨_, .single ⟨rfl, ⟨nofun, nofun, .inl rfl, nofun⟩, rfl⟩, rfl⟩
  · refine ⟨_, .single ⟨rfl, ⟨?_, nofun, .inl rfl, nofun⟩, rfl⟩, rfl, rfl⟩
    intro fd peer h
    cases h
    rfl

end MyLearning.Acceptor
