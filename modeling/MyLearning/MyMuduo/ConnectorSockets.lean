import MyLearning.MyMuduo.ConnectorChannel

/-!
# The sockets of the connector

During an attempt the channel holds the one socket that is open; otherwise every
socket was closed or handed over. `restart()` breaks this where it comes during an
attempt: it forgets the channel and its socket, which `stopInLoop()` in the same
place releases.
-/

namespace MyLearning.Connector

def Open (s : State) (n : Nat) : Prop := n < s.created ∧ n ∉ s.closed ++ s.passed

def Held (s : State) (n : Nat) : Prop := s.state = .kConnecting ∧ s.channel.map (·.fd) = some n

/-- No socket is released twice, and where control is back in the loop the open
sockets are the one of the channel during an attempt, and none otherwise. -/
def Accounted (s : State) : Prop := (s.closed ++ s.passed).Nodup ∧ (InLoop s → ∀ n, Open s n ↔ Held s n)

/-! ## The books -/

structure Accounts (s : State) : Prop where
  nodup : (s.closed ++ s.passed).Nodup
  lt : ∀ n ∈ s.closed ++ s.passed, n < s.created
  opened : ∀ n, Open s n ↔ Held s n

theorem accounts_initial : Accounts initial where
  nodup := List.nodup_nil
  lt n h := by cases h
  opened n := by simp [Open, Held, initial]

section
variable {s t : State} (g : Accounts s)
include g

theorem Accounts.accounted : Accounted s := ⟨g.nodup, fun _ => g.opened⟩

theorem Accounts.none_open (hs : s.state ≠ .kConnecting) (n : Nat) : ¬ Open s n := fun h => hs ((g.opened n).mp h).1

theorem Accounts.frame (hcreated : t.created = s.created) (hclosed : t.closed = s.closed)
    (hpassed : t.passed = s.passed) (hheld : ∀ n, Held t n ↔ Held s n) : Accounts t where
  nodup := by rw [hclosed, hpassed]; exact g.nodup
  lt := by rw [hclosed, hpassed, hcreated]; exact g.lt
  opened n := by rw [hheld, ← g.opened]; unfold Open; rw [hclosed, hpassed, hcreated]

theorem Accounts.open_release (hs : s.state ≠ .kConnecting) (ht : t.state ≠ .kConnecting)
    (hcreated : t.created = s.created + 1) (hp : (t.closed ++ t.passed).Perm (s.created :: (s.closed ++ s.passed))) :
    Accounts t where
  nodup := hp.nodup_iff.mpr (List.nodup_cons.mpr ⟨fun h => absurd (g.lt _ h) (by omega), g.nodup⟩)
  lt n h := by
    rcases List.mem_cons.mp (hp.mem_iff.mp h) with rfl | h
    · omega
    · have := g.lt n h
      omega
  opened n := by
    refine iff_of_false ?_ fun h => ht h.1
    intro h
    obtain ⟨hlt, hn⟩ := h
    rw [hp.mem_iff, List.mem_cons, not_or] at hn
    exact g.none_open hs n ⟨by omega, hn.2⟩

theorem Accounts.release {c : Channel} (hs : s.state = .kConnecting) (hc : s.channel = some c)
    (ht : t.state ≠ .kConnecting) (hcreated : t.created = s.created)
    (hp : (t.closed ++ t.passed).Perm (c.fd :: (s.closed ++ s.passed))) : Accounts t := by
  have hopen : ∀ n, Open s n ↔ n = c.fd := by
    intro n
    rw [g.opened, Held, hc]
    simp [hs, eq_comm]
  refine ⟨?_, ?_, ?_⟩
  · exact hp.nodup_iff.mpr (List.nodup_cons.mpr ⟨((hopen _).mpr rfl).2, g.nodup⟩)
  · intro n h
    rw [hcreated]
    rcases List.mem_cons.mp (hp.mem_iff.mp h) with rfl | h
    · exact ((hopen _).mpr rfl).1
    · exact g.lt n h
  · intro n
    refine iff_of_false ?_ fun h => ht h.1
    intro h
    obtain ⟨hlt, hn⟩ := h
    rw [hp.mem_iff, List.mem_cons, not_or] at hn
    exact hn.1 ((hopen n).mp ⟨hcreated ▸ hlt, hn.2⟩)

theorem Accounts.attempt (hs : s.state = .kDisConnected) (ha : Attempt s t) : Accounts t := by
  have hne : s.state ≠ .kConnecting := by rw [hs]; decide
  have hmid : (s.closed ++ [s.created] ++ s.passed).Perm (s.created :: (s.closed ++ s.passed)) := by
    rw [List.append_assoc]
    exact List.perm_middle
  cases ha with
  | connecting hc =>
    refine ⟨g.nodup, fun n h => Nat.lt_succ_of_lt (g.lt n h), ?_⟩
    intro n
    simp only [Held, true_and, Option.map_some, Option.some.injEq]
    constructor
    · intro h
      by_contra hn
      exact g.none_open hne n ⟨by have := h.1; simp only at this; omega, h.2⟩
    · intro h
      subst h
      exact ⟨Nat.lt_succ_self _, fun h => absurd (g.lt _ h) (by omega)⟩
  | retry =>
    rw [retry_eq]
    exact g.open_release hne (by simp) rfl hmid
  | refused => exact g.open_release hne (by exact hne) rfl hmid

end

def RestartsIdle (s : State) (a : Act) : Prop := ∀ e, a = .restart e → s.state ≠ .kConnecting

theorem Effect.accounts {s t : State} {a : Act} (h : Effect s a t) (hsh : Shape s) (g : Accounts s)
    (hr : RestartsIdle s a) : Accounts t := by
  have hmid : ∀ (c : Channel), (s.closed ++ [c.fd] ++ s.passed).Perm (c.fd :: (s.closed ++ s.passed)) := by
    intro c
    rw [List.append_assoc]
    exact List.perm_middle
  cases h with
  | @restart e _ _ ha =>
    have hne := hr e rfl
    refine Accounts.attempt (s := restarted s) (g.frame rfl rfl rfl fun n => ?_) rfl ha
    exact iff_of_false (by simp [Held, restarted, setState]) fun h => hne h.1
  | attempt hd hs _ ha =>
    cases hd with
    | functor | timer =>
      refine Accounts.attempt ?_ ?_ ha
      · exact g.frame rfl rfl rfl fun _ => Iff.rfl
      · exact hs
  | doNotConnect hd _ _ => cases hd <;> exact g.frame rfl rfl rfl fun _ => Iff.rfl
  | stopInLoop _ _ hs hc | failed _ _ hs hc =>
    rw [retry_eq]
    exact g.release hs hc (by simp) rfl (hmid _)
  | resetChannel _ hp =>
    have hne := (hsh.no_reset hp).1
    exact g.frame rfl rfl rfl fun n => iff_of_false (fun h => hne h.1) fun h => hne h.1
  | connected _ _ hs hc _ =>
    refine g.release hs hc (by simp [newConnectionCallback, setState]) rfl ?_
    rw [newConnectionCallback, ← List.append_assoc]
    exact (List.perm_append_singleton _ _)
  | late _ _ hs hc _ => exact g.release hs hc (by simp [close, setState]) rfl (hmid _)
  | start | stop | stopped | handleEvent | ignored | endUser => exact g.frame rfl rfl rfl fun _ => Iff.rfl

/-! ## Runs -/

/-- A call of `restart()` during an attempt forgets an open socket. -/
theorem Effect.restart_forgets {s t : State} {a : Act} (h : Effect s a t) (hsh : Shape s) (g : Accounts s)
    (hr : ¬ RestartsIdle s a) : ¬ Accounted t := by
  simp only [RestartsIdle, not_forall] at hr
  obtain ⟨e, rfl, hs⟩ := hr
  have hs : s.state = .kConnecting := not_not.mp hs
  obtain ⟨fd, hc⟩ := hsh.connecting hs
  obtain ⟨hlt, hn⟩ := (g.opened fd).mpr ⟨hs, by rw [hc]; rfl⟩
  cases h with
  | attempt hd _ _ _ | doNotConnect hd _ _ => cases hd
  | restart hl ha =>
    have hu : s.inUser = false := by
      by_contra hu
      obtain ⟨fd', hc'⟩ := hsh.user (Bool.eq_true_of_not_eq_false hu)
      rw [hc] at hc'
      cases hc'
    have hl : InLoop s := ⟨hl.resolve_right (by simp [hu]), hu⟩
    intro hacc
    cases ha with
    | connecting hnone => exact absurd (hc.symm.trans hnone) (by simp)
    | retry =>
      rw [retry_eq] at hacc
      have hopen : ¬ Open _ fd := fun h => absurd ((hacc.2 hl fd).mp h).1 (by simp)
      refine hopen ⟨Nat.lt_succ_of_lt hlt, ?_⟩
      simp only [restarted, setState, List.append_assoc, List.singleton_append, List.mem_append, List.mem_cons,
        not_or] at hn ⊢
      exact ⟨hn.1, by omega, hn.2⟩
    | refused =>
      have hopen : ¬ Open _ fd := fun h => absurd ((hacc.2 hl fd).mp h).1 (by simp [close, restarted, setState])
      refine hopen ⟨Nat.lt_succ_of_lt hlt, ?_⟩
      simp only [close, restarted, setState, List.append_assoc, List.singleton_append, List.mem_append,
        List.mem_cons, not_or] at hn ⊢
      exact ⟨hn.1, by omega, hn.2⟩

/-- Along any run in which no assertion fails: **every socket is released at most
once, and the open sockets are the one of the channel during an attempt and none
otherwise, if and only if no `restart()` comes during an attempt**. -/
theorem accounted_iff (tr : List Act) :
    (∀ tr' s, tr' <+: tr → lts.Run initial tr' s → Accounted s) ↔
      ∀ tr' s a t, tr' ++ [a] <+: tr → lts.Run initial tr' s → lts.step s a t → RestartsIdle s a := by
  refine Lts.Run.always_iff (I := fun s => Shape s ∧ Accounts s) ?_ ?_
    ⟨⟨shape_initial, accounts_initial⟩, accounts_initial.accounted⟩ tr
  · intro s a t hI _ h
    have he := step_effect h
    refine ⟨fun hP => ?_, fun hr => (he.accounts hI.1 hI.2 hr).accounted⟩
    by_contra hr
    exact he.restart_forgets hI.1 hI.2 hr hP
  · intro s a t hI _ hr h
    have he := step_effect h
    exact ⟨he.shape hI.1, he.accounts hI.1 hI.2 hr⟩

/-- `restart()` comes during an attempt and its own `connect(2)` is refused. -/
theorem restart_leaks : ¬ ∀ s, lts.Reachable s → Accounted s := by
  intro hall
  have hrun : (Lts.exec next initial [.restart .EINPROGRESS, .restart .ECONNREFUSED]).map
      (fun s => (s.todo, s.inUser, s.state, s.created, s.closed ++ s.passed)) =
        some ([], false, .kDisConnected, 2, [1]) := by decide +kernel
  obtain ⟨s, hs, h⟩ := Option.map_eq_some_iff.mp hrun
  simp only [Prod.mk.injEq] at h
  obtain ⟨htodo, huser, hstate, hcreated, hreleased⟩ := h
  have hopen : Open s 0 := ⟨by omega, by rw [hreleased]; decide⟩
  have hheld := ((hall s (reachable_of_exec hs)).2 ⟨htodo, huser⟩ 0).mp hopen
  exact absurd (hstate.symm.trans hheld.1) (by decide)

end MyLearning.Connector
