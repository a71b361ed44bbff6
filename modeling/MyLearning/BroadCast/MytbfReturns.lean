import Mathlib.Algebra.BigOperators.Group.List.Basic
import MyLearning.BroadCast.MytbfEffect

/-!
# What a caller learns about its tokens

`mytbf_fetchtocken` computes how many tokens it takes and returns zero. The books of the
bucket at `p` are kept beside the system and no function reads them: what ticks and returns
added after the clamp, and for each fetch that came back what it took and what it returned.
-/

namespace MyLearning.Mytbf

/-- What the call that ends with the event returns: `return 0;` in both functions. -/
def Event.value : Event → Option Int
  | .ticked _ => none
  | .fetched _ _ => some 0
  | .returned _ _ => some 0

structure Books where
  added : Int
  fetches : List (Int × Int)
  deriving DecidableEq

namespace Books

def empty : Books := ⟨0, []⟩

def taken (b : Books) : Int := (b.fetches.map Prod.fst).sum

def reported (b : Books) : Int := (b.fetches.map Prod.snd).sum

/-- A step with the event `e` leads from the bucket `before` to the bucket `after`. -/
def record (p : Addr) (b : Books) (before after : Option MytbfSt) (e : Option Event) : Books :=
  match before, after, e with
  | some st, some st', some (.ticked me) => if me = p then { b with added := b.added + (st'.token - st.token) } else b
  | some st, some st', some (.returned me _) => if me = p then { b with added := b.added + (st'.token - st.token) } else b
  | some _, some _, some (.fetched me n) =>
    if me = p then { b with fetches := (n, (Event.fetched me n).value.getD 0) :: b.fetches } else b
  | some _, some _, none => b
  | _, _, _ => empty

end Books

/-! ## Entries -/

variable {T : Type}

/-- One step of the system with books: there is no bucket, or a new one, or one whose level is as
before, raised or lowered by a put, or lowered by a fetch. -/
inductive Entry (p : Addr) (x y : State T × Books) : Option Event → Prop
  | none {e} : y.1.heap p = none → y.2 = .empty → (∀ n, e ≠ some (.fetched p n)) → Entry p x y e
  | made {st'} : y.1.heap p = some st' → st'.token = 0 → y.2 = .empty → Entry p x y none
  | kept {st st' e} : x.1.heap p = some st → y.1.heap p = some st' → st'.token = st.token → y.2 = x.2 →
      (∀ n, e ≠ some (.fetched p n)) → Entry p x y e
  | put {st st' e} : x.1.heap p = some st → y.1.heap p = some st' → y.2.added = x.2.added + (st'.token - st.token) →
      y.2.fetches = x.2.fetches → (∀ n, e ≠ some (.fetched p n)) → Entry p x y e
  | took {st st' n} : x.1.heap p = some st → y.1.heap p = some st' → st'.token = st.token - n → 1 ≤ n →
      y.2.added = x.2.added → y.2.fetches = (n, 0) :: x.2.fetches → Entry p x y (some (.fetched p n))

theorem Entry.balance {p : Addr} {x y : State T × Books} {e : Option Event} {g : Int × Int → Int}
    (h : Entry p x y e) (hne : ∀ n, e ≠ some (.fetched p n))
    (hx : ∀ st, x.1.heap p = some st → st.token = x.2.added - (x.2.fetches.map g).sum) :
    (∀ st, y.1.heap p = some st → st.token = y.2.added - (y.2.fetches.map g).sum) ∧
      ∀ q ∈ y.2.fetches, q ∈ x.2.fetches := by
  cases h with
  | none hy hb _ => exact ⟨by rw [hy]; nofun, by rw [hb]; nofun⟩
  | made hy htoken hb =>
    refine ⟨?_, by rw [hb]; nofun⟩
    intro st hst
    rw [hy] at hst
    cases hst
    rw [htoken, hb]
    rfl
  | kept hst hy htoken hb _ =>
    refine ⟨?_, by simp [hb]⟩
    intro st hst'
    rw [hy] at hst'
    cases hst'
    rw [htoken, hb]
    exact hx _ hst
  | put hst hy hadded hfetches _ =>
    refine ⟨?_, by simp [hfetches]⟩
    intro st hst'
    rw [hy] at hst'
    cases hst'
    have hbalance := hx _ hst
    rw [hadded, hfetches]
    omega
  | took => exact absurd rfl (hne _)

theorem Entry.fetched {p : Addr} {x y : State T × Books} {n : Int} (h : Entry p x y (some (.fetched p n))) :
    ∃ st st', x.1.heap p = some st ∧ y.1.heap p = some st' ∧ st'.token = st.token - n ∧ 1 ≤ n ∧
      y.2.added = x.2.added ∧ y.2.fetches = (n, 0) :: x.2.fetches := by
  cases h with
  | none _ _ hne | kept _ _ _ _ hne | put _ _ _ _ hne => exact absurd rfl (hne n)
  | took hx hy htoken hn hadded hfetches => exact ⟨_, _, hx, hy, htoken, hn, hadded, hfetches⟩

/-! ## The system with books -/

variable [DecidableEq T]

def AsksSome (p : Addr) (l : Act T × Option Event) : Prop :=
  match l.1 with
  | .fetchtocken _ me size => me = p → 1 ≤ size
  | _ => True

def booked (p : Addr) : Lts (State T × Books) (Act T × Option Event) where
  init x := x = (initial, Books.empty)
  step x l y := AsksSome p l ∧ lts.step x.1 l y.1 ∧ y.2 = x.2.record p (x.1.heap p) (y.1.heap p) l.2

/-- Every fetch has returned what it took, and the bucket holds what was added less what the
fetches returned. -/
structure Visible (p : Addr) (x : State T × Books) : Prop where
  returned : ∀ f ∈ x.2.fetches, f.2 = f.1
  balance : ∀ st, x.1.heap p = some st → st.token = x.2.added - x.2.reported

def FindsEmpty (p : Addr) (s : State T) (a : Act T) : Prop :=
  ∀ u size st, a = .lock u p size → s.heap p = some st → st.token ≤ 0

/-! ## What one step writes into the books -/

theorem record_other {p : Addr} {b : Books} {st st' : MytbfSt} {e : Option Event}
    (h : ∀ ev, e = some ev → ev.about ≠ p) : b.record p (some st) (some st') e = b := by
  cases e with
  | none => rfl
  | some ev =>
    have hne := h ev rfl
    cases ev with
    | ticked me | returned me size | fetched me n => exact if_neg hne

def WantsSome (p : Addr) (s : State T) : Prop := ∀ u size, (s.pc u).wants p = some size → 1 ≤ size

theorem step_entry {p : Addr} {x y : State T × Books} {l : Act T × Option Event} (hw : WantsSome p x.1)
    (h : (booked p).step x l y) : Entry p x y l.2 := by
  obtain ⟨a, e⟩ := l
  obtain ⟨-, hs, hb⟩ := h
  have heffect := step_effect (p := p) hs
  cases heffect with
  | same ht hne =>
    have hfetch : ∀ n, e ≠ some (.fetched p n) := fun n he => hne _ he rfl
    cases hx : x.1.heap p with
    | none =>
      rw [hx] at ht
      rw [hx, ht] at hb
      exact .none ht hb hfetch
    | some st =>
      rw [hx] at ht
      rw [hx, ht, record_other hne] at hb
      exact .kept hx ht rfl hb hfetch
  | made ha ht =>
    subst ha
    have hx : x.1.heap p = none := hs.1.2
    rw [hx, ht] at hb
    exact .made ht rfl hb
  | placed hst ht =>
    rw [hst, ht] at hb
    exact .kept hst ht rfl hb (by simp)
  | freed ht =>
    refine .none ht ?_ (by simp)
    rw [hb, ht]
    cases x.1.heap p <;> rfl
  | ticked hst ht =>
    rw [hst, ht] at hb
    have hb := hb.trans (if_pos rfl)
    exact .put hst ht (by rw [hb]) (by rw [hb]) (by simp)
  | returned _ hst ht =>
    rw [hst, ht] at hb
    have hb := hb.trans (if_pos rfl)
    exact .put hst ht (by rw [hb]) (by rw [hb]) (by simp)
  | fetched hu hst htoken ht =>
    rw [hst, ht] at hb
    have hsize := hw _ _ hu
    have hb := hb.trans (if_pos rfl)
    exact .took hst ht rfl (by omega) (by rw [hb]) (by rw [hb]; rfl)

theorem wantsSome_step {p : Addr} {x y : State T × Books} {l : Act T × Option Event} (hw : WantsSome p x.1)
    (h : (booked p).step x l y) : WantsSome p y.1 := by
  intro u size hu
  rcases step_wants h.2.1 hu with hu | ha
  · exact hw u size hu
  · have hasks := h.1
    rw [AsksSome, ha] at hasks
    exact hasks rfl

/-! ## Which steps are fetches -/

theorem lock_event {s t : State T} {p : Addr} {u : T} {size : Int} {e : Option Event} {st : MytbfSt}
    (hs : lts.step s (.lock u p size, e) t) (hst : s.heap p = some st) :
    e = if st.token ≤ 0 then none else some (.fetched p (min st.token size)) := by
  obtain ⟨-, h⟩ := hs
  obtain ⟨st', hd, h⟩ := bind_eq_ok.mp h
  rw [Heap.deref_some hst] at hd
  cases hd
  by_cases htoken : st.token ≤ 0
  · rw [if_pos htoken] at h ⊢
    cases h
    rfl
  · rw [if_neg htoken] at h ⊢
    obtain ⟨token, -, h⟩ := bind_eq_ok.mp h
    cases h
    rw [min_eq]

theorem fetched_is_lock {s t : State T} {p : Addr} {a : Act T} {n : Int}
    (hs : lts.step s (a, some (.fetched p n)) t) : ∃ u size, a = .lock u p size := by
  obtain ⟨-, h⟩ := hs
  cases a with
  | lock u me size =>
    obtain ⟨st, -, h⟩ := bind_eq_ok.mp h
    split at h
    · cases h
    · obtain ⟨token, -, h⟩ := bind_eq_ok.mp h
      cases h
      exact ⟨u, size, rfl⟩
  | place u me | destory u me | free u me =>
    simp only [exec] at h
    obtain ⟨_, -, h⟩ := map_eq_ok.mp h
    cases h
  | returntoken u me size =>
    obtain ⟨st, -, h⟩ := bind_eq_ok.mp h
    obtain ⟨st', -, h⟩ := bind_eq_ok.mp h
    cases h
  | alarmTurn i =>
    change thrAlrm s i = _ at h
    unfold thrAlrm at h
    split at h
    · cases h
    · obtain ⟨st, -, h⟩ := bind_eq_ok.mp h
      obtain ⟨st', -, h⟩ := bind_eq_ok.mp h
      cases h
  | init u cps brust me | fetchtocken u me size | wake u me size | alarmLock | alarmUnlock => cases h

theorem fetches_iff {s t : State T} {p : Addr} {a : Act T} {e : Option Event} (hs : lts.step s (a, e) t) :
    (∃ n, e = some (.fetched p n)) ↔ ¬ FindsEmpty p s a := by
  constructor
  · intro he hempty
    obtain ⟨n, rfl⟩ := he
    obtain ⟨u, size, rfl⟩ := fetched_is_lock hs
    cases step_effect (p := p) hs with
    | same _ hne => exact hne _ rfl rfl
    | fetched _ hst htoken _ => exact absurd (hempty u size _ rfl hst) (not_le.mpr htoken)
  · intro hfinds
    unfold FindsEmpty at hfinds
    push Not at hfinds
    obtain ⟨u, size, st, rfl, hst, htoken⟩ := hfinds
    refine ⟨min st.token size, ?_⟩
    rw [lock_event hs hst, if_neg (not_le.mpr htoken)]

/-! ## The books in every run -/

theorem visible_step {p : Addr} {x y : State T × Books} {l : Act T × Option Event} (hw : WantsSome p x.1)
    (hv : Visible p x) (h : (booked p).step x l y) : Visible p y ↔ FindsEmpty p x.1 l.1 := by
  rw [← not_iff_not, ← fetches_iff h.2.1]
  obtain ⟨a, e⟩ := l
  have hentry := step_entry hw h
  by_cases hfetch : ∃ n, e = some (.fetched p n)
  · refine iff_of_true ?_ hfetch
    intro hvy
    obtain ⟨n, rfl⟩ := hfetch
    obtain ⟨-, -, -, -, -, hn, -, hfetches⟩ := hentry.fetched
    have hreturned := hvy.returned (n, 0) (by rw [hfetches]; exact List.mem_cons_self ..)
    simp only at hreturned
    omega
  · refine iff_of_false (not_not.mpr ?_) hfetch
    obtain ⟨hbalance, hsub⟩ := hentry.balance (g := Prod.snd) (fun n he => hfetch ⟨n, he⟩) hv.balance
    exact ⟨fun q hq => hv.returned q (hsub q hq), hbalance⟩

structure Balanced (p : Addr) (x : State T × Books) : Prop where
  balance : ∀ st, x.1.heap p = some st → st.token = x.2.added - x.2.taken
  fetches : ∀ f ∈ x.2.fetches, 1 ≤ f.1 ∧ f.2 = 0

theorem Balanced.step {p : Addr} {x y : State T × Books} {l : Act T × Option Event} (hw : WantsSome p x.1)
    (hv : Balanced p x) (h : (booked p).step x l y) : Balanced p y := by
  obtain ⟨a, e⟩ := l
  have hentry := step_entry hw h
  by_cases hfetch : ∃ n, e = some (.fetched p n)
  · obtain ⟨n, rfl⟩ := hfetch
    obtain ⟨st, st', hx, hy, htoken, hn, hadded, hfetches⟩ := hentry.fetched
    constructor
    · intro st'' hst
      rw [hy] at hst
      cases hst
      have hbalance := hv.balance _ hx
      unfold Books.taken at hbalance ⊢
      rw [htoken, hadded, hfetches, hbalance, List.map_cons, List.sum_cons]
      omega
    · intro f hf
      rw [hfetches] at hf
      rcases List.mem_cons.mp hf with rfl | hf
      · exact ⟨hn, rfl⟩
      · exact hv.fetches f hf
  · obtain ⟨hbalance, hsub⟩ := hentry.balance (g := Prod.fst) (fun n he => hfetch ⟨n, he⟩) hv.balance
    exact ⟨hbalance, fun q hq => hv.fetches q (hsub q hq)⟩

theorem booked_invariant {p : Addr} {x : State T × Books} (h : (booked p).Reachable x) :
    WantsSome p x.1 ∧ Balanced p x := by
  refine Lts.Reachable.invariant (I := fun x => WantsSome p x.1 ∧ Balanced p x) ?_ ?_ h
  · intro x h₀
    cases h₀
    exact ⟨nofun, nofun, nofun⟩
  · intro x l y hx hs
    exact ⟨wantsSome_step hx.1 hs, hx.2.step hx.1 hs⟩

theorem fetch_takes {p : Addr} {x y : State T × Books} {u : T} {size n : Int} (hw : WantsSome p x.1)
    (h : (booked p).step x (.lock u p size, some (.fetched p n)) y) : 1 ≤ n ∧ n ≤ size := by
  have hs := h.2.1
  have hsize : 1 ≤ size := hw u size (by rw [show x.1.pc u = _ from hs.1]; exact if_pos rfl)
  cases step_effect (p := p) hs with
  | same _ hne => exact absurd rfl (hne _ rfl)
  | fetched _ hst htoken _ =>
    have hevent := lock_event hs hst
    rw [if_neg (not_le.mpr htoken), Option.some.injEq, Event.fetched.injEq] at hevent
    omega

theorem return_adds {p : Addr} {x y : State T × Books} {u : T} {size : Int}
    (h : (booked p).step x (.returntoken u p size, some (.returned p size)) y) : y.2.added ≤ x.2.added + size := by
  obtain ⟨-, hs, hb⟩ := h
  cases step_effect (p := p) hs with
  | same _ hne => exact absurd rfl (hne _ rfl)
  | @returned st _ _ ha hst ht =>
    rw [hst, ht] at hb
    have hb := hb.trans (if_pos rfl)
    rw [hb]
    simp only
    omega

/-- **The accounts.** Along any run, what the fetches return accounts for the level of the bucket in every
state if and only if every thread that gets the mutex finds no token: a fetch that comes
back has taken at least one, at most as many as it asked for, and returns zero. What was taken
accounts for the level in every state, and giving back never makes tokens. -/
theorem accounting_visible_iff (p : Addr) (tr : List (Act T × Option Event)) :
    ((∀ tr' x, tr' <+: tr → (booked p).Run (initial, .empty) tr' x → Visible p x) ↔
      ∀ tr' x l y, tr' ++ [l] <+: tr → (booked p).Run (initial, .empty) tr' x → (booked p).step x l y →
        FindsEmpty p x.1 l.1) ∧
    ∀ x : State T × Books, (booked p).Reachable x →
      (∀ st, x.1.heap p = some st → st.token = x.2.added - x.2.taken) ∧
      (∀ f ∈ x.2.fetches, 1 ≤ f.1 ∧ f.2 = 0) ∧
      (∀ u size n y, (booked p).step x (.lock u p size, some (.fetched p n)) y → 1 ≤ n ∧ n ≤ size) ∧
      ∀ u size y, (booked p).step x (.returntoken u p size, some (.returned p size)) y → y.2.added ≤ x.2.added + size := by
  constructor
  · refine Lts.Run.always_iff (I := fun x => WantsSome p x.1) ?_ ?_ ⟨nofun, nofun, nofun⟩ tr
    · intro x l y hw hv hs
      exact visible_step hw hv hs
    · intro x l y hw _ _ hs
      exact wantsSome_step hw hs
  · intro x hx
    obtain ⟨hw, hb⟩ := booked_invariant hx
    refine ⟨hb.balance, hb.fetches, ?_, ?_⟩
    · intro u size n y hs
      exact fetch_takes hw hs
    · intro u size y hs
      exact return_adds hs

def firstTick : List (Act Bool × Option Event) :=
  [(.init true 3 5 0, none), (.place true 0, none), (.alarmLock, none), (.alarmTurn 0, some (.ticked 0))]

theorem run_firstTick : ∃ s : State Bool, s.heap 0 = some ⟨3, 5, 3, 0⟩ ∧ s.pc false = .idle ∧
    (booked 0).Run (initial, .empty) firstTick (s, ⟨3, []⟩) := by
  let st₁ : State Bool := init initial true 3 5 0
  let st₂ : State Bool := { st₁ with heap := st₁.heap.write 0 ⟨3, 5, 0, 0⟩, job := Function.update st₁.job 0 (some 0) }.setPc true .idle
  have hplace : place st₁ true 0 = .ok st₂ := by
    unfold place
    rw [getFreePosUnlocked_zero rfl]
    rfl
  have hexec : exec st₁ (.place true 0) = .ok (st₂, none) := by
    rw [exec, hplace]
    rfl
  have hmade : (booked 0).step (initial, .empty) (.init true 3 5 0, none) (st₁, .empty) := ⟨trivial, ⟨⟨rfl, rfl⟩, rfl⟩, rfl⟩
  have hplaced : (booked 0).step (st₁, .empty) (.place true 0, none) (st₂, .empty) := ⟨trivial, ⟨⟨rfl, rfl⟩, hexec⟩, rfl⟩
  exact ⟨_, rfl, rfl, .cons hmade (.cons hplaced (.cons (t := ({ st₂ with alarm := some 0 }, .empty))
    ⟨trivial, ⟨⟨rfl, rfl⟩, rfl⟩, rfl⟩ (.single ⟨trivial, ⟨⟨rfl, by decide⟩, rfl⟩, rfl⟩)))⟩

theorem accounting_visible_unfetched : ∃ x : State Bool × Books, (booked 0).Run (initial, .empty) firstTick x ∧
    Visible 0 x := by
  obtain ⟨s, -, -, hrun⟩ := run_firstTick
  refine ⟨_, hrun, (accounting_visible_iff 0 firstTick).1.mpr ?_ _ _ List.prefix_rfl hrun⟩
  intro tr' x l y hpre _ _ u size st hl
  have hmem : l ∈ firstTick := hpre.subset (List.mem_append_right _ (List.mem_singleton_self l))
  simp only [firstTick, List.mem_cons, List.not_mem_nil, or_false] at hmem
  rcases hmem with rfl | rfl | rfl | rfl <;> cases hl

/-- A fetch of two tokens takes them and returns zero. -/
theorem fetch_unaccounted : ∃ x : State Bool × Books, (booked 0).Reachable x ∧ x.2.fetches = [(2, 0)] ∧ ¬ Visible 0 x := by
  obtain ⟨s, hs, hpc, hrun⟩ := run_firstTick
  let s₁ : State Bool := s.setPc false (.locking 0 2)
  let s₂ : State Bool := { s₁ with heap := s₁.heap.write 0 ⟨3, 5, 1, 0⟩ }.setPc false .idle
  have hlock : fetchtocken s₁ false 0 2 = .ok (s₂, some (.fetched 0 2)) := by
    have hs₁ : s₁.heap 0 = some ⟨3, 5, 3, 0⟩ := hs
    unfold fetchtocken
    rw [Heap.deref_some hs₁]
    rfl
  have hasked : (booked 0).step (s, ⟨3, []⟩) (.fetchtocken false 0 2, none) (s₁, ⟨3, []⟩) := by
    refine ⟨fun _ => by decide, ⟨hpc, rfl⟩, ?_⟩
    rw [hs, show s₁.heap 0 = some ⟨3, 5, 3, 0⟩ from hs]
    rfl
  have hfetched : (booked 0).step (s₁, ⟨3, []⟩) (.lock false 0 2, some (.fetched 0 2)) (s₂, ⟨3, [(2, 0)]⟩) := by
    refine ⟨trivial, ⟨by simp [enabled, s₁, State.setPc], hlock⟩, ?_⟩
    rw [show s₁.heap 0 = some ⟨3, 5, 3, 0⟩ from hs, show s₂.heap 0 = some ⟨3, 5, 1, 0⟩ by simp [s₂]]
    rfl
  refine ⟨(s₂, ⟨3, [(2, 0)]⟩), ⟨_, _, rfl, (hrun.snoc hasked).snoc hfetched⟩, rfl, ?_⟩
  intro hv
  exact absurd (hv.returned _ (List.mem_singleton_self _)) (by decide)

end MyLearning.Mytbf
