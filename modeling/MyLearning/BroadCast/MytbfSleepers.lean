import MyLearning.BroadCast.MytbfEffect

/-!
# No fetch sleeps on tokens

A thread waits for a bucket only while it is empty: who fills it wakes them all. So a
fetch of a bucket that holds tokens stands before the lock, and behind it takes some.
-/

namespace MyLearning.Mytbf

variable {T : Type} {s t : State T} {p : Addr}

def Filled (s : State T) (p : Addr) : Prop := ∃ st, s.heap p = some st ∧ 0 < st.token

structure Awake (s : State T) : Prop where
  fits : ∀ p st, s.heap p = some st → st.token < 2 ^ 31
  awake : ∀ p, Filled s p → ∀ u size, s.pc u ≠ .waiting p size

theorem initial_awake : Awake (initial : State T) where
  fits _ _ h := by cases h
  awake _ _ _ _ h := by cases h

theorem Awake.quiet (w : Awake s)
    (heap : ∀ p st, t.heap p = some st → st.token ≤ 0 ∨ ∃ st₀, s.heap p = some st₀ ∧ st.token = st₀.token)
    (pc : ∀ u p size, t.pc u = .waiting p size → s.pc u = .waiting p size) : Awake t where
  fits p st h := by
    rcases heap p st h with hle | ⟨st₀, h₀, he⟩
    · omega
    · rw [he]
      exact w.fits p st₀ h₀
  awake p hf u size hu := by
    obtain ⟨st, h, hpos⟩ := hf
    rcases heap p st h with hle | ⟨st₀, h₀, he⟩
    · omega
    · exact w.awake p ⟨st₀, h₀, he ▸ hpos⟩ u size (pc u p size hu)

theorem broadcast_not_waiting (pc : Pc) (me : Addr) (size : Int) : pc.broadcast me ≠ .waiting me size := by
  cases pc with
  | waiting q n =>
    by_cases hq : q = me <;> simp [Pc.broadcast, hq]
  | idle | placing me | locking me size | freeing me => simp [Pc.broadcast]

theorem waiting_of_broadcast {pc : Pc} {me p : Addr} {size : Int} (h : pc.broadcast me = .waiting p size) :
    pc = .waiting p size := by
  cases pc with
  | waiting q n =>
    by_cases hq : q = me <;> simp_all [Pc.broadcast]
  | idle | placing me | locking me size | freeing me => cases h

/-- Whoever fills a bucket broadcasts before the unlock. -/
theorem Awake.fill (w : Awake s) {me : Addr} {st st' : MytbfSt} {n : Int} {i : Option Nat} (h : add st n = .ok st') :
    Awake ({ s with heap := s.heap.write me st', alarm := i }.broadcast me) := by
  have fits : st'.token < 2 ^ 31 := by
    obtain ⟨token, htoken, h⟩ := bind_eq_ok.mp h
    obtain ⟨⟨-, hlt⟩, rfl⟩ := int32_eq_ok.mp htoken
    cases h
    dsimp only
    split <;> omega
  constructor
  · intro p st₁ h₁
    by_cases hp : p = me
    · subst hp
      cases (Heap.write_self ..).symm.trans h₁
      exact fits
    · exact w.fits p st₁ ((heap_write_of_ne hp).symm.trans h₁)
  · intro p hf u size hu
    by_cases hp : p = me
    · subst hp
      -- whoever waits for this bucket is woken before the unlock
      exact broadcast_not_waiting _ _ _ hu
    · obtain ⟨st₁, h₁, hpos⟩ := hf
      exact w.awake p ⟨st₁, (heap_write_of_ne hp).symm.trans h₁, hpos⟩ u size (waiting_of_broadcast hu)

variable [DecidableEq T]

theorem waiting_of_update {pc : T → Pc} {u v : T} {x : Pc} {size : Int} (hx : ∀ p n, x ≠ .waiting p n)
    (h : Function.update pc u x v = .waiting p size) : pc v = .waiting p size := by
  by_cases hv : v = u
  · subst hv
    rw [Function.update_self] at h
    exact absurd h (hx _ _)
  · rwa [Function.update_of_ne hv] at h

theorem Awake.moves (w : Awake s) {u : T} {x : Pc} (hx : ∀ p n, x ≠ .waiting p n) : Awake (s.setPc u x) :=
  w.quiet (fun _ st h => .inr ⟨st, h, rfl⟩) fun _ _ _ h => waiting_of_update hx h

theorem Awake.releases (w : Awake s) {u : T} {me : Addr} {h' : Heap MytbfSt} (h : s.heap.free me = .ok h') :
    Awake ({ s with heap := h' }.setPc u .idle) := by
  cases Heap.free_eq_ok h
  refine w.quiet ?_ fun _ _ _ h => waiting_of_update (by simp) h
  intro p st h
  obtain ⟨-, h⟩ | ⟨-, h⟩ := update_some h
  · cases h
  · exact .inr ⟨st, h, rfl⟩

theorem Awake.place (w : Awake s) {u : T} {me : Addr} (h : place s u me = .ok t) : Awake t := by
  unfold Mytbf.place at h
  split at h
  · obtain ⟨h', hfree, h⟩ := bind_eq_ok.mp h
    cases h
    exact w.releases hfree
  · obtain ⟨st, hst, h⟩ := bind_eq_ok.mp h
    have hst := Heap.deref_eq_ok hst
    cases h
    refine w.quiet ?_ fun _ _ _ h => waiting_of_update (by simp) h
    intro p st₁ h₁
    obtain ⟨hp, he⟩ | ⟨-, he⟩ := update_some h₁
    · cases he
      exact .inr ⟨st, hp ▸ hst, rfl⟩
    · exact .inr ⟨st₁, he, rfl⟩

/-- Behind the lock a thread sleeps where it finds nothing, and takes tokens where it finds some. -/
theorem Awake.fetchtocken (w : Awake s) {u : T} {me : Addr} {size : Int} {e : Option Event}
    (h : Mytbf.fetchtocken s u me size = .ok (t, e)) : Awake t := by
  obtain ⟨st, hst, h⟩ := bind_eq_ok.mp h
  have hst := Heap.deref_eq_ok hst
  split at h
  · rename_i hle
    cases h
    refine ⟨w.fits, ?_⟩
    intro p hf v n hv
    by_cases hu : v = u
    · subst hu
      cases (Function.update_self ..).symm.trans hv
      obtain ⟨st₁, h₁, hpos⟩ := hf
      cases hst.symm.trans h₁
      omega
    · exact w.awake p hf v n ((Function.update_of_ne hu ..).symm.trans hv)
  · rename_i hpos
    obtain ⟨token, htoken, h⟩ := bind_eq_ok.mp h
    obtain ⟨⟨-, hlt⟩, rfl⟩ := int32_eq_ok.mp htoken
    cases h
    constructor
    · intro p st₁ h₁
      obtain ⟨-, h₁⟩ | ⟨-, h₁⟩ := update_some h₁
      · cases h₁
        exact hlt
      · exact w.fits p st₁ h₁
    · intro p hf v n hv
      have hv := waiting_of_update (by simp) hv
      obtain ⟨st₁, h₁, hpos₁⟩ := hf
      obtain ⟨hp, -⟩ | ⟨-, he⟩ := update_some h₁
      · exact w.awake p ⟨st, hp ▸ hst, by omega⟩ v n hv
      · exact w.awake p ⟨st₁, he, hpos₁⟩ v n hv

theorem Awake.step (w : Awake s) {l : Act T × Option Event} (h : lts.step s l t) : Awake t := by
  obtain ⟨a, e⟩ := l
  obtain ⟨-, h⟩ := h
  cases a with
  | init u cps brust me =>
    cases h
    refine w.quiet ?_ fun _ _ _ h => waiting_of_update (by simp) h
    intro p st h
    obtain ⟨-, h⟩ | ⟨-, h⟩ := update_some h
    · cases h
      exact .inl (le_refl _)
    · exact .inr ⟨st, h, rfl⟩
  | place u me =>
    simp only [exec] at h
    obtain ⟨t', h', he⟩ := map_eq_ok.mp h
    cases he
    exact w.place h'
  | destory u me =>
    obtain ⟨t', h', he⟩ := map_eq_ok.mp h
    cases he
    obtain ⟨st, -, h'⟩ := bind_eq_ok.mp h'
    cases h'
    exact w.quiet (fun _ st h => .inr ⟨st, h, rfl⟩) fun _ _ _ h => waiting_of_update (by simp) h
  | free u me =>
    obtain ⟨t', h', he⟩ := map_eq_ok.mp h
    cases he
    obtain ⟨heap, hfree, h'⟩ := bind_eq_ok.mp h'
    cases h'
    exact w.releases hfree
  | fetchtocken u me size | wake u me size =>
    cases h
    exact w.moves (by simp)
  | lock u me size => exact w.fetchtocken h
  | returntoken u me size =>
    obtain ⟨st, -, h⟩ := bind_eq_ok.mp h
    obtain ⟨st', hadd, h⟩ := bind_eq_ok.mp h
    cases h
    exact w.fill hadd
  | alarmTurn i =>
    simp only [exec, thrAlrm] at h
    split at h
    · cases h
      exact w.quiet (fun _ st h => .inr ⟨st, h, rfl⟩) fun _ _ _ h => h
    · obtain ⟨st, -, h⟩ := bind_eq_ok.mp h
      obtain ⟨st', hadd, h⟩ := bind_eq_ok.mp h
      cases h
      exact w.fill hadd
  | alarmLock | alarmUnlock =>
    cases h
    exact w.quiet (fun _ st h => .inr ⟨st, h, rfl⟩) fun _ _ _ h => h

theorem reachable_awake (h : lts.Reachable s) : Awake s :=
  h.invariant_from initial_awake (fun _ _ _ w hs => w.step hs) fun _ h => h

theorem wants_iff {pc : Pc} {size : Int} : pc.wants p = some size ↔ pc = .locking p size ∨ pc = .waiting p size := by
  cases pc with
  | locking me n | waiting me n => simp [Pc.wants, Option.ite_none_right_eq_some]
  | idle | placing me | freeing me => simp [Pc.wants]

/-- **No stranded fetch.** In every reachable state, whoever fetches from a bucket that holds tokens does not
sleep: it stands before the lock, and once it has it, it takes what it asked for or all there is, and returns. -/
theorem no_stranded_fetch {s : State T} (h : lts.Reachable s) {p : Addr} {st : MytbfSt} (hst : s.heap p = some st)
    (hpos : 0 < st.token) {u : T} {size : Int} (hsize : 0 ≤ size) (hu : (s.pc u).wants p = some size) :
    s.pc u = .locking p size ∧ ∃ t, lts.step s (.lock u p size, some (.fetched p (min st.token size))) t ∧
      t.pc u = .idle ∧ t.heap p = some { st with token := st.token - min st.token size } := by
  have w := reachable_awake h
  have hfits := w.fits p st hst
  have hlock : s.pc u = .locking p size := by
    rcases wants_iff.mp hu with hu | hu
    · exact hu
    · exact absurd hu (w.awake p ⟨st, hst, hpos⟩ u size)
  let t := { s with heap := s.heap.write p { st with token := st.token - min st.token size } }.setPc u .idle
  refine ⟨hlock, t, ⟨hlock, ?_⟩, Function.update_self .., Heap.write_self ..⟩
  have htoken : int32 (st.token - min st.token size) = .ok (st.token - min st.token size) :=
    int32_eq_ok.mpr ⟨by omega, rfl⟩
  simp only [exec, Mytbf.fetchtocken, Heap.deref_some hst, ok_bind, if_neg (not_le.mpr hpos), min_eq, htoken]
  rfl

theorem no_stranded_fetch_woken : ∃ s t : State Bool, lts.Reachable s ∧
    lts.step s (.lock false 0 2, some (.fetched 0 2)) t ∧ t.pc false = .idle ∧ t.heap 0 = some ⟨3, 5, 1, 0⟩ := by
  let s₁ : State Bool := init initial true 3 5 0
  let s₂ : State Bool := { s₁ with heap := s₁.heap.write 0 ⟨3, 5, 0, 0⟩, job := Function.update s₁.job 0 (some 0) }.setPc true .idle
  let s₃ : State Bool := s₂.setPc false (.locking 0 2)
  let s₄ : State Bool := s₃.setPc false (.waiting 0 2)
  let s₅ : State Bool := { s₄ with alarm := some 0 }
  let s₆ : State Bool := { s₅ with heap := s₅.heap.write 0 ⟨3, 5, 3, 0⟩, alarm := some 1 }.broadcast 0
  have hexec : exec s₁ (.place true 0) = .ok (s₂, none) := by
    have hplace : place s₁ true 0 = .ok s₂ := by
      unfold place
      rw [getFreePosUnlocked_zero rfl]
      rfl
    rw [exec, hplace]
    rfl
  have hmade : lts.step initial (.init true 3 5 0, none) s₁ := ⟨⟨rfl, rfl⟩, rfl⟩
  have hplaced : lts.step s₁ (.place true 0, none) s₂ := ⟨⟨rfl, rfl⟩, hexec⟩
  have hcalled : lts.step s₂ (.fetchtocken false 0 2, none) s₃ := ⟨rfl, rfl⟩
  have hasleep : lts.step s₃ (.lock false 0 2, none) s₄ := ⟨rfl, rfl⟩
  have hlocked : lts.step s₄ (.alarmLock, none) s₅ := ⟨⟨rfl, rfl⟩, rfl⟩
  have hticked : lts.step s₅ (.alarmTurn 0, some (.ticked 0)) s₆ := ⟨⟨rfl, by decide⟩, rfl⟩
  have hreach : lts.Reachable s₆ := ⟨initial, _, rfl,
    .cons hmade (.cons hplaced (.cons hcalled (.cons hasleep (.cons hlocked (.single hticked)))))⟩
  have hst : s₆.heap 0 = some ⟨3, 5, 3, 0⟩ := rfl
  have hu : (s₆.pc false).wants 0 = some 2 := rfl
  obtain ⟨-, t, ht, hpc, hheap⟩ := no_stranded_fetch hreach hst (by decide) (by decide) hu
  exact ⟨s₆, t, hreach, ht, hpc, hheap⟩

end MyLearning.Mytbf
