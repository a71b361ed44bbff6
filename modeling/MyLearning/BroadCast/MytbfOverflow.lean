import MyLearning.BroadCast.MytbfEffect

/-!
# The range of the token arithmetic

The clamp comes after the addition, so a bucket close to its burst overflows although its level
would not. Within the `Limits` of a program's calls this happens in some run exactly if the burst of
one of its buckets and the rate of the same bucket, or a size given back to it, leave the range of `int`.
-/

namespace MyLearning.Mytbf

/-- What a program makes its calls with: the rate and the burst of a bucket at `me`, and the sizes given back to it. -/
structure Limits where
  made : Addr → Int → Int → Prop
  returned : Addr → Int → Int → Int → Prop

variable {T : Type}

def Limits.Allows (lim : Limits) (s : State T) : Act T → Prop
  | .init _ cps brust me => lim.made me cps brust
  | .fetchtocken _ _ size => 0 ≤ size
  | .returntoken _ me size => ∀ st, s.heap me = some st → lim.returned me st.cps st.brust size
  | _ => True

/-- They are numbers of type `int`, none of them negative. -/
structure Limits.Valid (lim : Limits) : Prop where
  cps : ∀ me cps brust, lim.made me cps brust → 0 ≤ cps ∧ cps < 2 ^ 31
  brust : ∀ me cps brust, lim.made me cps brust → 0 ≤ brust ∧ brust < 2 ^ 31
  size : ∀ me cps brust size, lim.returned me cps brust size → 0 ≤ size ∧ size < 2 ^ 31

/-- What is added to the level of a bucket stays in the range of `int` above its burst. -/
structure Limits.Fits (lim : Limits) : Prop where
  cps : ∀ me cps brust, lim.made me cps brust → brust + cps < 2 ^ 31
  size : ∀ me cps brust size, lim.made me cps brust → lim.returned me cps brust size → brust + size < 2 ^ 31

structure InBounds (lim : Limits) (s : State T) : Prop where
  made : ∀ p st, s.heap p = some st → lim.made p st.cps st.brust
  token : ∀ p st, s.heap p = some st → 0 ≤ st.token ∧ st.token ≤ st.brust
  wants : ∀ p u size, (s.pc u).wants p = some size → 0 ≤ size

theorem inBounds_initial (lim : Limits) : InBounds lim (initial : State T) := by
  refine ⟨?_, ?_, ?_⟩
  · intro p st hst
    cases hst
  · intro p st hst
    cases hst
  · intro p u size hu
    cases hu

inductive Changes (s : State T) : Act T → MytbfSt → Int → Prop
  | fetched {u me size st} : s.heap me = some st → 0 < st.token → Changes s (.lock u me size) st (-min st.token size)
  | returned {u me size st} : s.heap me = some st → Changes s (.returntoken u me size) st size
  | ticked {i me st} : s.job i = some me → s.heap me = some st → Changes s (.alarmTurn i) st st.cps

theorem changes_fit {lim : Limits} (hv : lim.Valid) (hfits : lim.Fits) {s : State T} (hb : InBounds lim s) {a : Act T}
    (ha : lim.Allows s a) (hen : enabled s a) {st : MytbfSt} {n : Int} (h : Changes s a st n) :
    -2 ^ 31 ≤ st.token + n ∧ st.token + n < 2 ^ 31 := by
  cases h with
  | @fetched u me size st hst htoken =>
    have hbrust := hv.brust _ _ _ (hb.made _ _ hst)
    have hlevel := hb.token _ _ hst
    have hsize : 0 ≤ size := hb.wants me u size (by rw [show s.pc u = _ from hen]; exact if_pos rfl)
    omega
  | returned hst =>
    have hlevel := hb.token _ _ hst
    have hsize := hv.size _ _ _ _ (ha _ hst)
    have hsum := hfits.size _ _ _ _ (hb.made _ _ hst) (ha _ hst)
    omega
  | ticked hjob hst =>
    have hlevel := hb.token _ _ hst
    have hcps := hv.cps _ _ _ (hb.made _ _ hst)
    have hsum := hfits.cps _ _ _ (hb.made _ _ hst)
    omega

variable [DecidableEq T]

/-- The steps of the system, with the ones that end in a fault. -/
def calls (T : Type) [DecidableEq T] (lim : Limits) : Lts (Except Fault (State T)) (Act T) where
  init r := r = .ok initial
  step r a r' := ∃ s, r = .ok s ∧ lim.Allows s a ∧ enabled s a ∧ r' = (exec s a).map Prod.fst

/-- No addition has left the range of `int`, and the clamp keeps every level between zero and the burst. -/
def Sound (r : Except Fault (State T)) : Prop :=
  r ≠ .error .overflow ∧ ∀ s, r = .ok s → ∀ p st, s.heap p = some st → 0 ≤ st.token ∧ st.token ≤ st.brust

/-! ## Where a step can overflow -/

theorem add_error {st : MytbfSt} {size : Int} {f : Fault} (h : add st size = .error f) :
    ¬ (-2 ^ 31 ≤ st.token + size ∧ st.token + size < 2 ^ 31) := by
  intro hfit
  unfold add at h
  rw [int32_eq_ok.mpr ⟨hfit, rfl⟩] at h
  cases h

theorem place_error {s : State T} {u : T} {me : Addr} {f : Fault} (h : place s u me = .error f) : f = .dangling := by
  unfold place at h
  split at h
  · rcases bind_eq_error.mp h with h | ⟨heap, -, h⟩
    · exact Heap.free_error h
    · cases h
  · rcases bind_eq_error.mp h with h | ⟨st, -, h⟩
    · exact Heap.deref_error h
    · cases h

theorem exec_overflow {s : State T} {a : Act T} (h : exec s a = .error .overflow) :
    ∃ st n, Changes s a st n ∧ ¬ (-2 ^ 31 ≤ st.token + n ∧ st.token + n < 2 ^ 31) := by
  cases a with
  | lock u me size =>
    rcases bind_eq_error.mp h with h | ⟨st, hst, h⟩
    · cases Heap.deref_error h
    · split at h
      · cases h
      · rename_i htoken
        rcases bind_eq_error.mp h with h | ⟨token, -, h⟩
        · refine ⟨st, _, .fetched (Heap.deref_eq_ok hst) (not_le.mp htoken), ?_⟩
          intro hfit
          rw [min_eq, sub_eq_add_neg, int32_eq_ok.mpr ⟨hfit, rfl⟩] at h
          cases h
        · cases h
  | returntoken u me size =>
    rcases bind_eq_error.mp h with h | ⟨st, hst, h⟩
    · cases Heap.deref_error h
    · rcases bind_eq_error.mp h with h | ⟨st', -, h⟩
      · exact ⟨st, _, .returned (Heap.deref_eq_ok hst), add_error h⟩
      · cases h
  | alarmTurn i =>
    change thrAlrm s i = _ at h
    unfold thrAlrm at h
    split at h
    · cases h
    · rename_i me hme
      rcases bind_eq_error.mp h with h | ⟨st, hst, h⟩
      · cases Heap.deref_error h
      · rcases bind_eq_error.mp h with h | ⟨st', -, h⟩
        · exact ⟨st, _, .ticked hme (Heap.deref_eq_ok hst), add_error h⟩
        · cases h
  | place u me =>
    simp only [exec] at h
    cases place_error (map_eq_error h)
  | destory u me =>
    rcases bind_eq_error.mp (map_eq_error h) with h | ⟨st, -, h⟩
    · cases Heap.deref_error h
    · cases h
  | free u me =>
    rcases bind_eq_error.mp (map_eq_error h) with h | ⟨heap, -, h⟩
    · cases Heap.free_error h
    · cases h
  | init u cps brust me | fetchtocken u me size | wake u me size | alarmLock | alarmUnlock => cases h

/-! ## Within limits that fit -/

theorem inBounds_step {lim : Limits} (hv : lim.Valid) {s t : State T} {a : Act T} {e : Option Event}
    (hb : InBounds lim s) (ha : lim.Allows s a) (hs : lts.step s (a, e) t) : InBounds lim t := by
  have hwants : ∀ p u size, (t.pc u).wants p = some size → 0 ≤ size := by
    intro p u size hu
    rcases step_wants hs hu with hu | rfl
    · exact hb.wants p u size hu
    · exact ha
  have hbucket : ∀ p st', t.heap p = some st' → lim.made p st'.cps st'.brust ∧ 0 ≤ st'.token ∧ st'.token ≤ st'.brust := by
    intro p st' ht'
    have before : ∀ st, s.heap p = some st → lim.made p st.cps st.brust ∧ 0 ≤ st.token ∧ st.token ≤ st.brust :=
      fun st hst => ⟨hb.made p st hst, hb.token p st hst⟩
    cases step_effect (p := p) hs with
    | same ht _ => exact before st' (ht.symm.trans ht')
    | made hact ht =>
      subst hact
      cases ht.symm.trans ht'
      exact ⟨ha, le_refl _, (hv.brust _ _ _ ha).1⟩
    | placed hst ht =>
      cases ht.symm.trans ht'
      have hst := before _ hst
      exact hst
    | freed ht => cases ht.symm.trans ht'
    | ticked hst ht =>
      cases ht.symm.trans ht'
      obtain ⟨hmade, htoken⟩ := before _ hst
      have hcps := hv.cps _ _ _ hmade
      exact ⟨hmade, le_min (hv.brust _ _ _ hmade).1 (by omega), min_le_left ..⟩
    | returned hact hst ht =>
      subst hact
      cases ht.symm.trans ht'
      obtain ⟨hmade, htoken⟩ := before _ hst
      have hsize := hv.size _ _ _ _ (ha _ hst)
      exact ⟨hmade, le_min (hv.brust _ _ _ hmade).1 (by omega), min_le_left ..⟩
    | @fetched st u size hu hst _ ht =>
      cases ht.symm.trans ht'
      obtain ⟨hmade, htoken⟩ := before _ hst
      have hsize := hb.wants _ _ _ hu
      exact ⟨hmade, by show 0 ≤ st.token - min st.token size; omega,
        by show st.token - min st.token size ≤ st.brust; omega⟩
  exact ⟨fun p st hst => (hbucket p st hst).1, fun p st hst => (hbucket p st hst).2, hwants⟩

theorem calls_sound {lim : Limits} (hv : lim.Valid) (hfits : lim.Fits) {r : Except Fault (State T)}
    (h : (calls T lim).Reachable r) : Sound r := by
  have hinv : r ≠ .error .overflow ∧ ∀ s, r = .ok s → InBounds lim s := by
    refine Lts.Reachable.invariant (I := fun r => r ≠ .error .overflow ∧ ∀ s, r = .ok s → InBounds lim s) ?_ ?_ h
    · intro r h₀
      cases h₀
      refine ⟨nofun, ?_⟩
      intro s hs
      cases hs
      exact inBounds_initial lim
    · intro r a r' hI hs
      obtain ⟨s, rfl, ha, hen, rfl⟩ := hs
      have hb := hI.2 s rfl
      cases hx : exec s a with
      | ok te =>
        refine ⟨nofun, ?_⟩
        intro t ht
        cases ht
        exact inBounds_step hv hb ha ⟨hen, hx⟩
      | error f =>
        refine ⟨?_, nofun⟩
        intro hf
        cases hf
        obtain ⟨st, n, hchange, hout⟩ := exec_overflow hx
        exact hout (changes_fit hv hfits hb ha hen hchange)
  exact ⟨hinv.1, fun s hs => (hinv.2 s hs).token⟩

/-! ## Beyond them -/

/-- A level that grows by `n` up to a burst with which `n` leaves the range overflows in the end. -/
theorem grows_to_overflow {lim : Limits} {brust n : Int} (hn : 0 < n) (hout : 2 ^ 31 ≤ brust + n)
    {K : Int → State T → Prop}
    (hstep : ∀ token s, K token s → 0 ≤ token → token ≤ brust →
      if token + n < 2 ^ 31 then ∃ tr t, (calls T lim).Run (.ok s) tr (.ok t) ∧ K (min brust (token + n)) t
      else ∃ tr, (calls T lim).Run (.ok s) tr (.error .overflow))
    {token : Int} {s : State T} (hs : K token s) (h₀ : 0 ≤ token) (hle : token ≤ brust) :
    ∃ tr, (calls T lim).Run (.ok s) tr (.error .overflow) := by
  have hnext := hstep token s hs h₀ hle
  by_cases hfit : token + n < 2 ^ 31
  · -- the sum is in range, so the level is below the burst and rises
    rw [if_pos hfit] at hnext
    obtain ⟨tr, t, hrun, ht⟩ := hnext
    obtain ⟨tr', hrun'⟩ := grows_to_overflow hn hout hstep ht (by omega) (min_le_left ..)
    exact ⟨_, hrun.append hrun'⟩
  · rw [if_neg hfit] at hnext
    exact hnext
termination_by (brust - token).toNat
decreasing_by omega

theorem add_fits {st : MytbfSt} {n : Int} (h : -2 ^ 31 ≤ st.token + n ∧ st.token + n < 2 ^ 31) :
    add st n = .ok { st with token := min st.brust (st.token + n) } := by
  have hclamp : (if st.token + n > st.brust then st.brust else st.token + n) = min st.brust (st.token + n) := by omega
  unfold add
  rw [int32_eq_ok.mpr ⟨h, rfl⟩, ok_bind, hclamp]
  rfl

theorem add_overflows {st : MytbfSt} {n : Int} (h : 2 ^ 31 ≤ st.token + n) : add st n = .error .overflow := by
  unfold add int32
  rw [if_neg (by omega)]
  rfl

/-- One bucket, at `p` and in the first slot, the alarm thread asleep and the thread `u` free. -/
structure Single (p : Addr) (cps brust : Int) (u : T) (token : Int) (s : State T) : Prop where
  loaded : s.loaded = true
  alarm : s.alarm = none
  job : s.job = Function.update (fun _ => none) 0 (some p)
  bucket : s.heap p = some ⟨cps, brust, token, 0⟩
  idle : s.pc u = .idle

variable {lim : Limits} {p : Addr} {cps brust : Int}

theorem run_single (hmade : lim.made p cps brust) (u : T) :
    ∃ tr s, (calls T lim).Run (.ok initial) tr (.ok s) ∧ Single p cps brust u 0 s := by
  let s₁ : State T := init initial u cps brust p
  let s₂ : State T := { s₁ with
    heap := s₁.heap.write p ⟨cps, brust, 0, 0⟩
    job := Function.update s₁.job 0 (some p) }.setPc u .idle
  have hplace : place s₁ u p = .ok s₂ := by
    unfold place
    rw [getFreePosUnlocked_zero rfl, Heap.deref_some (a := ⟨cps, brust, 0, 0⟩) (by simp [s₁, init])]
    rfl
  have hinit : (calls T lim).step (.ok initial) (.init u cps brust p) (.ok s₁) := ⟨_, rfl, hmade, ⟨rfl, rfl⟩, rfl⟩
  have hplaced : (calls T lim).step (.ok s₁) (.place u p) (.ok s₂) := by
    refine ⟨_, rfl, trivial, ⟨by simp [s₁, init, State.setPc], rfl⟩, ?_⟩
    simp only [exec, hplace]
    rfl
  exact ⟨_, s₂, .cons hinit (.single hplaced), rfl, rfl, rfl, by simp [s₂], by simp [s₂, State.setPc]⟩

def State.raise (s : State T) (p : Addr) (st : MytbfSt) (n : Int) : State T :=
  { s with heap := s.heap.write p { st with token := min st.brust (st.token + n) } }.broadcast p

theorem Single.returns {size : Int} (hsize : 0 ≤ size) (hr : lim.returned p cps brust size) {u : T} {token : Int}
    {s : State T} (h : Single p cps brust u token s) (h₀ : 0 ≤ token) :
    if token + size < 2 ^ 31 then
      ∃ tr t, (calls T lim).Run (.ok s) tr (.ok t) ∧ Single p cps brust u (min brust (token + size)) t
    else ∃ tr, (calls T lim).Run (.ok s) tr (.error .overflow) := by
  have hallows : lim.Allows s (.returntoken u p size) := by
    intro st hst
    rw [h.bucket] at hst
    cases hst
    exact hr
  have hrun : ∀ r, r = (returntoken s p size).map Prod.fst → (calls T lim).Run (.ok s) [.returntoken u p size] r :=
    fun r hr => .single ⟨s, rfl, hallows, h.idle, hr⟩
  unfold returntoken at hrun
  rw [Heap.deref_some h.bucket, ok_bind] at hrun
  by_cases hfit : token + size < 2 ^ 31
  · rw [if_pos hfit]
    rw [add_fits ⟨by show -2 ^ 31 ≤ token + size; omega, hfit⟩] at hrun
    refine ⟨_, s.raise p ⟨cps, brust, token, 0⟩ size, hrun _ rfl, ?_⟩
    exact ⟨h.loaded, h.alarm, h.job, by simp [State.raise], by simp [State.raise, h.idle, Pc.broadcast]⟩
  · rw [if_neg hfit]
    rw [add_overflows (by show 2 ^ 31 ≤ token + size; omega)] at hrun
    exact ⟨_, hrun _ rfl⟩

theorem run_turns {s : State T} : ∀ (k i : Nat), i + k = mytbfMax → (∀ j, i ≤ j → s.job j = none) →
    ∃ tr, (calls T lim).Run (.ok { s with alarm := some i }) tr (.ok { s with alarm := some mytbfMax })
  | 0, i, hi, _ => by
    cases hi
    exact ⟨_, .nil _⟩
  | k + 1, i, hi, hjob => by
    obtain ⟨tr, hrun⟩ := run_turns k (i + 1) (by omega) (fun j hj => hjob j (by omega))
    have hturn : exec { s with alarm := some i } (.alarmTurn i) = .ok ({ s with alarm := some (i + 1) }, none) := by
      show thrAlrm _ i = _
      unfold thrAlrm
      simp only [hjob i le_rfl]
      rfl
    have hstep : (calls T lim).step (.ok { s with alarm := some i }) (.alarmTurn i)
        (.ok { s with alarm := some (i + 1) }) := by
      refine ⟨_, rfl, trivial, ⟨rfl, by omega⟩, ?_⟩
      rw [hturn]
      rfl
    exact ⟨_, .cons hstep hrun⟩

theorem Single.ticks (hcps : 0 ≤ cps) {u : T} {token : Int} {s : State T} (h : Single p cps brust u token s)
    (h₀ : 0 ≤ token) :
    if token + cps < 2 ^ 31 then
      ∃ tr t, (calls T lim).Run (.ok s) tr (.ok t) ∧ Single p cps brust u (min brust (token + cps)) t
    else ∃ tr, (calls T lim).Run (.ok s) tr (.error .overflow) := by
  let s₀ : State T := { s with alarm := some 0 }
  have hlock : (calls T lim).step (.ok s) .alarmLock (.ok s₀) := ⟨s, rfl, trivial, ⟨h.loaded, h.alarm⟩, rfl⟩
  have hturn : ∀ r, r = (thrAlrm s₀ 0).map Prod.fst → (calls T lim).step (.ok s₀) (.alarmTurn 0) r :=
    fun r hr => ⟨s₀, rfl, trivial, ⟨rfl, by decide⟩, hr⟩
  have hjob : s₀.job 0 = some p := by simp [s₀, h.job]
  have hbucket : s₀.heap p = some ⟨cps, brust, token, 0⟩ := h.bucket
  unfold thrAlrm at hturn
  simp only [hjob] at hturn
  rw [Heap.deref_some hbucket, ok_bind] at hturn
  by_cases hfit : token + cps < 2 ^ 31
  · rw [if_pos hfit]
    rw [add_fits ⟨by show -2 ^ 31 ≤ token + cps; omega, hfit⟩] at hturn
    let t : State T := s.raise p ⟨cps, brust, token, 0⟩ cps
    have hfree : ∀ j, 1 ≤ j → t.job j = none := by
      intro j hj
      show s.job j = none
      rw [h.job, Function.update_of_ne (by omega)]
    obtain ⟨tr, hrun⟩ : ∃ tr,
        (calls T lim).Run (.ok { t with alarm := some 1 }) tr (.ok { t with alarm := some mytbfMax }) :=
      run_turns 1023 1 rfl hfree
    have hunlock : (calls T lim).step (.ok { t with alarm := some mytbfMax }) .alarmUnlock
        (.ok { t with alarm := none }) := ⟨_, rfl, trivial, rfl, rfl⟩
    have hturned := hturn (.ok { t with alarm := some 1 }) rfl
    refine ⟨_, { t with alarm := none }, .cons hlock (.cons hturned (hrun.snoc hunlock)), ?_⟩
    exact ⟨h.loaded, rfl, h.job, by simp [t, State.raise], by simp [t, State.raise, h.idle, Pc.broadcast]⟩
  · rw [if_neg hfit]
    rw [add_overflows (by show 2 ^ 31 ≤ token + cps; omega)] at hturn
    exact ⟨_, .cons hlock (.single (hturn _ rfl))⟩

theorem overflow_reachable (hv : lim.Valid) (u : T) (hmade : lim.made p cps brust)
    (hout : 2 ^ 31 ≤ brust + cps ∨ ∃ size, lim.returned p cps brust size ∧ 2 ^ 31 ≤ brust + size) :
    (calls T lim).Reachable (.error .overflow) := by
  have hbrust := hv.brust _ _ _ hmade
  obtain ⟨tr₀, s, hrun₀, hs⟩ := run_single hmade u
  have hgrow : ∃ tr, (calls T lim).Run (.ok s) tr (.error .overflow) := by
    rcases hout with hout | ⟨size, hr, hout⟩
    · refine grows_to_overflow (by omega) hout (K := Single p cps brust u) ?_ hs le_rfl hbrust.1
      intro token s h h₀ _
      exact h.ticks (hv.cps _ _ _ hmade).1 h₀
    · refine grows_to_overflow (by omega) hout (K := Single p cps brust u) ?_ hs le_rfl hbrust.1
      intro token s h h₀ _
      exact h.returns (hv.size _ _ _ _ hr).1 hr h₀
  obtain ⟨tr, hrun⟩ := hgrow
  exact ⟨_, _, rfl, hrun₀.append hrun⟩

/-- **The range of the tokens.** No addition leaves the range of `int` in any run and every level is between
zero and its burst, if and only if the burst of every bucket plus its own rate, and plus each size that is
given back to it, is in the range. -/
theorem tokens_fit_iff (hv : lim.Valid) (u : T) : (∀ r, (calls T lim).Reachable r → Sound r) ↔ lim.Fits := by
  constructor
  · intro hsound
    have hno : ¬ (calls T lim).Reachable (.error .overflow) := fun h => (hsound _ h).1 rfl
    constructor
    · intro me cps brust hmade
      by_contra hout
      exact hno (overflow_reachable hv u hmade (.inl (by omega)))
    · intro me cps brust size hmade hr
      by_contra hout
      exact hno (overflow_reachable hv u hmade (.inr ⟨size, hr, by omega⟩))
  · intro hfits r hr
    exact calls_sound hv hfits hr

/-- A fast bucket with a small burst and a slow one with a burst close to the largest `int`. -/
def twoBuckets : Limits where
  made me cps brust := me = 0 ∧ cps = 2 ^ 31 - 2 ∧ brust = 1 ∨ me = 1 ∧ cps = 1 ∧ brust = 2 ^ 31 - 2
  returned me _ brust size := 0 ≤ size ∧ (me = 0 ∧ size ≤ 2 ^ 31 - 2 ∧ brust = 1 ∨ me = 1 ∧ size ≤ 1)

theorem tokens_fit_two : twoBuckets.made 0 (2 ^ 31 - 2) 1 ∧ twoBuckets.made 1 1 (2 ^ 31 - 2) ∧
    ∀ r, (calls Bool twoBuckets).Reachable r → Sound r := by
  have hv : twoBuckets.Valid := by
    refine ⟨?_, ?_, ?_⟩
    · intro me cps brust h
      rcases h with ⟨-, rfl, -⟩ | ⟨-, rfl, -⟩ <;> decide
    · intro me cps brust h
      rcases h with ⟨-, -, rfl⟩ | ⟨-, -, rfl⟩ <;> decide
    · intro me cps brust size h
      obtain ⟨hlow, ⟨-, hhigh, -⟩ | ⟨-, hhigh⟩⟩ := h <;> omega
  have hfits : twoBuckets.Fits := by
    constructor
    · intro me cps brust h
      rcases h with ⟨-, rfl, rfl⟩ | ⟨-, rfl, rfl⟩ <;> decide
    · intro me cps brust size hmade h
      obtain ⟨-, ⟨rfl, hhigh, rfl⟩ | ⟨rfl, hhigh⟩⟩ := h
      · omega
      · rcases hmade with ⟨h, -⟩ | ⟨-, -, rfl⟩
        · cases h
        · omega
  exact ⟨.inl ⟨rfl, rfl, rfl⟩, .inr ⟨rfl, rfl, rfl⟩, (tokens_fit_iff hv true).mpr hfits⟩

def largest : Limits where
  made _ cps brust := cps = 2 ^ 31 - 1 ∧ brust = 2 ^ 31 - 1
  returned _ _ _ _ := False

/-- With the largest `int` as rate and burst some tick overflows. -/
theorem tick_overflows : ∃ r, (calls Bool largest).Reachable r ∧ ¬ Sound r := by
  have hv : largest.Valid := by
    refine ⟨?_, ?_, ?_⟩
    · rintro me cps brust ⟨rfl, -⟩
      decide
    · rintro me cps brust ⟨-, rfl⟩
      decide
    · intro me cps brust size h
      cases h
  exact ⟨_, overflow_reachable hv true (p := 0) ⟨rfl, rfl⟩ (.inl (by decide)), fun h => h.1 rfl⟩

end MyLearning.Mytbf
