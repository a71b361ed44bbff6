import MyLearning.BroadCast.MytbfSlots

/-!
# Unloading the module

`module_unload`, registered with `atexit`, ends the alarm thread and frees what the table holds.
Every bucket on the heap has a handle or belongs to a thread inside `mytbf_init` or
`mytbf_destory`, so the table leaves behind only what such threads have, and each handle still
in use is that of a freed bucket.
-/

namespace MyLearning.Mytbf

variable {T : Type}

/-! ## The function of the source -/

def freeJobs (job : Nat → Option Addr) : List Nat → Heap MytbfSt → Except Fault (Heap MytbfSt)
  | [], heap => .ok heap
  | i :: is, heap =>
    match job i with
    | none => freeJobs job is heap
    | some me => do
      let heap ← heap.free me
      freeJobs job is heap

/-- `module_unload` from the return of `pthread_join` on. `sleep` is the only place where the alarm
thread can be cancelled, so it holds no mutex then. -/
def moduleUnload (s : State T) : Except Fault (State T) := do
  let heap ← freeJobs s.job (List.range mytbfMax) s.heap
  return { s with heap := heap }

/-! ## Freeing the table -/

theorem freeJobs_eq {job : Nat → Option Addr} :
    ∀ {is : List Nat} {heap : Heap MytbfSt}, is.Nodup →
      (∀ i ∈ is, ∀ me, job i = some me → ∃ b, heap me = some b) →
      (∀ i ∈ is, ∀ j ∈ is, ∀ me, job i = some me → job j = some me → i = j) →
      ∃ heap', freeJobs job is heap = .ok heap' ∧
        ∀ me, heap' me = if ∃ i ∈ is, job i = some me then none else heap me
  | [], heap, _, _, _ => ⟨heap, rfl, fun me => by simp⟩
  | i :: is, heap, hnodup, hlive, hinj => by
    obtain ⟨hi, hnodup⟩ := List.nodup_cons.mp hnodup
    have hinj' : ∀ a ∈ is, ∀ c ∈ is, ∀ me, job a = some me → job c = some me → a = c :=
      fun a ha c hc => hinj a (List.mem_cons_of_mem i ha) c (List.mem_cons_of_mem i hc)
    cases hj : job i with
    | none =>
      obtain ⟨heap', hrun, hheap⟩ := freeJobs_eq hnodup (fun j hm => hlive j (List.mem_cons_of_mem i hm)) hinj'
      refine ⟨heap', ?_, ?_⟩
      · simp only [freeJobs, hj]
        exact hrun
      · intro me
        rw [hheap me]
        simp [hj]
    | some p =>
      obtain ⟨b, hb⟩ := hlive i List.mem_cons_self p hj
      -- the bucket of this place is that of no other place
      have hother : ∀ j ∈ is, ∀ me, job j = some me → me ≠ p := by
        intro j hm me hjm hp
        subst hp
        have he := hinj i List.mem_cons_self j (List.mem_cons_of_mem i hm) me hj hjm
        exact hi (he ▸ hm)
      have hlive' : ∀ j ∈ is, ∀ me, job j = some me → ∃ b, Function.update heap p none me = some b := by
        intro j hm me hjm
        rw [Function.update_of_ne (hother j hm me hjm)]
        exact hlive j (List.mem_cons_of_mem i hm) me hjm
      obtain ⟨heap', hrun, hheap⟩ := freeJobs_eq hnodup hlive' hinj'
      refine ⟨heap', ?_, ?_⟩
      · simp only [freeJobs, hj, Heap.free_some hb, ok_bind]
        exact hrun
      · intro me
        rw [hheap me]
        by_cases hp : me = p
        · subst hp
          simp [hj]
        · rw [Function.update_of_ne hp]
          have hne : ¬ p = me := fun h => hp h.symm
          simp [hj, hne]

theorem Slots.unload {u : Use T} (I : Slots u) : ∃ s, moduleUnload u.st = .ok s ∧
    ∀ me, s.heap me = if me ∈ u.handles then none else u.st.heap me := by
  have hlive : ∀ i ∈ List.range mytbfMax, ∀ me, u.st.job i = some me → ∃ b, u.st.heap me = some b := by
    intro i _ me h
    obtain ⟨-, -, b, hb, -⟩ := I.entry i me h
    exact ⟨b, hb⟩
  have hinj : ∀ i ∈ List.range mytbfMax, ∀ j ∈ List.range mytbfMax, ∀ me,
      u.st.job i = some me → u.st.job j = some me → i = j := by
    intro i _ j _ me hi hj
    obtain ⟨-, -, b, hb, rfl⟩ := I.entry i me hi
    obtain ⟨-, -, d, hd, rfl⟩ := I.entry j me hj
    rw [hb] at hd
    cases hd
    rfl
  obtain ⟨heap, hrun, hheap⟩ := freeJobs_eq List.nodup_range hlive hinj
  refine ⟨{ u.st with heap := heap }, ?_, ?_⟩
  · unfold moduleUnload
    rw [hrun]
    rfl
  · intro me
    have hiff : (∃ i ∈ List.range mytbfMax, u.st.job i = some me) ↔ me ∈ u.handles := by
      constructor
      · intro ⟨i, _, hi⟩
        exact (I.entry i me hi).2.1
      · intro hme
        obtain ⟨b, -, hj⟩ := I.slot me hme
        exact ⟨b.pos, List.mem_range.mpr (I.entry _ _ hj).1, hj⟩
    refine (hheap me).trans ?_
    simp only [hiff]

/-! ## No bucket is lost -/

/-- Every bucket is in use or belongs to a thread that makes or frees it. -/
def Covered (u : Use T) : Prop := ∀ me b, u.st.heap me = some b → me ∈ u.handles ∨ ∃ t, (u.st.pc t).owns me

theorem covered_initial : Covered (⟨initial, []⟩ : Use T) := fun _ _ h => by cases h

theorem Covered.frame {u v : Use T} (c : Covered u) (hheap : ∀ me b, v.st.heap me = some b → ∃ b', u.st.heap me = some b')
    (hhandles : v.handles = u.handles) (hpc : ∀ t me, (u.st.pc t).owns me → (v.st.pc t).owns me) : Covered v := by
  intro me b h
  obtain ⟨b', hb'⟩ := hheap me b h
  rcases c me b' hb' with hme | ⟨t, ht⟩
  · exact .inl (hhandles ▸ hme)
  · exact .inr ⟨t, hpc t me ht⟩

theorem write_old {h : Heap MytbfSt} {me p : Addr} {st st' b : MytbfSt} (hst : h me = some st)
    (hb : h.write me st' p = some b) : ∃ b', h p = some b' := by
  rcases update_some hb with ⟨rfl, -⟩ | ⟨-, hb⟩
  · exact ⟨st, hst⟩
  · exact ⟨b, hb⟩

variable [DecidableEq T]

theorem owns_of_update {pc : T → Pc} {t w : T} {x : Pc} {me : Addr} (ht : ∀ p, ¬ (pc t).owns p) (h : (pc w).owns me) :
    (Function.update pc t x w).owns me := by
  have hw : w ≠ t := by
    intro hw
    subst hw
    exact ht me h
  rwa [Function.update_of_ne hw]

theorem owns_of_update_ne {pc : T → Pc} {t w : T} {x : Pc} {me p : Addr} (ht : ∀ q, (pc t).owns q → q = p) (hne : me ≠ p)
    (h : (pc w).owns me) : (Function.update pc t x w).owns me := by
  have hw : w ≠ t := by
    intro hw
    subst hw
    exact hne (ht me h)
  rwa [Function.update_of_ne hw]

section
variable {u : Use T} (c : Covered u) {t : T} {me : Addr}
include c

theorem Covered.init {cps brust : Int} (hpc : u.st.pc t = .idle) : Covered ⟨init u.st t cps brust me, u.handles⟩ := by
  intro p b h
  rcases update_some h with ⟨rfl, -⟩ | ⟨-, h⟩
  · exact .inr ⟨t, by show (Function.update u.st.pc t (.placing p) t).owns p; rw [Function.update_self]; rfl⟩
  · rcases c p b h with hp | ⟨w, hw⟩
    · exact .inl hp
    · exact .inr ⟨w, owns_of_update (by simp [hpc, Pc.owns]) hw⟩

theorem Covered.release (ho : ∀ q, (u.st.pc t).owns q → q = me) {v : Use T} {x : Option MytbfSt}
    (hpc : v.st.pc = Function.update u.st.pc t .idle) (hhandles : ∀ p ∈ u.handles, p ∈ v.handles)
    (hheap : v.st.heap = Function.update u.st.heap me x) (hme : ∀ b, x = some b → me ∈ v.handles) : Covered v := by
  intro p b h
  rw [hheap] at h
  by_cases hp : p = me
  · subst hp
    rw [Function.update_self] at h
    exact .inl (hme b h)
  · rw [Function.update_of_ne hp] at h
    rcases c p b h with hmem | ⟨w, hw⟩
    · exact .inl (hhandles p hmem)
    · exact .inr ⟨w, by rw [hpc]; exact owns_of_update_ne ho hp hw⟩

theorem Covered.destory {job : Nat → Option Addr} (hpc : u.st.pc t = .idle) :
    Covered ⟨{ u.st with job := job }.setPc t (.freeing me), u.handles.erase me⟩ := by
  intro p b h
  by_cases hp : p = me
  · subst hp
    exact .inr ⟨t, by show (Function.update u.st.pc t (.freeing p) t).owns p; rw [Function.update_self]; rfl⟩
  · rcases c p b h with hmem | ⟨w, hw⟩
    · exact .inl ((List.mem_erase_of_ne hp).mpr hmem)
    · exact .inr ⟨w, owns_of_update (by simp [hpc, Pc.owns]) hw⟩

theorem Covered.place {s : State T} (hpc : u.st.pc t = .placing me) (h : place u.st t me = .ok s) :
    Covered ⟨s, u.handles ++ (returned u.st.job me).toList⟩ := by
  have ho : ∀ q, (u.st.pc t).owns q → q = me := by
    intro q hq
    rw [hpc] at hq
    exact Eq.symm hq
  unfold Mytbf.place at h
  unfold returned
  split at h
  · rename_i hfull
    obtain ⟨heap, hfree, h⟩ := bind_eq_ok.mp h
    cases h
    cases Heap.free_eq_ok hfree
    exact c.release ho rfl (fun p hp => List.mem_append_left _ hp) rfl fun b hb => by cases hb
  · rename_i pos hpos
    obtain ⟨st, hst, h⟩ := bind_eq_ok.mp h
    cases h
    refine c.release ho rfl (fun p hp => List.mem_append_left _ hp) rfl ?_
    intro _ _
    rw [hpos]
    exact List.mem_append_right _ (List.mem_singleton_self me)

theorem Covered.step {v : Use T} {l : Act T × Option Event} (h : useLts.step u l v) : Covered v := by
  obtain ⟨s, hs⟩ := v
  obtain ⟨a, e⟩ := l
  obtain ⟨-, ⟨hen, h⟩, rfl⟩ := h
  have same : ∀ (p : Addr) b, u.st.heap p = some b → ∃ b', u.st.heap p = some b' := fun _ b hb => ⟨b, hb⟩
  cases a with
  | init t cps brust me =>
    cases h
    exact c.init hen.1
  | place t me =>
    simp only [exec] at h
    obtain ⟨s', h', he⟩ := map_eq_ok.mp h
    cases he
    exact c.place hen.1 h'
  | destory t me =>
    obtain ⟨s', h', he⟩ := map_eq_ok.mp h
    cases he
    obtain ⟨st, -, h'⟩ := bind_eq_ok.mp h'
    cases h'
    exact c.destory hen.1
  | free t me =>
    obtain ⟨s', h', he⟩ := map_eq_ok.mp h
    cases he
    obtain ⟨heap, hfree, h'⟩ := bind_eq_ok.mp h'
    cases h'
    cases Heap.free_eq_ok hfree
    have hpc : u.st.pc t = .freeing me := hen
    have ho : ∀ q, (u.st.pc t).owns q → q = me := by
      intro q hq
      rw [hpc] at hq
      exact Eq.symm hq
    exact c.release ho rfl (fun p hp => hp) rfl fun b hb => by cases hb
  | fetchtocken t me size =>
    cases h
    have hpc : u.st.pc t = .idle := hen
    exact c.frame same rfl fun w p hw => owns_of_update (by simp [hpc, Pc.owns]) hw
  | lock t me size =>
    have hpc : u.st.pc t = .locking me size := hen
    obtain ⟨st, hst, h⟩ := bind_eq_ok.mp h
    have hst := Heap.deref_eq_ok hst
    split at h
    · cases h
      exact c.frame same rfl fun w p hw => owns_of_update (by simp [hpc, Pc.owns]) hw
    · obtain ⟨token, -, h⟩ := bind_eq_ok.mp h
      cases h
      exact c.frame (fun _ _ => write_old hst) rfl fun w p hw => owns_of_update (by simp [hpc, Pc.owns]) hw
  | wake t me size =>
    cases h
    have hpc : u.st.pc t = .waiting me size := hen
    exact c.frame same rfl fun w p hw => owns_of_update (by simp [hpc, Pc.owns]) hw
  | returntoken t me size =>
    obtain ⟨st, hst, h⟩ := bind_eq_ok.mp h
    obtain ⟨st', -, h⟩ := bind_eq_ok.mp h
    cases h
    exact c.frame (fun _ _ => write_old (Heap.deref_eq_ok hst)) rfl fun w p hw => (owns_broadcast ..).mpr hw
  | alarmTurn i =>
    change thrAlrm u.st i = _ at h
    unfold thrAlrm at h
    split at h
    · cases h
      exact c.frame same rfl fun w p hw => hw
    · obtain ⟨st, hst, h⟩ := bind_eq_ok.mp h
      obtain ⟨st', -, h⟩ := bind_eq_ok.mp h
      cases h
      exact c.frame (fun _ _ => write_old (Heap.deref_eq_ok hst)) rfl fun w p hw => (owns_broadcast ..).mpr hw
  | alarmLock | alarmUnlock =>
    cases h
    exact c.frame same rfl fun w p hw => hw

end

theorem reachable_covered {u : Use T} (h : useLts.Reachable u) : Covered u :=
  h.invariant_from covered_initial (fun _ _ _ c hs => c.step hs) fun _ h => h

/-! ## Runs -/

/-- **Unloading.** In every reachable state the buckets on the heap are those with a handle and
those that a thread has inside `mytbf_init` or `mytbf_destory`. From there `module_unload` frees no
bucket twice, frees every bucket with a handle and leaves exactly the others; where no thread
is inside those functions it leaves none. A fetch that still waits for a bucket then finds it freed. -/
theorem unload_frees {u : Use T} (h : useLts.Reachable u) :
    (∀ me, (∃ b, u.st.heap me = some b) ↔ me ∈ u.handles ∨ ∃ t, (u.st.pc t).owns me) ∧
    ∃ s, moduleUnload u.st = .ok s ∧
      (∀ me, (∃ b, s.heap me = some b) ↔ ∃ t, (u.st.pc t).owns me) ∧
      ((∀ t me, ¬ (u.st.pc t).owns me) → ∀ me, s.heap me = none) ∧
      ∀ t me size, me ∈ u.handles → exec s (.lock t me size) = .error .dangling := by
  have I := reachable_slots h
  have c := reachable_covered h
  have live : ∀ me, (∃ b, u.st.heap me = some b) ↔ me ∈ u.handles ∨ ∃ t, (u.st.pc t).owns me := by
    intro me
    constructor
    · intro ⟨b, hb⟩
      exact c me b hb
    · intro hme
      rcases hme with hme | ⟨t, ht⟩
      · obtain ⟨b, hb, -⟩ := I.slot me hme
        exact ⟨b, hb⟩
      · exact (I.owned t me ht).1
  obtain ⟨s, hs, hheap⟩ := I.unload
  -- what is left are the buckets on their way into the table or out of it
  have left : ∀ me, (∃ b, s.heap me = some b) ↔ ∃ t, (u.st.pc t).owns me := by
    intro me
    rw [hheap me]
    by_cases hme : me ∈ u.handles
    · have unowned : ¬ ∃ t, (u.st.pc t).owns me := fun ⟨t, ht⟩ => (I.owned t me ht).2 hme
      simp [hme, unowned]
    · rw [if_neg hme, live me]
      exact or_iff_right hme
  refine ⟨live, s, hs, left, ?_, ?_⟩
  · intro hidle me
    cases hme : s.heap me with
    | none => rfl
    | some b =>
      obtain ⟨t, ht⟩ := (left me).mp ⟨b, hme⟩
      exact absurd ht (hidle t me)
  · intro t me size hme
    have hnone : s.heap me = none := by rw [hheap me, if_pos hme]
    have hgone : s.heap.deref me = .error .dangling := by
      unfold Heap.deref
      rw [hnone]
    simp only [exec, fetchtocken, hgone, error_bind]

theorem unload_frees_one : ∃ u : Use Bool, u.handles = [5] ∧ ∃ s, moduleUnload u.st = .ok s ∧
    s.heap 5 = none ∧ (∃ b, s.heap 6 = some b) ∧ exec s (.lock true 5 1) = .error .dangling := by
  let s₁ : State Bool := init initial true 3 5 5
  let s₂ : State Bool :=
    { s₁ with heap := s₁.heap.write 5 ⟨3, 5, 0, 0⟩, job := Function.update s₁.job 0 (some 5) }.setPc true .idle
  let s₃ : State Bool := init s₂ false 1 9 6
  have hzero : getFreePosUnlocked s₁.job = some 0 := getFreePosUnlocked_zero rfl
  have h₂ : exec s₁ (.place true 5) = .ok (s₂, none) := by
    have hst : s₁.heap 5 = some ⟨3, 5, 0, 0⟩ := rfl
    unfold exec place
    rw [hzero]
    dsimp only
    rw [Heap.deref_some hst]
    rfl
  have k₁ : useLts.step (⟨initial, []⟩ : Use Bool) (.init true 3 5 5, none) ⟨s₁, []⟩ :=
    ⟨trivial, ⟨⟨rfl, rfl⟩, rfl⟩, rfl⟩
  have k₂ : useLts.step (⟨s₁, []⟩ : Use Bool) (.place true 5, none) ⟨s₂, [5]⟩ := by
    refine ⟨trivial, ⟨⟨rfl, rfl⟩, h₂⟩, ?_⟩
    simp [handlesAfter, returned, hzero]
  have k₃ : useLts.step (⟨s₂, [5]⟩ : Use Bool) (.init false 1 9 6, none) ⟨s₃, [5]⟩ :=
    ⟨trivial, ⟨⟨rfl, rfl⟩, rfl⟩, rfl⟩
  have hreach : useLts.Reachable (⟨s₃, [5]⟩ : Use Bool) := ⟨_, _, rfl, .cons k₁ (.cons k₂ (.single k₃))⟩
  obtain ⟨live, s, hs, left, -, gone⟩ := unload_frees hreach
  have howned : (s₃.pc false).owns 6 := rfl
  have hfive : ¬ ∃ t, (s₃.pc t).owns 5 := by
    rintro ⟨t, ht⟩
    cases t with
    | false => cases (show (6 : Addr) = 5 from ht)
    | true => exact ht
  refine ⟨⟨s₃, [5]⟩, rfl, s, hs, ?_, (left 6).mpr ⟨false, howned⟩, gone true 5 1 (List.mem_singleton_self 5)⟩
  cases h : s.heap 5 with
  | none => rfl
  | some b => exact absurd ((left 5).mp ⟨b, h⟩) hfive

end MyLearning.Mytbf
