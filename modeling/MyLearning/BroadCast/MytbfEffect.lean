import MyLearning.BroadCast.Mytbf

/-!
# What one step does to one bucket

`Effect p` says what a step can do to the bucket at `p`: nothing, make it, give it a
place in the table, free it, fill it or take tokens out of it.
-/

namespace MyLearning.Mytbf

variable {T : Type} {s t : State T}

def Event.about : Event → Addr
  | .ticked me => me
  | .fetched me _ => me
  | .returned me _ => me

def Pc.wants (p : Addr) : Pc → Option Int
  | .locking me size => if me = p then some size else none
  | .waiting me size => if me = p then some size else none
  | _ => none

/-! ## Lemmas for the pieces of a step -/

@[simp] theorem broadcast_heap (s : State T) (me : Addr) : (s.broadcast me).heap = s.heap := rfl

@[simp] theorem broadcast_pc (s : State T) (me : Addr) (u : T) : (s.broadcast me).pc u = (s.pc u).broadcast me := rfl

@[simp] theorem wants_broadcast (p me : Addr) (pc : Pc) : (pc.broadcast me).wants p = pc.wants p := by
  cases pc with
  | waiting q size =>
    by_cases h : q = me <;> simp [Pc.broadcast, Pc.wants, h]
  | idle | placing me | locking me size | freeing me => rfl

theorem min_eq (a b : Int) : Mytbf.min a b = min a b := by
  unfold Mytbf.min
  omega

theorem add_eq_ok {st st' : MytbfSt} {size : Int} (h : add st size = .ok st') :
    st' = { st with token := min st.brust (st.token + size) } := by
  obtain ⟨token, htoken, h⟩ := bind_eq_ok.mp h
  obtain ⟨-, rfl⟩ := int32_eq_ok.mp htoken
  cases h
  simp only [MytbfSt.mk.injEq, true_and, and_true]
  omega

theorem getFreePosUnlocked_zero {job : Nat → Option Addr} (h : job 0 = none) : getFreePosUnlocked job = some 0 := by
  unfold getFreePosUnlocked mytbfMax
  rw [List.range_succ_eq_map]
  simp [h]

/-! ## The effect on one bucket -/

inductive Effect (p : Addr) (s : State T) (a : Act T) (t : State T) : Option Event → Prop
  | same {e} : t.heap p = s.heap p → (∀ ev, e = some ev → ev.about ≠ p) → Effect p s a t e
  | made {u cps brust} : a = .init u cps brust p → t.heap p = some ⟨cps, brust, 0, 0⟩ → Effect p s a t none
  | placed {st pos} : s.heap p = some st → t.heap p = some { st with pos := pos } → Effect p s a t none
  | freed : t.heap p = none → Effect p s a t none
  | ticked {st} : s.heap p = some st → t.heap p = some { st with token := min st.brust (st.token + st.cps) } →
      Effect p s a t (some (.ticked p))
  | returned {st u size} : a = .returntoken u p size → s.heap p = some st →
      t.heap p = some { st with token := min st.brust (st.token + size) } → Effect p s a t (some (.returned p size))
  | fetched {st u size} : (s.pc u).wants p = some size → s.heap p = some st → 0 < st.token →
      t.heap p = some { st with token := st.token - min st.token size } →
      Effect p s a t (some (.fetched p (min st.token size)))

theorem heap_write_of_ne {h : Heap MytbfSt} {p me : Addr} {st : MytbfSt} (hp : p ≠ me) : h.write me st p = h p :=
  Function.update_of_ne hp ..

theorem returntoken_effect {u : T} {me p : Addr} {size : Int} {e : Option Event}
    (h : returntoken s me size = .ok (t, e)) : Effect p s (.returntoken u me size) t e := by
  obtain ⟨st, hst, h⟩ := bind_eq_ok.mp h
  have hst := Heap.deref_eq_ok hst
  obtain ⟨st', hadd, h⟩ := bind_eq_ok.mp h
  cases add_eq_ok hadd
  cases h
  by_cases hp : p = me
  · subst hp
    exact .returned rfl hst (by simp)
  · refine .same (by simp [heap_write_of_ne hp]) ?_
    intro ev hev
    cases hev
    exact Ne.symm hp

theorem thrAlrm_effect {i : Nat} {p : Addr} {e : Option Event} (h : thrAlrm s i = .ok (t, e)) :
    Effect p s (.alarmTurn i) t e := by
  unfold thrAlrm at h
  split at h
  · cases h
    exact .same rfl (by simp)
  · rename_i me hme
    obtain ⟨st, hst, h⟩ := bind_eq_ok.mp h
    have hst := Heap.deref_eq_ok hst
    obtain ⟨st', hadd, h⟩ := bind_eq_ok.mp h
    cases add_eq_ok hadd
    cases h
    by_cases hp : p = me
    · subst hp
      exact .ticked hst (by simp)
    · refine .same (by simp [heap_write_of_ne hp]) ?_
      intro ev hev
      cases hev
      exact Ne.symm hp

variable [DecidableEq T]

@[simp] theorem setPc_heap (s : State T) (u : T) (pc : Pc) : (s.setPc u pc).heap = s.heap := rfl

theorem fetchtocken_effect {u : T} {me p : Addr} {size : Int} {e : Option Event} {a : Act T}
    (hpc : s.pc u = .locking me size) (h : fetchtocken s u me size = .ok (t, e)) : Effect p s a t e := by
  obtain ⟨st, hst, h⟩ := bind_eq_ok.mp h
  have hst := Heap.deref_eq_ok hst
  split at h
  · cases h
    exact .same rfl (by simp)
  · rename_i htoken
    obtain ⟨token, hsub, h⟩ := bind_eq_ok.mp h
    obtain ⟨-, rfl⟩ := int32_eq_ok.mp hsub
    cases h
    by_cases hp : p = me
    · subst hp
      rw [min_eq]
      refine .fetched (u := u) ?_ hst (by omega) (by simp)
      simp [hpc, Pc.wants]
    · refine .same (by simp [heap_write_of_ne hp]) ?_
      intro ev hev
      cases hev
      exact Ne.symm hp

theorem free_effect {a : Act T} {u : T} {me p : Addr} {h' : Heap MytbfSt} (h : s.heap.free me = .ok h') :
    Effect p s a ({ s with heap := h' }.setPc u .idle) none := by
  cases Heap.free_eq_ok h
  by_cases hp : p = me
  · subst hp
    exact .freed (by simp)
  · exact .same (by simp [Function.update_of_ne hp]) (by simp)

theorem place_effect {u : T} {me p : Addr} (h : place s u me = .ok t) : Effect p s (.place u me) t none := by
  unfold place at h
  split at h
  · obtain ⟨h', hfree, h⟩ := bind_eq_ok.mp h
    cases h
    exact free_effect hfree
  · rename_i pos hpos
    obtain ⟨st, hst, h⟩ := bind_eq_ok.mp h
    have hst := Heap.deref_eq_ok hst
    cases h
    by_cases hp : p = me
    · subst hp
      exact .placed hst (by simp; rfl)
    · exact .same (by simp [heap_write_of_ne hp]) (by simp)

theorem step_effect {p : Addr} {a : Act T} {e : Option Event} (h : lts.step s (a, e) t) : Effect p s a t e := by
  obtain ⟨hen, h⟩ := h
  cases a with
  | init u cps brust me =>
    cases h
    by_cases hp : p = me
    · subst hp
      exact .made rfl (by simp [init])
    · exact .same (by simp [init, heap_write_of_ne hp]) (by simp)
  | place u me =>
    simp only [exec] at h
    obtain ⟨t', h', he⟩ := map_eq_ok.mp h
    cases he
    exact place_effect h'
  | destory u me =>
    obtain ⟨t', h', he⟩ := map_eq_ok.mp h
    cases he
    obtain ⟨st, -, h'⟩ := bind_eq_ok.mp h'
    cases h'
    exact .same rfl (by simp)
  | free u me =>
    obtain ⟨t', h', he⟩ := map_eq_ok.mp h
    cases he
    obtain ⟨heap, hfree, h'⟩ := bind_eq_ok.mp h'
    cases h'
    exact free_effect hfree
  | lock u me size => exact fetchtocken_effect hen h
  | returntoken u me size => exact returntoken_effect h
  | alarmTurn i => exact thrAlrm_effect h
  | fetchtocken u me size | wake u me size | alarmLock | alarmUnlock =>
    cases h
    exact .same rfl (by simp)

/-! ## The threads in `mytbf_fetchtocken` -/

theorem wants_update {p : Addr} {pc : T → Pc} {u v : T} {x : Pc} {size : Int}
    (h : (Function.update pc u x v).wants p = some size) :
    (v = u ∧ x.wants p = some size) ∨ (pc v).wants p = some size := by
  by_cases hv : v = u
  · subst hv
    rw [Function.update_self] at h
    exact .inl ⟨rfl, h⟩
  · rw [Function.update_of_ne hv] at h
    exact .inr h

theorem wants_update_none {p : Addr} {pc : T → Pc} {u v : T} {x : Pc} {size : Int} (hx : x.wants p = none)
    (h : (Function.update pc u x v).wants p = some size) : (pc v).wants p = some size := by
  obtain ⟨-, hu⟩ | hu := wants_update h
  · rw [hx] at hu
    cases hu
  · exact hu

theorem step_wants {p : Addr} {a : Act T} {e : Option Event} (h : lts.step s (a, e) t) {v : T} {size : Int}
    (hv : (t.pc v).wants p = some size) : (s.pc v).wants p = some size ∨ a = .fetchtocken v p size := by
  obtain ⟨hen, h⟩ := h
  cases a with
  | init u cps brust me =>
    cases h
    exact .inl (wants_update_none rfl hv)
  | place u me =>
    simp only [exec] at h
    obtain ⟨t', h', he⟩ := map_eq_ok.mp h
    cases he
    unfold place at h'
    split at h'
    · obtain ⟨heap, -, h'⟩ := bind_eq_ok.mp h'
      cases h'
      exact .inl (wants_update_none rfl hv)
    · obtain ⟨st, -, h'⟩ := bind_eq_ok.mp h'
      cases h'
      exact .inl (wants_update_none rfl hv)
  | destory u me =>
    obtain ⟨t', h', he⟩ := map_eq_ok.mp h
    cases he
    obtain ⟨st, -, h'⟩ := bind_eq_ok.mp h'
    cases h'
    exact .inl (wants_update_none rfl hv)
  | free u me =>
    obtain ⟨t', h', he⟩ := map_eq_ok.mp h
    cases he
    obtain ⟨heap, -, h'⟩ := bind_eq_ok.mp h'
    cases h'
    exact .inl (wants_update_none rfl hv)
  | fetchtocken u me size' =>
    cases h
    obtain ⟨rfl, hu⟩ | hu := wants_update hv
    · refine .inr ?_
      simp only [Pc.wants, Option.ite_none_right_eq_some, Option.some.injEq] at hu
      obtain ⟨rfl, rfl⟩ := hu
      rfl
    · exact .inl hu
  | lock u me size' =>
    obtain ⟨st, -, h⟩ := bind_eq_ok.mp h
    split at h
    · cases h
      obtain ⟨rfl, hu⟩ | hu := wants_update hv
      · refine .inl ?_
        rw [show s.pc v = _ from hen]
        exact hu
      · exact .inl hu
    · obtain ⟨token, -, h⟩ := bind_eq_ok.mp h
      cases h
      exact .inl (wants_update_none rfl hv)
  | wake u me size' =>
    cases h
    obtain ⟨rfl, hu⟩ | hu := wants_update hv
    · refine .inl ?_
      rw [show s.pc v = _ from hen]
      exact hu
    · exact .inl hu
  | returntoken u me size' =>
    obtain ⟨st, -, h⟩ := bind_eq_ok.mp h
    obtain ⟨st', -, h⟩ := bind_eq_ok.mp h
    cases h
    rw [broadcast_pc, wants_broadcast] at hv
    exact .inl hv
  | alarmTurn i =>
    change thrAlrm s i = _ at h
    unfold thrAlrm at h
    split at h
    · cases h
      exact .inl hv
    · obtain ⟨st, -, h⟩ := bind_eq_ok.mp h
      obtain ⟨st', -, h⟩ := bind_eq_ok.mp h
      cases h
      rw [broadcast_pc, wants_broadcast] at hv
      exact .inl hv
  | alarmLock | alarmUnlock =>
    cases h
    exact .inl hv

end MyLearning.Mytbf
