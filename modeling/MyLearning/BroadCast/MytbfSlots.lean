import Mathlib.Data.List.Nodup
import MyLearning.BroadCast.MytbfEffect

/-!
# The slots of the table

Buckets are used through the handles that `mytbf_init` returns, each destroyed once at
most. Whoever makes or frees a bucket has it alone: it is no handle and not in the
table. So the table holds exactly the buckets with a handle, each at its own place, and
the alarm thread never finds a freed one there.
-/

namespace MyLearning.Mytbf

variable {T : Type}

/-! ## Handles -/

/-- The buckets, and the handles returned and not yet given to `mytbf_destory`. -/
structure Use (T : Type) where
  st : State T
  handles : List Addr

/-- What `mytbf_init` returns, decided under `mut_job`. -/
def returned (job : Nat → Option Addr) (me : Addr) : Option Addr := (getFreePosUnlocked job).map fun _ => me

def handlesAfter (u : Use T) : Act T → List Addr
  | .place _ me => u.handles ++ (returned u.st.job me).toList
  | .destory _ me => u.handles.erase me
  | _ => u.handles

/-- `mytbf_destory` takes a handle. -/
def Allowed (u : Use T) : Act T → Prop
  | .destory _ me => me ∈ u.handles
  | _ => True

def Pc.owns (me : Addr) : Pc → Prop
  | .placing p | .freeing p => p = me
  | _ => False

@[simp] theorem owns_broadcast (p me : Addr) (pc : Pc) : (pc.broadcast me).owns p ↔ pc.owns p := by
  cases pc with
  | waiting q size =>
    by_cases h : q = me <;> simp [Pc.broadcast, Pc.owns, h]
  | idle | placing me | locking me size | freeing me => rfl

theorem getFreePosUnlocked_some {job : Nat → Option Addr} {pos : Nat} (h : getFreePosUnlocked job = some pos) :
    pos < mytbfMax ∧ job pos = none := by
  unfold getFreePosUnlocked at h
  exact ⟨List.mem_range.mp (List.mem_of_find?_eq_some h), by simpa using List.find?_some h⟩

theorem getFreePosUnlocked_none {job : Nat → Option Addr} :
    getFreePosUnlocked job = none ↔ ∀ i < mytbfMax, job i ≠ none := by
  unfold getFreePosUnlocked
  rw [List.find?_eq_none]
  simp only [List.mem_range, decide_eq_true_eq]

/-! ## The invariant -/

structure Slots (u : Use T) : Prop where
  entry : ∀ i me, u.st.job i = some me → i < mytbfMax ∧ me ∈ u.handles ∧ ∃ b, u.st.heap me = some b ∧ b.pos = i
  slot : ∀ me ∈ u.handles, ∃ b, u.st.heap me = some b ∧ u.st.job b.pos = some me
  nodup : u.handles.Nodup
  owned : ∀ t me, (u.st.pc t).owns me → (∃ b, u.st.heap me = some b) ∧ me ∉ u.handles
  alone : ∀ t v me, (u.st.pc t).owns me → (u.st.pc v).owns me → t = v

section
variable {u v : Use T} (I : Slots u)
include I

theorem Slots.frame (hjob : v.st.job = u.st.job) (hhandles : v.handles = u.handles)
    (hheap : ∀ me b, u.st.heap me = some b → ∃ b', v.st.heap me = some b' ∧ b'.pos = b.pos)
    (hpc : ∀ t me, (v.st.pc t).owns me → (u.st.pc t).owns me) : Slots v where
  entry i me h := by
    obtain ⟨hi, hme, b, hb, hpos⟩ := I.entry i me (hjob ▸ h)
    obtain ⟨b', hb', hpos'⟩ := hheap me b hb
    exact ⟨hi, hhandles ▸ hme, b', hb', hpos'.trans hpos⟩
  slot me h := by
    obtain ⟨b, hb, hj⟩ := I.slot me (hhandles ▸ h)
    obtain ⟨b', hb', hpos'⟩ := hheap me b hb
    exact ⟨b', hb', by rw [hjob, hpos']; exact hj⟩
  nodup := hhandles ▸ I.nodup
  owned t me h := by
    obtain ⟨⟨b, hb⟩, hme⟩ := I.owned t me (hpc t me h)
    obtain ⟨b', hb', -⟩ := hheap me b hb
    exact ⟨⟨b', hb'⟩, hhandles ▸ hme⟩
  alone t w me ht hw := I.alone t w me (hpc t me ht) (hpc w me hw)

theorem Slots.handle_unique {a c : Addr} {b d : MytbfSt} (ha : a ∈ u.handles) (hc : c ∈ u.handles)
    (hb : u.st.heap a = some b) (hd : u.st.heap c = some d) (hpos : b.pos = d.pos) : a = c := by
  obtain ⟨b', hb', hj⟩ := I.slot a ha
  obtain ⟨d', hd', hk⟩ := I.slot c hc
  rw [hb] at hb'
  rw [hd] at hd'
  cases hb'
  cases hd'
  rw [hpos, hk] at hj
  exact (Option.some.inj hj).symm

theorem Slots.job_iff (i : Nat) (me : Addr) :
    u.st.job i = some me ↔ me ∈ u.handles ∧ ∃ b, u.st.heap me = some b ∧ b.pos = i := by
  constructor
  · intro h
    exact (I.entry i me h).2
  · intro ⟨hme, b, hb, hpos⟩
    obtain ⟨b', hb', hj⟩ := I.slot me hme
    rw [hb] at hb'
    cases hb'
    exact hpos ▸ hj

end

theorem write_keeps_pos {h : Heap MytbfSt} {me : Addr} {st st' : MytbfSt} (hst : h me = some st) (hpos : st'.pos = st.pos)
    (p : Addr) (b : MytbfSt) (hb : h p = some b) : ∃ b', h.write me st' p = some b' ∧ b'.pos = b.pos := by
  by_cases hp : p = me
  · subst hp
    rw [hst] at hb
    cases hb
    exact ⟨st', Heap.write_self .., hpos⟩
  · exact ⟨b, by rw [heap_write_of_ne hp]; exact hb, rfl⟩

theorem keeps_pos (h : Heap MytbfSt) (p : Addr) (b : MytbfSt) (hb : h p = some b) :
    ∃ b', h p = some b' ∧ b'.pos = b.pos := ⟨b, hb, rfl⟩

theorem slots_initial : Slots (⟨initial, []⟩ : Use T) where
  entry i me h := by cases h
  slot me h := by cases h
  nodup := List.nodup_nil
  owned t me h := by cases h
  alone t v me h := by cases h

theorem thrAlrm_not_dangling {u : Use T} (I : Slots u) (i : Nat) : thrAlrm u.st i ≠ .error .dangling := by
  unfold thrAlrm
  cases hj : u.st.job i with
  | none => simp
  | some me =>
    obtain ⟨-, -, b, hb, -⟩ := I.entry i me hj
    dsimp only
    rw [Heap.deref_some hb, ok_bind]
    cases hadd : add b b.cps with
    | error f =>
      obtain ⟨x, hx⟩ | hx : (∃ x, int32 (b.token + b.cps) = .ok x) ∨ int32 (b.token + b.cps) = .error .overflow := by
        unfold int32; split <;> simp
      · unfold add at hadd
        rw [hx] at hadd
        cases hadd
      · unfold add at hadd
        rw [hx] at hadd
        cases hadd
        simp
    | ok b' => simp

variable [DecidableEq T]

theorem owns_update {pc : T → Pc} {t w : T} {x : Pc} {me : Addr} (h : (Function.update pc t x w).owns me) :
    (w = t ∧ x.owns me) ∨ (w ≠ t ∧ (pc w).owns me) := by
  by_cases hw : w = t
  · subst hw
    rw [Function.update_self] at h
    exact .inl ⟨rfl, h⟩
  · rw [Function.update_of_ne hw] at h
    exact .inr ⟨hw, h⟩

theorem owns_update_idle {pc : T → Pc} {t w : T} {x : Pc} {me : Addr} (hx : ∀ p, ¬ x.owns p)
    (h : (Function.update pc t x w).owns me) : (pc w).owns me := by
  rcases owns_update h with ⟨-, hn⟩ | ⟨-, ho⟩
  · exact absurd hn (hx me)
  · exact ho

theorem alone_update {pc : T → Pc} {t : T} {x : Pc} {me : Addr} (hx : ∀ p, x.owns p → p = me)
    (unowned : ∀ w, ¬ (pc w).owns me) (h : ∀ w y p, (pc w).owns p → (pc y).owns p → w = y) (w y : T) (p : Addr)
    (hw : (Function.update pc t x w).owns p) (hy : (Function.update pc t x y).owns p) : w = y := by
  rcases owns_update hw with ⟨rfl, hxw⟩ | ⟨-, hw⟩
  · rcases owns_update hy with ⟨rfl, -⟩ | ⟨-, hy⟩
    · rfl
    · exact absurd (hx p hxw ▸ hy) (unowned y)
  · rcases owns_update hy with ⟨-, hxy⟩ | ⟨-, hy⟩
    · exact absurd (hx p hxy ▸ hw) (unowned w)
    · exact h w y p hw hy

/-! ## Making and destroying a bucket -/

section
variable {u : Use T} (I : Slots u) {t : T} {me : Addr}
include I

theorem Slots.init {cps brust : Int} (hfree : u.st.heap me = none) : Slots ⟨init u.st t cps brust me, u.handles⟩ := by
  have other : ∀ {p b}, u.st.heap p = some b → u.st.heap.write me ⟨cps, brust, 0, 0⟩ p = some b := by
    intro p b hb
    rw [heap_write_of_ne ?_]
    · exact hb
    · intro hp
      rw [hp, hfree] at hb
      cases hb
  have fresh : me ∉ u.handles := by
    intro h
    obtain ⟨b, hb, -⟩ := I.slot me h
    rw [hfree] at hb
    cases hb
  have unowned : ∀ w, ¬ (u.st.pc w).owns me := by
    intro w h
    obtain ⟨⟨b, hb⟩, -⟩ := I.owned w me h
    rw [hfree] at hb
    cases hb
  constructor
  · intro i p h
    obtain ⟨hi, hp, b, hb, hpos⟩ := I.entry i p h
    exact ⟨hi, hp, b, other hb, hpos⟩
  · intro p h
    obtain ⟨b, hb, hj⟩ := I.slot p h
    exact ⟨b, other hb, hj⟩
  · exact I.nodup
  · intro w p h
    rcases owns_update h with ⟨-, rfl⟩ | ⟨-, ho⟩
    · exact ⟨⟨_, Heap.write_self ..⟩, fresh⟩
    · obtain ⟨⟨b, hb⟩, hp⟩ := I.owned w p ho
      exact ⟨⟨b, other hb⟩, hp⟩
  · intro w x p hw hx
    have new : ∀ q, (Pc.placing me).owns q → q = me := fun q h => Eq.symm h
    exact alone_update new unowned I.alone w x p hw hx

theorem Slots.release (ho : (u.st.pc t).owns me) {x : Pc} (hx : ∀ p, ¬ x.owns p) :
    Slots ⟨{ u.st with heap := Function.update u.st.heap me none }.setPc t x, u.handles⟩ := by
  obtain ⟨-, hme⟩ := I.owned t me ho
  have other : ∀ {p b}, p ≠ me → u.st.heap p = some b → Function.update u.st.heap me none p = some b := by
    intro p b hp hb
    rw [Function.update_of_ne hp]; exact hb
  have hne : ∀ p ∈ u.handles, p ≠ me := fun p hp h => hme (h ▸ hp)
  constructor
  · intro i p h
    obtain ⟨hi, hp, b, hb, hpos⟩ := I.entry i p h
    exact ⟨hi, hp, b, other (hne p hp) hb, hpos⟩
  · intro p h
    obtain ⟨b, hb, hj⟩ := I.slot p h
    exact ⟨b, other (hne p h) hb, hj⟩
  · exact I.nodup
  · intro w p h
    rcases owns_update h with ⟨-, hn⟩ | ⟨hw, h⟩
    · exact absurd hn (hx p)
    · obtain ⟨⟨b, hb⟩, hp⟩ := I.owned w p h
      refine ⟨⟨b, other ?_ hb⟩, hp⟩
      intro hpm
      subst hpm
      exact hw (I.alone w t p h ho)
  · intro w y p hw hy
    exact I.alone w y p (owns_update_idle hx hw) (owns_update_idle hx hy)

theorem Slots.register (ho : (u.st.pc t).owns me) {st : MytbfSt} {pos : Nat} (hst : u.st.heap me = some st)
    (hpos : pos < mytbfMax) (hfree : u.st.job pos = none) :
    Slots ⟨{ u.st with heap := u.st.heap.write me { st with pos := pos }
                       job := Function.update u.st.job pos (some me) }.setPc t .idle, u.handles ++ [me]⟩ := by
  obtain ⟨-, hme⟩ := I.owned t me ho
  have hne : ∀ p ∈ u.handles, p ≠ me := fun p hp h => hme (h ▸ hp)
  constructor
  · intro i p h
    rcases update_some h with ⟨rfl, hp⟩ | ⟨hi, h⟩
    · cases hp
      exact ⟨hpos, List.mem_append_right _ (List.mem_singleton_self _), _, Heap.write_self .., rfl⟩
    · obtain ⟨hi', hp, b, hb, hbpos⟩ := I.entry i p h
      exact ⟨hi', List.mem_append_left _ hp, b, by rw [← hb]; exact heap_write_of_ne (hne p hp), hbpos⟩
  · intro p h
    rcases List.mem_append.mp h with h | h
    · obtain ⟨b, hb, hj⟩ := I.slot p h
      refine ⟨b, by rw [← hb]; exact heap_write_of_ne (hne p h), ?_⟩
      have hbp : b.pos ≠ pos := by
        intro hbp
        rw [hbp, hfree] at hj
        cases hj
      exact (Function.update_of_ne hbp ..).trans hj
    · cases List.mem_singleton.mp h
      exact ⟨_, Heap.write_self .., Function.update_self ..⟩
  · rw [List.nodup_append]
    refine ⟨I.nodup, List.nodup_singleton me, ?_⟩
    intro p hp q hq
    cases List.mem_singleton.mp hq
    exact hne p hp
  · intro w p h
    rcases owns_update h with ⟨-, hn⟩ | ⟨hw, h⟩
    · exact absurd hn (by simp [Pc.owns])
    · obtain ⟨⟨b, hb⟩, hp⟩ := I.owned w p h
      have hpm : p ≠ me := by
        intro hpm
        subst hpm
        exact hw (I.alone w t p h ho)
      refine ⟨⟨b, by rw [← hb]; exact heap_write_of_ne hpm⟩, ?_⟩
      intro hmem
      rcases List.mem_append.mp hmem with hmem | hmem
      · exact hp hmem
      · exact hpm (List.mem_singleton.mp hmem)
  · intro w y p hw hy
    exact I.alone w y p (owns_update_idle (by simp [Pc.owns]) hw) (owns_update_idle (by simp [Pc.owns]) hy)

theorem Slots.unregister {st : MytbfSt} (hme : me ∈ u.handles) (hst : u.st.heap me = some st) :
    Slots ⟨{ u.st with job := Function.update u.st.job st.pos none }.setPc t (.freeing me), u.handles.erase me⟩ := by
  have unowned : ∀ w, ¬ (u.st.pc w).owns me := fun w h => (I.owned w me h).2 hme
  have hmem : ∀ p, p ∈ u.handles.erase me ↔ p ≠ me ∧ p ∈ u.handles := fun p => I.nodup.mem_erase_iff
  constructor
  · intro i p h
    rcases update_some h with ⟨-, hp⟩ | ⟨hi, h⟩
    · cases hp
    · obtain ⟨hi', hp, b, hb, hbpos⟩ := I.entry i p h
      refine ⟨hi', (hmem p).mpr ⟨?_, hp⟩, b, hb, hbpos⟩
      intro hpm
      rw [hpm, hst] at hb
      cases hb
      exact hi hbpos.symm
  · intro p h
    obtain ⟨hpm, hp⟩ := (hmem p).mp h
    obtain ⟨b, hb, hj⟩ := I.slot p hp
    refine ⟨b, hb, ?_⟩
    have hbp : b.pos ≠ st.pos := fun hpos => hpm (I.handle_unique hp hme hb hst hpos)
    exact (Function.update_of_ne hbp ..).trans hj
  · exact I.nodup.erase me
  · intro w p h
    rcases owns_update h with ⟨-, rfl⟩ | ⟨-, h⟩
    · exact ⟨⟨st, hst⟩, fun hm => ((hmem _).mp hm).1 rfl⟩
    · obtain ⟨hb, hp⟩ := I.owned w p h
      exact ⟨hb, fun hm => hp ((hmem p).mp hm).2⟩
  · intro w y p hw hy
    have new : ∀ q, (Pc.freeing me).owns q → q = me := fun q h => Eq.symm h
    exact alone_update new unowned I.alone w y p hw hy

/-! ## The critical section of mytbf_init -/

theorem Slots.place (ho : (u.st.pc t).owns me) : ∃ s, place u.st t me = .ok s ∧
    Slots ⟨s, u.handles ++ (returned u.st.job me).toList⟩ ∧
    (returned u.st.job me = none ↔ ∀ i < mytbfMax, u.st.job i ≠ none) ∧
    (returned u.st.job me = none → s.job = u.st.job ∧ s.heap me = none) ∧
    (∀ p, returned u.st.job me = some p → p = me ∧ ∃ i, u.st.job i = none ∧ s.job = Function.update u.st.job i (some me)) := by
  obtain ⟨⟨st, hst⟩, -⟩ := I.owned t me ho
  unfold Mytbf.place returned
  -- the table is full, or the bucket gets its first free place
  cases hpos : getFreePosUnlocked u.st.job with
  | none =>
    dsimp only
    rw [Heap.free_some hst]
    refine ⟨_, rfl, ?_, ?_, fun _ => ⟨rfl, Function.update_self ..⟩, fun p h => by cases h⟩
    · simp only [Option.map_none, Option.toList_none, List.append_nil]
      exact I.release ho (by simp [Pc.owns])
    · simp only [Option.map_none, true_iff]
      exact getFreePosUnlocked_none.mp hpos
  | some pos =>
    dsimp only
    rw [Heap.deref_some hst]
    obtain ⟨hlt, hfree⟩ := getFreePosUnlocked_some hpos
    refine ⟨_, rfl, I.register ho hst hlt hfree, ?_, by simp, ?_⟩
    · simp only [Option.map_some, reduceCtorEq, false_iff]
      intro hall
      exact hall pos hlt hfree
    · intro p h
      cases h
      exact ⟨rfl, pos, hfree, rfl⟩

end

/-! ## Runs -/

def useLts : Lts (Use T) (Act T × Option Event) where
  init u := u = ⟨initial, []⟩
  step u l v := Allowed u l.1 ∧ lts.step u.st l v.st ∧ v.handles = handlesAfter u l.1

theorem Slots.step {u v : Use T} {l : Act T × Option Event} (I : Slots u) (h : useLts.step u l v) : Slots v := by
  obtain ⟨s, hs⟩ := v
  obtain ⟨a, e⟩ := l
  obtain ⟨hallowed, ⟨hen, h⟩, rfl⟩ := h
  cases a with
  | init t cps brust me =>
    cases h
    exact I.init hen.2
  | place t me =>
    simp only [exec] at h
    obtain ⟨s', h', he⟩ := map_eq_ok.mp h
    cases he
    have ho : (u.st.pc t).owns me := by rw [hen.1]; rfl
    obtain ⟨s'', hs'', I', -⟩ := I.place ho
    rw [h'] at hs''
    cases hs''
    exact I'
  | destory t me =>
    obtain ⟨s', h', he⟩ := map_eq_ok.mp h
    cases he
    obtain ⟨st, hst, h'⟩ := bind_eq_ok.mp h'
    cases h'
    exact I.unregister hallowed (Heap.deref_eq_ok hst)
  | free t me =>
    obtain ⟨s', h', he⟩ := map_eq_ok.mp h
    cases he
    obtain ⟨heap, hfree, h'⟩ := bind_eq_ok.mp h'
    cases h'
    cases Heap.free_eq_ok hfree
    have ho : (u.st.pc t).owns me := by rw [show u.st.pc t = _ from hen]; rfl
    exact I.release ho (by simp [Pc.owns])
  | fetchtocken t me size =>
    cases h
    exact I.frame rfl rfl (keeps_pos _) fun w p hw => owns_update_idle (by simp [Pc.owns]) hw
  | lock t me size =>
    obtain ⟨st, hst, h⟩ := bind_eq_ok.mp h
    have hst := Heap.deref_eq_ok hst
    split at h
    · cases h
      exact I.frame rfl rfl (keeps_pos _) fun w p hw => owns_update_idle (by simp [Pc.owns]) hw
    · obtain ⟨token, -, h⟩ := bind_eq_ok.mp h
      cases h
      exact I.frame rfl rfl (write_keeps_pos hst rfl) fun w p hw => owns_update_idle (by simp [Pc.owns]) hw
  | wake t me size =>
    cases h
    exact I.frame rfl rfl (keeps_pos _) fun w p hw => owns_update_idle (by simp [Pc.owns]) hw
  | returntoken t me size =>
    obtain ⟨st, hst, h⟩ := bind_eq_ok.mp h
    obtain ⟨st', hadd, h⟩ := bind_eq_ok.mp h
    cases add_eq_ok hadd
    cases h
    exact I.frame rfl rfl (write_keeps_pos (Heap.deref_eq_ok hst) rfl) fun w p hw => (owns_broadcast ..).mp hw
  | alarmTurn i =>
    change thrAlrm u.st i = _ at h
    unfold thrAlrm at h
    split at h
    · cases h
      exact I.frame rfl rfl (keeps_pos _) fun w p hw => hw
    · obtain ⟨st, hst, h⟩ := bind_eq_ok.mp h
      obtain ⟨st', hadd, h⟩ := bind_eq_ok.mp h
      cases add_eq_ok hadd
      cases h
      exact I.frame rfl rfl (write_keeps_pos (Heap.deref_eq_ok hst) rfl) fun w p hw => (owns_broadcast ..).mp hw
  | alarmLock | alarmUnlock =>
    cases h
    exact I.frame rfl rfl (keeps_pos _) fun w p hw => hw

theorem reachable_slots {u : Use T} (h : useLts.Reachable u) : Slots u :=
  h.invariant_from slots_initial (fun _ _ _ I hs => I.step hs) fun _ h => h

/-- **The slot table.** In every reachable state a place of the table holds a bucket exactly
when it is the place of a live bucket with a handle; no two handles share a place; a turn of the
alarm thread never touches a freed bucket; and the critical section of `mytbf_init`
returns `nullptr` exactly when all places were taken, with the table unchanged, and
otherwise the bucket, which it puts in a free place. -/
theorem slot_table {u : Use T} (h : useLts.Reachable u) :
    (∀ i me, u.st.job i = some me ↔ me ∈ u.handles ∧ ∃ b, u.st.heap me = some b ∧ b.pos = i) ∧
    (∀ me ∈ u.handles, ∃ b, u.st.heap me = some b ∧ b.pos < mytbfMax ∧ u.st.job b.pos = some me) ∧
    u.handles.Nodup ∧
    (∀ a ∈ u.handles, ∀ c ∈ u.handles, ∀ b d, u.st.heap a = some b → u.st.heap c = some d → b.pos = d.pos → a = c) ∧
    (∀ i, enabled u.st (.alarmTurn i) → exec u.st (.alarmTurn i) ≠ .error .dangling) ∧
    ∀ t me, enabled u.st (.place t me) → ∃ s, place u.st t me = .ok s ∧
      (returned u.st.job me = none ↔ ∀ i < mytbfMax, u.st.job i ≠ none) ∧
      (returned u.st.job me = none → s.job = u.st.job ∧ s.heap me = none) ∧
      (∀ p, returned u.st.job me = some p →
        p = me ∧ ∃ i, u.st.job i = none ∧ s.job = Function.update u.st.job i (some me)) := by
  have I := reachable_slots h
  refine ⟨I.job_iff, ?_, I.nodup, ?_, ?_, ?_⟩
  · intro me hme
    obtain ⟨b, hb, hj⟩ := I.slot me hme
    exact ⟨b, hb, (I.entry _ _ hj).1, hj⟩
  · intro a ha c hc b d hb hd hpos
    exact I.handle_unique ha hc hb hd hpos
  · intro i _
    exact thrAlrm_not_dangling I i
  · intro t me hen
    have ho : (u.st.pc t).owns me := by rw [hen.1]; rfl
    obtain ⟨s, hs, -, hnone, hsame, hsome⟩ := I.place ho
    exact ⟨s, hs, hnone, hsame, hsome⟩

/-- A bucket is made, placed and destroyed, and its place is used again before it is freed. -/
theorem slot_table_reused : ∃ u : Use Bool, useLts.Reachable u ∧ u.handles = [6] ∧ u.handles.Nodup ∧
    ∀ me ∈ u.handles, ∃ b, u.st.heap me = some b ∧ b.pos < mytbfMax ∧ u.st.job b.pos = some me := by
  have made : ∀ (s : State Bool) t me st, s.job 0 = none → s.heap me = some st → place s t me = .ok
      ({ s with heap := s.heap.write me { st with pos := 0 }
                job := Function.update s.job 0 (some me) }.setPc t .idle) := by
    intro s t me st hjob hst
    unfold place
    rw [getFreePosUnlocked_zero hjob]
    dsimp only
    rw [Heap.deref_some hst]
    rfl
  have back : ∀ job me, job 0 = none → returned job me = some me := by
    intro job me hjob
    unfold returned
    rw [getFreePosUnlocked_zero hjob]
    rfl
  let s₁ : State Bool := init initial true 3 5 5
  let s₂ : State Bool :=
    { s₁ with heap := s₁.heap.write 5 ⟨3, 5, 0, 0⟩, job := Function.update s₁.job 0 (some 5) }.setPc true .idle
  let s₃ : State Bool := init s₂ false 1 9 6
  let s₄ : State Bool := { s₃ with job := Function.update s₃.job 0 none }.setPc true (.freeing 5)
  let s₅ : State Bool :=
    { s₄ with heap := s₄.heap.write 6 ⟨1, 9, 0, 0⟩, job := Function.update s₄.job 0 (some 6) }.setPc false .idle
  have h₂ : exec s₁ (.place true 5) = .ok (s₂, none) := by
    rw [exec, made s₁ true 5 ⟨3, 5, 0, 0⟩ rfl rfl]
    rfl
  have h₄ : exec s₃ (.destory true 5) = .ok (s₄, none) := by
    have hst : s₃.heap 5 = some ⟨3, 5, 0, 0⟩ := rfl
    unfold exec destory
    dsimp only
    rw [Heap.deref_some hst]
    rfl
  have h₅ : exec s₄ (.place false 6) = .ok (s₅, none) := by
    rw [exec, made s₄ false 6 ⟨1, 9, 0, 0⟩ rfl rfl]
    rfl
  have k₁ : useLts.step (⟨initial, []⟩ : Use Bool) (.init true 3 5 5, none) ⟨s₁, []⟩ :=
    ⟨trivial, ⟨⟨rfl, rfl⟩, rfl⟩, rfl⟩
  have k₂ : useLts.step (⟨s₁, []⟩ : Use Bool) (.place true 5, none) ⟨s₂, [5]⟩ := by
    refine ⟨trivial, ⟨⟨rfl, rfl⟩, h₂⟩, ?_⟩
    simp [handlesAfter, back s₁.job 5 rfl]
  have k₃ : useLts.step (⟨s₂, [5]⟩ : Use Bool) (.init false 1 9 6, none) ⟨s₃, [5]⟩ :=
    ⟨trivial, ⟨⟨rfl, rfl⟩, rfl⟩, rfl⟩
  have k₄ : useLts.step (⟨s₃, [5]⟩ : Use Bool) (.destory true 5, none) ⟨s₄, []⟩ :=
    ⟨List.mem_singleton_self _, ⟨⟨rfl, rfl⟩, h₄⟩, rfl⟩
  have k₅ : useLts.step (⟨s₄, []⟩ : Use Bool) (.place false 6, none) ⟨s₅, [6]⟩ := by
    refine ⟨trivial, ⟨⟨rfl, rfl⟩, h₅⟩, ?_⟩
    simp [handlesAfter, back s₄.job 6 rfl]
  have hr := Lts.Run.cons k₁ (.cons k₂ (.cons k₃ (.cons k₄ (.single k₅))))
  have hreach : useLts.Reachable (⟨s₅, [6]⟩ : Use Bool) := ⟨_, _, rfl, hr⟩
  have hall := slot_table hreach
  exact ⟨_, hreach, rfl, hall.2.2.1, hall.2.1⟩

end MyLearning.Mytbf
