import Mathlib.Data.List.Nodup
import MyLearning.MyMuduo.TimerLedger

/-!
# The two indexes of a timer queue

`Indexed` says that `timers` and `activeTimers` are the queued slots, keyed by
expiration and by address. Each function of the source is then evaluated under
it: no assertion of `insert`, `cancelInLoop`, `getExpired` or `reset` fails, no
freed timer is read, and the result is given outright.
-/

namespace MyLearning.TimerQueue

structure Indexed (T : OrdSet Entry) (A : OrdSet ActiveTimer) (m : Slots) : Prop where
  sizes : T.size = A.size
  timers : ∀ w p, ⟨w, p⟩ ∈ T ↔ ∃ t, m p = some ⟨.queued, t⟩ ∧ t.expiration = w
  active : ∀ p q, ⟨p, q⟩ ∈ A ↔ ∃ t, m p = some ⟨.queued, t⟩ ∧ t.sequence = q

section
variable {T : OrdSet Entry} {A : OrdSet ActiveTimer} {m : Slots}

theorem indexed_empty : Indexed .empty .empty (fun _ => none) where
  sizes := rfl
  timers _ _ := by simp
  active _ _ := by simp

theorem Indexed.congr (I : Indexed T A m) {m' : Slots}
    (h : ∀ p t, m' p = some ⟨.queued, t⟩ ↔ m p = some ⟨.queued, t⟩) : Indexed T A m' where
  sizes := I.sizes
  timers w p := by simp only [I.timers, h]
  active p q := by simp only [I.active, h]

theorem Indexed.mem_timers (I : Indexed T A m) {p : Addr} {t : Timer} (h : m p = some ⟨.queued, t⟩) :
    ⟨t.expiration, p⟩ ∈ T := (I.timers _ _).mpr ⟨t, h, rfl⟩

theorem Indexed.mem_active (I : Indexed T A m) {p : Addr} {t : Timer} (h : m p = some ⟨.queued, t⟩) :
    ⟨p, t.sequence⟩ ∈ A := (I.active _ _).mpr ⟨t, h, rfl⟩

theorem Indexed.timers_unique (I : Indexed T A m) {e e' : Entry} (he : e ∈ T) (he' : e' ∈ T)
    (h : e.timer = e'.timer) : e = e' := by
  obtain ⟨t, ht, hw⟩ := (I.timers e.when_ e.timer).mp he
  obtain ⟨t', ht', hw'⟩ := (I.timers e'.when_ e'.timer).mp he'
  rw [← h, ht] at ht'
  cases ht'
  cases e; cases e'
  exact Entry.mk.injEq .. ▸ ⟨hw.symm.trans hw', h⟩

theorem Indexed.timer_nodup (I : Indexed T A m) {l : List Entry} (hl : ∀ e ∈ l, e ∈ T) (hn : l.Nodup) :
    (l.map Entry.timer).Nodup := by
  refine List.Nodup.map_on ?_ hn
  intro e he e' he' h
  exact I.timers_unique (hl e he) (hl e' he') h

theorem Indexed.active_unique (I : Indexed T A m) {p : Addr} {q r : Nat} (hq : ⟨p, q⟩ ∈ A) (hr : ⟨p, r⟩ ∈ A) :
    q = r := by
  obtain ⟨t, ht, hw⟩ := (I.active _ _).mp hq
  obtain ⟨t', ht', hw'⟩ := (I.active _ _).mp hr
  rw [ht] at ht'
  cases ht'
  exact hw.symm.trans hw'

theorem Indexed.insert (I : Indexed T A m) {p : Addr} (t : Timer) (hp : ∀ u, m p ≠ some ⟨.queued, u⟩) :
    (T.insert ⟨t.expiration, p⟩).2 = true ∧ (A.insert ⟨p, t.sequence⟩).2 = true ∧
      Indexed (T.insert ⟨t.expiration, p⟩).1 (A.insert ⟨p, t.sequence⟩).1
        (Function.update m p (some ⟨.queued, t⟩)) := by
  have hT : ⟨t.expiration, p⟩ ∉ T := fun h => by
    obtain ⟨u, hu, -⟩ := (I.timers _ _).mp h
    exact hp u hu
  have hA : ⟨p, t.sequence⟩ ∉ A := fun h => by
    obtain ⟨u, hu, -⟩ := (I.active _ _).mp h
    exact hp u hu
  refine ⟨OrdSet.insert_snd.mpr hT, OrdSet.insert_snd.mpr hA, ?_, ?_, ?_⟩
  · rw [OrdSet.size_insert hT, OrdSet.size_insert hA, I.sizes]
  · intro w q
    rw [OrdSet.mem_insert]
    by_cases hq : q = p
    · subst hq
      have : ⟨w, q⟩ ∉ T := fun h => by
        obtain ⟨u, hu, -⟩ := (I.timers _ _).mp h
        exact hp u hu
      simp only [Entry.mk.injEq, and_true, this, or_false, Function.update_self, Option.some.injEq,
        Slot.mk.injEq, true_and, exists_eq_left']
      exact eq_comm
    · simp only [Entry.mk.injEq, hq, and_false, false_or, I.timers, Function.update_of_ne hq]
  · intro q k
    rw [OrdSet.mem_insert]
    by_cases hq : q = p
    · subst hq
      have : ⟨q, k⟩ ∉ A := fun h => by
        obtain ⟨u, hu, -⟩ := (I.active _ _).mp h
        exact hp u hu
      simp only [ActiveTimer.mk.injEq, true_and, this, or_false, Function.update_self, Option.some.injEq,
        Slot.mk.injEq, exists_eq_left']
      exact eq_comm
    · simp only [ActiveTimer.mk.injEq, hq, false_and, false_or, I.active, Function.update_of_ne hq]

theorem erased_iff {p : Addr} {t : Timer} (hp : m p = some ⟨.queued, t⟩) {β : Type} (f : Timer → β) (b : β) (q : Addr) :
    (¬ (b = f t ∧ q = p) ∧ ∃ u, m q = some ⟨.queued, u⟩ ∧ f u = b) ↔
      ∃ u, Function.update m p none q = some ⟨.queued, u⟩ ∧ f u = b := by
  by_cases hq : q = p
  · subst hq
    simp only [Function.update_self, reduceCtorEq, false_and, exists_false, iff_false, not_and, and_true]
    intro hne h
    obtain ⟨u, hu, rfl⟩ := h
    rw [hp] at hu
    cases hu
    exact hne rfl
  · simp [hq]

theorem Indexed.erase (I : Indexed T A m) {p : Addr} {t : Timer} (hp : m p = some ⟨.queued, t⟩) :
    (T.erase ⟨t.expiration, p⟩).2 = 1 ∧
      Indexed (T.erase ⟨t.expiration, p⟩).1 (A.erase ⟨p, t.sequence⟩).1 (Function.update m p none) := by
  have hT := I.mem_timers hp
  have hA := I.mem_active hp
  refine ⟨OrdSet.erase_snd.mpr hT, ?_, ?_, ?_⟩
  · have h₁ := OrdSet.size_erase hT
    have h₂ := OrdSet.size_erase hA
    have := I.sizes
    omega
  · intro w q
    rw [OrdSet.mem_erase, I.timers, ← erased_iff hp, Ne, Entry.mk.injEq]
  · intro q k
    rw [OrdSet.mem_erase, I.active, ← erased_iff hp, Ne, ActiveTimer.mk.injEq, and_comm (a := q = p)]

end

/-! ## The functions, evaluated -/

section
variable {s : State} {m : Slots} (I : Indexed s.timers s.activeTimers m)
  (hh : ∀ p, s.heap p = (m p).map Slot.timer)

def isEarliest (T : OrdSet Entry) (t : Timer) : Bool :=
  match T.begin? with
  | none => true
  | some it => decide (t.expiration < it.when_)

theorem isEarliest_iff {T : OrdSet Entry} {t : Timer} :
    isEarliest T t = true ↔ ∀ e ∈ T, t.expiration < e.when_ := by
  unfold isEarliest
  cases hb : T.begin? with
  | none => simp only [true_iff]; exact fun e he => absurd he (OrdSet.begin?_eq_none.mp hb e)
  | some it =>
    simp only [decide_eq_true_eq]
    exact ⟨fun h e he => lt_of_lt_of_le h (Entry.when_le (OrdSet.begin?_le hb he)),
      fun h => h it (OrdSet.begin?_mem hb)⟩

include I in
theorem insert_eq {p : Addr} {t : Timer} (ht : s.heap p = some t) (hp : ∀ u, m p ≠ some ⟨.queued, u⟩) :
    insert s p = .ok
      ({ s with timers := (s.timers.insert ⟨t.expiration, p⟩).1,
                activeTimers := (s.activeTimers.insert ⟨p, t.sequence⟩).1 }, isEarliest s.timers t) := by
  obtain ⟨hT, hA, J⟩ := I.insert t hp
  unfold insert
  rw [check_pos I.sizes, ok_bind, Heap.deref_some ht, ok_bind]
  dsimp only
  rw [check_pos hT, ok_bind, check_pos hA, ok_bind, check_pos J.sizes]
  rfl

theorem deleteTimer_eq {p : Addr} {t : Timer} (ht : s.heap p = some t) :
    deleteTimer s p = .ok
      { s with heap := Function.update s.heap p none, deleted := s.deleted ++ [t.sequence] } := by
  unfold deleteTimer
  rw [Heap.deref_some ht, ok_bind, Heap.free_some ht]
  rfl

def cancelled (s : State) (p : Addr) (t : Timer) : State :=
  { s with
    timers := (s.timers.erase ⟨t.expiration, p⟩).1
    activeTimers := (s.activeTimers.erase ⟨p, t.sequence⟩).1
    heap := Function.update s.heap p none
    deleted := s.deleted ++ [t.sequence] }

include I hh in
/-- A cancel of a waiting timer takes it out and deletes it; any other cancel is
remembered while expired callbacks run and ignored otherwise. -/
theorem cancelInLoop_eq (id : TimerId) :
    (∃ t, m id.timer = some ⟨.queued, t⟩ ∧ t.sequence = id.sequence ∧
      cancelInLoop s id = .ok (cancelled s id.timer t)) ∨
    ((∀ t, m id.timer = some ⟨.queued, t⟩ → t.sequence ≠ id.sequence) ∧
      cancelInLoop s id = .ok (if s.callingExpiredTimer then
        { s with cancelingTimers := (s.cancelingTimers.insert ⟨id.timer, id.sequence⟩).1 } else s)) := by
  unfold cancelInLoop
  rw [check_pos I.sizes, ok_bind]
  dsimp only
  by_cases hA : (⟨id.timer, id.sequence⟩ : ActiveTimer) ∈ s.activeTimers
  · obtain ⟨t, hm, hs⟩ := (I.active _ _).mp hA
    have ht : s.heap id.timer = some t := by rw [hh, hm]; rfl
    obtain ⟨hT, J⟩ := I.erase hm
    have hd : deleteTimer { s with timers := (s.timers.erase ⟨t.expiration, id.timer⟩).1 } id.timer =
        .ok { s with timers := (s.timers.erase ⟨t.expiration, id.timer⟩).1
                     heap := Function.update s.heap id.timer none
                     deleted := s.deleted ++ [t.sequence] } := deleteTimer_eq ht
    refine .inl ⟨t, hm, hs, ?_⟩
    rw [if_pos hA, Heap.deref_some ht, ok_bind, check_pos hT, ok_bind, hd, ok_bind, pure_eq_ok, ok_bind]
    rw [hs] at J
    rw [check_pos J.sizes, ← hs]
    rfl
  · refine .inr ⟨fun t hm hs => hA ((I.active _ _).mpr ⟨t, hm, hs⟩), ?_⟩
    rw [if_neg hA]
    split
    · rw [pure_eq_ok, ok_bind, check_pos I.sizes]; rfl
    · rw [pure_eq_ok, ok_bind, check_pos I.sizes]; rfl

theorem eraseExpired_eq {h : Heap Timer} : ∀ {l : List Entry} {A : OrdSet ActiveTimer},
    (∀ e ∈ l, ∃ t, h e.timer = some t ∧ ⟨e.timer, t.sequence⟩ ∈ A) →
    (∀ p q r, ⟨p, q⟩ ∈ A → ⟨p, r⟩ ∈ A → q = r) → (l.map Entry.timer).Nodup →
    ∃ A', eraseExpired h l A = .ok A' ∧ A'.size + l.length = A.size ∧
      ∀ p q, ⟨p, q⟩ ∈ A' ↔ ⟨p, q⟩ ∈ A ∧ p ∉ l.map Entry.timer
  | [], A, _, _, _ => ⟨A, rfl, rfl, fun p q => by simp⟩
  | e :: l, A, hl, hu, hn => by
    obtain ⟨t, ht, hA⟩ := hl e (by simp)
    rw [List.map_cons, List.nodup_cons] at hn
    have hsub : ∀ p q, ⟨p, q⟩ ∈ (A.erase ⟨e.timer, t.sequence⟩).1 ↔ ⟨p, q⟩ ∈ A ∧ p ≠ e.timer := by
      intro p q
      rw [OrdSet.mem_erase]
      constructor
      · intro ⟨hne, hpq⟩
        refine ⟨hpq, ?_⟩
        intro hp
        subst hp
        exact hne (by rw [hu _ _ _ hpq hA])
      · intro ⟨hpq, hp⟩
        refine ⟨?_, hpq⟩
        intro h
        cases h
        exact hp rfl
    have hl' : ∀ e' ∈ l, ∃ t', h e'.timer = some t' ∧ ⟨e'.timer, t'.sequence⟩ ∈ (A.erase ⟨e.timer, t.sequence⟩).1 := by
      intro e' he'
      obtain ⟨t', ht', hA'⟩ := hl e' (List.mem_cons_of_mem _ he')
      have hne : e'.timer ≠ e.timer := by
        intro h
        exact hn.1 (h ▸ List.mem_map_of_mem he')
      exact ⟨t', ht', (hsub _ _).mpr ⟨hA', hne⟩⟩
    obtain ⟨A', he, hsz, hm⟩ := eraseExpired_eq hl'
      (fun p q r hq hr => hu p q r ((hsub _ _).mp hq).1 ((hsub _ _).mp hr).1) hn.2
    refine ⟨A', ?_, ?_, ?_⟩
    · rw [eraseExpired, Heap.deref_some ht, ok_bind]
      dsimp only
      rw [check_pos (OrdSet.erase_snd.mpr hA), ok_bind, he]
    · have := OrdSet.size_erase hA
      rw [List.length_cons]; omega
    · intro p q
      rw [hm, hsub, List.map_cons, List.mem_cons, not_or, and_assoc]

def collectSlots (m : Slots) (l : List Addr) : Slots :=
  fun p => if p ∈ l then (m p).map fun c => { c with place := .batch } else m p

theorem collectSlots_queued {l : List Addr} {p : Addr} {t : Timer} :
    collectSlots m l p = some ⟨.queued, t⟩ ↔ p ∉ l ∧ m p = some ⟨.queued, t⟩ := by
  unfold collectSlots
  split
  · rename_i h
    simp only [Option.map_eq_some_iff, h, not_true, false_and, iff_false]
    intro e
    obtain ⟨c, -, hc⟩ := e
    cases hc
  · rename_i h
    simp [h]

include I in
theorem mem_below_sentry (ha : ∀ p c, m p = some c → p < uintptrMax) (now : Int) (e : Entry) :
    e ∈ s.timers.below ⟨now, uintptrMax⟩ ↔ e ∈ s.timers ∧ e.when_ ≤ now := by
  rw [OrdSet.mem_below, Entry.lt_iff]
  apply and_congr_right
  intro he
  obtain ⟨t, ht, -⟩ := (I.timers e.when_ e.timer).mp he
  constructor
  · intro h
    rcases h with h | h
    · exact le_of_lt h
    · exact le_of_eq h.1
  · intro h
    -- the sentry has the largest address, and no timer lives there
    rcases lt_or_eq_of_le h with h | h
    · exact .inl h
    · exact .inr ⟨h, ha _ _ ht⟩

include I in
theorem mem_eraseBelow_sentry (ha : ∀ p c, m p = some c → p < uintptrMax) (now : Int) (e : Entry) :
    e ∈ s.timers.eraseBelow ⟨now, uintptrMax⟩ ↔ e ∈ s.timers ∧ now < e.when_ := by
  have hbelow := mem_below_sentry I ha now e
  rw [OrdSet.mem_below, and_congr_right_iff] at hbelow
  rw [OrdSet.mem_eraseBelow]
  apply and_congr_right
  intro he
  rw [← not_lt, hbelow he, not_le]

include I hh in
theorem getExpired_eq (now : Int) (ha : ∀ p c, m p = some c → p < uintptrMax) :
    ∃ A' l, getExpired s now = .ok ({ s with timers := s.timers.eraseBelow ⟨now, uintptrMax⟩, activeTimers := A' }, l) ∧
      l = s.timers.below ⟨now, uintptrMax⟩ ∧
      (∀ e, e ∈ l ↔ e ∈ s.timers ∧ e.when_ ≤ now) ∧ (l.map Entry.timer).Nodup ∧
      (∀ e ∈ s.timers.eraseBelow ⟨now, uintptrMax⟩, now < e.when_) ∧
      Indexed (s.timers.eraseBelow ⟨now, uintptrMax⟩) A' (collectSlots m (l.map Entry.timer)) := by
  have hbelow := mem_below_sentry I ha now
  have hrest : ∀ e ∈ s.timers.eraseBelow ⟨now, uintptrMax⟩, now < e.when_ := by
    intro e he
    exact ((mem_eraseBelow_sentry I ha now e).mp he).2
  have hnd : ((s.timers.below ⟨now, uintptrMax⟩).map Entry.timer).Nodup :=
    I.timer_nodup (fun e he => ((hbelow e).mp he).1) ((OrdSet.below_sorted _ _).imp fun h => ne_of_lt h)
  have hlive : ∀ e ∈ s.timers.below ⟨now, uintptrMax⟩,
      ∃ t, s.heap e.timer = some t ∧ ⟨e.timer, t.sequence⟩ ∈ s.activeTimers := by
    intro e he
    obtain ⟨t, ht, -⟩ := (I.timers e.when_ e.timer).mp ((hbelow e).mp he).1
    exact ⟨t, by rw [hh, ht]; rfl, I.mem_active ht⟩
  obtain ⟨A', he, hsz, hA'⟩ := eraseExpired_eq hlive (fun _ _ _ => I.active_unique) hnd
  -- the two sets lose equally many entries, as the last assertion says
  have hsizes : (s.timers.eraseBelow ⟨now, uintptrMax⟩).size = A'.size := by
    have h₁ := OrdSet.size_split s.timers ⟨now, uintptrMax⟩
    have h₂ := I.sizes
    omega
  have hcheck : (s.timers.eraseBelow ⟨now, uintptrMax⟩).begin?.all (fun e => decide (now < e.when_)) = true := by
    cases hb : (s.timers.eraseBelow ⟨now, uintptrMax⟩).begin? with
    | none => rfl
    | some e => simpa using hrest e (OrdSet.begin?_mem hb)
  refine ⟨A', _, ?_, rfl, hbelow, hnd, hrest, hsizes, ?_, ?_⟩
  · unfold getExpired
    rw [check_pos I.sizes, ok_bind]
    dsimp only
    rw [check_pos hcheck, ok_bind, he, ok_bind, check_pos hsizes]
    rfl
  · intro w p
    simp only [collectSlots_queued, and_assoc, exists_and_left, ← I.timers]
    have hsplit : ⟨w, p⟩ ∈ s.timers.eraseBelow ⟨now, uintptrMax⟩ ↔
        ⟨w, p⟩ ∈ s.timers ∧ ⟨w, p⟩ ∉ s.timers.below ⟨now, uintptrMax⟩ := by
      rw [OrdSet.mem_eraseBelow, OrdSet.mem_below, not_and, not_lt]
      exact ⟨fun h => ⟨h.1, fun _ => h.2⟩, fun h => ⟨h.1, h.2 h.1⟩⟩
    rw [hsplit, and_comm]
    apply and_congr_left
    intro hT
    apply not_congr
    constructor
    · intro h
      exact List.mem_map_of_mem h
    · intro h
      obtain ⟨e, he, hp⟩ := List.mem_map.mp h
      rw [← I.timers_unique ((hbelow e).mp he).1 hT hp]
      exact he
  · intro p q
    rw [hA', I.active, and_comm]
    simp only [collectSlots_queued, and_assoc, exists_and_left]

end

end MyLearning.TimerQueue
