import MyLearning.MyMuduo.TimerIndex

/-!
# What one step of the timer queue does

`Good s m` ties a state to its slots. `Effect s m a t m'` lists, action by action,
the state and the slots a step leads to, with every function of the source
evaluated. `step_effect` is the inversion of `step`: from a good state a step
either has an effect or stops at a signed overflow, and no assertion fails.
`Effect.good` says that effects keep a state good; properties of runs are
proved by cases on the effect and never look into the functions again.
-/

namespace MyLearning.TimerQueue

structure Good (s : State) (m : Slots) : Prop where
  heap : ∀ p, s.heap p = (m p).map Slot.timer
  ledger : Ledger m s.numCreate s.created s.passed s.deleted
  index : Indexed s.timers s.activeTimers m
  pending : ∀ p, p ∈ s.pending ↔ ∃ t, m p = some ⟨.pending, t⟩
  pending_nodup : s.pending.Nodup
  batch : ∀ p, p ∈ s.pc.batch.map Entry.timer ↔ ∃ t, m p = some ⟨.batch, t⟩
  batch_nodup : (s.pc.batch.map Entry.timer).Nodup
  calling : s.callingExpiredTimer = s.pc.isCalling

def armed (when_ clock : Int) : TimerFd := ⟨some ⟨max when_ (clock + 100), clock⟩, 0⟩

def queued (s : State) (p : Addr) (t : Timer) : State :=
  { s with
    timers := (s.timers.insert ⟨t.expiration, p⟩).1
    activeTimers := (s.activeTimers.insert ⟨p, t.sequence⟩).1 }

inductive Effect : State → Slots → Act → State → Slots → Prop
  | newTimer {s m p w i} : m p = none → p < uintptrMax →
      Effect s m (.newTimer p w i) (newTimer s p w i)
        (Function.update m p (some ⟨.pending, Timer.create w i s.numCreate⟩))
  | addTimerInLoop {s m p t} : s.pc.inUser = true → m p = some ⟨.pending, t⟩ →
      Effect s m (.addTimerInLoop p)
        { queued (hand s p) p t with
          timerfd := if isEarliest s.timers t then armed t.expiration s.clock else s.timerfd }
        (Function.update m p (some ⟨.queued, t⟩))
  | addTimer {s m p w i s₁ m₁ s₂ m₂} : s.pc.inUser = true → Effect s m (.newTimer p w i) s₁ m₁ →
      Effect s₁ m₁ (.addTimerInLoop p) s₂ m₂ → Effect s m (.addTimer p w i) s₂ m₂
  | cancelQueued {s m id t} : s.pc.inUser = true → m id.timer = some ⟨.queued, t⟩ → t.sequence = id.sequence →
      Effect s m (.cancelInLoop id) (cancelled s id.timer t) (Function.update m id.timer none)
  | cancelOther {s m id} : s.pc.inUser = true →
      (∀ t, m id.timer = some ⟨.queued, t⟩ → t.sequence ≠ id.sequence) →
      Effect s m (.cancelInLoop id)
        (if s.callingExpiredTimer then
          { s with cancelingTimers := (s.cancelingTimers.insert ⟨id.timer, id.sequence⟩).1 } else s) m
  | handleRead {s m} : s.pc = .idle → Effect s m .handleRead { s with pc := .entered s.clock } m
  | collect {s m now A l} : s.pc = .entered now → l = s.timers.below ⟨now, uintptrMax⟩ →
      (∀ e, e ∈ l ↔ e ∈ s.timers ∧ e.when_ ≤ now) → (l.map Entry.timer).Nodup →
      (∀ e ∈ s.timers.eraseBelow ⟨now, uintptrMax⟩, now < e.when_) →
      Indexed (s.timers.eraseBelow ⟨now, uintptrMax⟩) A (collectSlots m (l.map Entry.timer)) →
      Effect s m .collect
        { s with
          timerfd := s.timerfd.read.1, timers := s.timers.eraseBelow ⟨now, uintptrMax⟩, activeTimers := A
          callingExpiredTimer := true, cancelingTimers := .empty, pc := .calling now [] l }
        (collectSlots m (l.map Entry.timer))
  | runTimer {s m now ran it todo} : s.pc = .calling now ran (it :: todo) →
      Effect s m .runTimer { s with pc := .calling now (ran ++ [it]) todo } m
  | endCalls {s m now ran} : s.pc = .calling now ran [] →
      Effect s m .endCalls { s with callingExpiredTimer := false, pc := .resetting now ran } m
  | resetDelete {s m now it todo t} : s.pc = .resetting now (it :: todo) → m it.timer = some ⟨.batch, t⟩ →
      (t.repeat_ = true → ⟨it.timer, t.sequence⟩ ∈ s.cancelingTimers) →
      Effect s m .resetTimer
        { s with
          pc := .resetting now todo, heap := Function.update s.heap it.timer none
          deleted := s.deleted ++ [t.sequence] }
        (Function.update m it.timer none)
  | resetInsert {s m now it todo t u} : s.pc = .resetting now (it :: todo) → m it.timer = some ⟨.batch, t⟩ →
      t.repeat_ = true → ⟨it.timer, t.sequence⟩ ∉ s.cancelingTimers → t.restart now = .ok u →
      Effect s m .resetTimer
        (queued { s with pc := .resetting now todo, heap := s.heap.write it.timer u } it.timer u)
        (Function.update m it.timer (some ⟨.queued, u⟩))
  | rearmValid {s m now e} : s.pc = .resetting now [] → s.timers.begin? = some e → 0 < e.when_ →
      Effect s m .rearm { s with pc := .idle, timerfd := armed e.when_ s.clock } m
  | rearmInvalid {s m now} : s.pc = .resetting now [] → (∀ e, s.timers.begin? = some e → e.when_ ≤ 0) →
      Effect s m .rearm { s with pc := .idle } m
  | tick {s m now} : s.clock ≤ now →
      Effect s m (.tick now) { s with clock := now, timerfd := s.timerfd.elapse now } m

theorem initial_good (clock : Int) : Good (initial clock) fun _ => none where
  heap _ := rfl
  ledger := ledger_empty
  index := indexed_empty
  pending p := by simp [initial]
  pending_nodup := List.nodup_nil
  batch p := by simp [initial, Pc.batch]
  batch_nodup := List.nodup_nil
  calling := rfl

/-! ## Effects keep a state good -/

section
variable {s : State} {m : Slots} (g : Good s m)
include g

theorem Good.pending_elsewhere {p : Addr} {x : Option Slot} (hp : ∀ t, m p ≠ some ⟨.pending, t⟩)
    (hx : ∀ t, x ≠ some ⟨.pending, t⟩) (q : Addr) :
    q ∈ s.pending ↔ ∃ t, Function.update m p x q = some ⟨.pending, t⟩ := by
  rw [g.pending]
  exact exists_congr fun t => (update_place hp hx q t).symm

theorem Good.batch_elsewhere {p : Addr} {x : Option Slot} (hp : ∀ t, m p ≠ some ⟨.batch, t⟩)
    (hx : ∀ t, x ≠ some ⟨.batch, t⟩) (q : Addr) :
    q ∈ s.pc.batch.map Entry.timer ↔ ∃ t, Function.update m p x q = some ⟨.batch, t⟩ := by
  rw [g.batch]
  exact exists_congr fun t => (update_place hp hx q t).symm

theorem Good.newTimer {p : Addr} {w : Int} {i : ℚ} (hp : m p = none) (ha : p < uintptrMax) :
    Good (newTimer s p w i) (Function.update m p (some ⟨.pending, Timer.create w i s.numCreate⟩)) where
  heap := heap_update g.heap p (some ⟨.pending, Timer.create w i s.numCreate⟩)
  ledger := g.ledger.alloc hp ha rfl
  index := g.index.congr (update_place (by simp [hp]) (by simp))
  pending q := by
    simp only [TimerQueue.newTimer, List.mem_append, List.mem_singleton, g.pending]
    by_cases hq : q = p
    · subst hq; simp
    · simp [hq]
  pending_nodup := by
    refine List.nodup_append.mpr ⟨g.pending_nodup, by simp, ?_⟩
    intro a ha b hb e
    obtain ⟨t, ht⟩ := (g.pending a).mp ha
    rw [e, List.mem_singleton.mp hb, hp] at ht
    cases ht
  batch := g.batch_elsewhere (by simp [hp]) (by simp)
  batch_nodup := g.batch_nodup
  calling := g.calling

theorem Good.addTimerInLoop {p : Addr} {t : Timer} {fd : TimerFd} (hp : m p = some ⟨.pending, t⟩) :
    Good { queued (hand s p) p t with timerfd := fd } (Function.update m p (some ⟨.queued, t⟩)) where
  heap q := by
    show s.heap q = _
    by_cases hq : q = p
    · subst hq; rw [g.heap, hp, Function.update_self]; rfl
    · rw [Function.update_of_ne hq, g.heap]
  ledger := by
    have ht : s.heap p = some t := by rw [g.heap, hp]; rfl
    have : s.passed ++ ((s.heap p).map Timer.sequence).toList = s.passed ++ [t.sequence] := by rw [ht]; rfl
    show Ledger _ s.numCreate s.created (s.passed ++ ((s.heap p).map Timer.sequence).toList) s.deleted
    rw [this]
    exact g.ledger.hand hp (by decide)
  index := (g.index.insert t fun u hu => by rw [hp] at hu; cases hu).2.2
  pending q := by
    show q ∈ s.pending.erase p ↔ _
    rw [g.pending_nodup.mem_erase_iff, g.pending]
    by_cases hq : q = p
    · subst hq; simp
    · simp [hq]
  pending_nodup := g.pending_nodup.erase p
  batch := g.batch_elsewhere (by simp [hp]) (by simp)
  batch_nodup := g.batch_nodup
  calling := g.calling

theorem Good.cancelQueued {p : Addr} {t : Timer} (hp : m p = some ⟨.queued, t⟩) :
    Good (cancelled s p t) (Function.update m p none) where
  heap := heap_update g.heap p none
  ledger := g.ledger.delete hp nofun
  index := (g.index.erase hp).2
  pending := g.pending_elsewhere (by simp [hp]) (by simp)
  pending_nodup := g.pending_nodup
  batch := g.batch_elsewhere (by simp [hp]) (by simp)
  batch_nodup := g.batch_nodup
  calling := g.calling

theorem Good.frame {t : State} (heap : t.heap = s.heap) (num : t.numCreate = s.numCreate)
    (created : t.created = s.created) (passed : t.passed = s.passed) (deleted : t.deleted = s.deleted)
    (timers : t.timers = s.timers) (active : t.activeTimers = s.activeTimers) (pending : t.pending = s.pending)
    (batch : t.pc.batch = s.pc.batch) (calling : t.callingExpiredTimer = t.pc.isCalling) : Good t m where
  heap := by rw [heap]; exact g.heap
  ledger := by rw [num, created, passed, deleted]; exact g.ledger
  index := by rw [timers, active]; exact g.index
  pending := by rw [pending]; exact g.pending
  pending_nodup := by rw [pending]; exact g.pending_nodup
  batch := by rw [batch]; exact g.batch
  batch_nodup := by rw [batch]; exact g.batch_nodup
  calling := calling

theorem Good.no_batch {now : Int} (hpc : s.pc = .entered now) (p : Addr) (t : Timer) :
    m p ≠ some ⟨.batch, t⟩ := fun h => by
  have := (g.batch p).mpr ⟨t, h⟩
  rw [hpc] at this
  simp [Pc.batch] at this

theorem Good.collect {now : Int} {A : OrdSet ActiveTimer} {l : List Entry} {fd : TimerFd} {T : OrdSet Entry}
    {C : OrdSet ActiveTimer} (hpc : s.pc = .entered now) (hl : ∀ e, e ∈ l ↔ e ∈ s.timers ∧ e.when_ ≤ now)
    (hn : (l.map Entry.timer).Nodup) (hI : Indexed T A (collectSlots m (l.map Entry.timer))) :
    Good { s with
      timerfd := fd, timers := T, activeTimers := A, callingExpiredTimer := true, cancelingTimers := C
      pc := .calling now [] l } (collectSlots m (l.map Entry.timer)) := by
  -- the timers collected were all queued
  have hq : ∀ p ∈ l.map Entry.timer, ∃ t, m p = some ⟨.queued, t⟩ := fun p hp => by
    obtain ⟨e, he, rfl⟩ := List.mem_map.mp hp
    obtain ⟨t, ht, -⟩ := (g.index.timers e.when_ e.timer).mp ((hl e).mp he).1
    exact ⟨t, ht⟩
  refine ⟨?_, ?_, hI, ?_, g.pending_nodup, ?_, hn, rfl⟩
  · intro p
    show s.heap p = _
    rw [g.heap]; unfold collectSlots
    split
    · cases m p <;> rfl
    · rfl
  · refine g.ledger.relabel ?_ ?_ (fun _ hk => hk) fun _ hk => .inl hk
    · intro p d hd
      unfold collectSlots at hd
      split at hd
      · rename_i hp
        obtain ⟨t, ht⟩ := hq p hp
        rw [ht] at hd; cases hd
        exact ⟨_, ht, rfl, iff_of_true ((g.ledger.handed p _ ht).mpr (by simp)) (by simp)⟩
      · exact ⟨d, hd, rfl, g.ledger.handed p d hd⟩
    · intro p c hc
      unfold collectSlots
      split
      · exact ⟨{ c with place := .batch }, by rw [hc]; rfl, rfl⟩
      · exact ⟨c, hc, rfl⟩
  · intro p
    show p ∈ s.pending ↔ _
    rw [g.pending]; unfold collectSlots
    split
    · rename_i hp
      obtain ⟨t, ht⟩ := hq p hp
      simp [ht]
    · rfl
  · intro p
    show p ∈ ([] ++ l).map Entry.timer ↔ _
    rw [List.nil_append]; unfold collectSlots
    split
    · rename_i hp
      obtain ⟨t, ht⟩ := hq p hp
      exact iff_of_true hp ⟨t, by rw [ht]; rfl⟩
    · rename_i hp
      exact iff_of_false hp fun ⟨t, ht⟩ => g.no_batch hpc p t ht

theorem Good.batch_tail {now : Int} {it : Entry} {todo : List Entry} (hpc : s.pc = .resetting now (it :: todo))
    {x : Option Slot} (hx : ∀ t, x ≠ some ⟨.batch, t⟩) :
    (∀ p, p ∈ todo.map Entry.timer ↔ ∃ t, Function.update m it.timer x p = some ⟨.batch, t⟩) ∧
      (todo.map Entry.timer).Nodup := by
  have hb := g.batch
  have hn := g.batch_nodup
  rw [hpc] at hb hn
  simp only [Pc.batch, List.map_cons, List.nodup_cons, List.mem_cons] at hb hn
  refine ⟨?_, hn.2⟩
  intro p
  by_cases hp : p = it.timer
  · subst hp
    rw [Function.update_self]
    exact iff_of_false hn.1 fun ⟨t, ht⟩ => hx t ht
  · rw [Function.update_of_ne hp, ← hb, or_iff_right hp]

theorem Good.resetDelete {now : Int} {it : Entry} {todo : List Entry} {t : Timer}
    (hpc : s.pc = .resetting now (it :: todo)) (hp : m it.timer = some ⟨.batch, t⟩) :
    Good { s with
      pc := .resetting now todo, heap := Function.update s.heap it.timer none
      deleted := s.deleted ++ [t.sequence] } (Function.update m it.timer none) where
  heap := heap_update g.heap it.timer none
  ledger := g.ledger.delete hp nofun
  index := g.index.congr (update_place (by simp [hp]) (by simp))
  pending := g.pending_elsewhere (by simp [hp]) (by simp)
  pending_nodup := g.pending_nodup
  batch := (g.batch_tail hpc (x := none) nofun).1
  batch_nodup := (g.batch_tail hpc (x := none) nofun).2
  calling := g.calling.trans (by rw [hpc]; rfl)

theorem Good.resetInsert {now : Int} {it : Entry} {todo : List Entry} {t u : Timer}
    (hpc : s.pc = .resetting now (it :: todo)) (hp : m it.timer = some ⟨.batch, t⟩)
    (hu : t.restart now = .ok u) :
    Good (queued { s with pc := .resetting now todo, heap := s.heap.write it.timer u } it.timer u)
      (Function.update m it.timer (some ⟨.queued, u⟩)) where
  heap := heap_update g.heap it.timer (some ⟨.queued, u⟩)
  ledger := g.ledger.move hp nofun nofun (Timer.restart_ok hu).1
  index := (g.index.insert u fun v hv => by rw [hp] at hv; cases hv).2.2
  pending := g.pending_elsewhere (by simp [hp]) (by simp)
  pending_nodup := g.pending_nodup
  batch := (g.batch_tail hpc (x := some ⟨.queued, u⟩) (fun _ h => by cases h)).1
  batch_nodup := (g.batch_tail hpc (x := none) nofun).2
  calling := g.calling.trans (by rw [hpc]; rfl)

end

theorem Effect.good {s t : State} {m m' : Slots} {a : Act} (h : Effect s m a t m') (g : Good s m) : Good t m' := by
  induction h with
  | newTimer hp ha => exact g.newTimer hp ha
  | addTimerInLoop _ hp => exact g.addTimerInLoop hp
  | addTimer _ _ _ ih₁ ih₂ => exact ih₂ (ih₁ g)
  | cancelQueued _ hp _ => exact g.cancelQueued hp
  | cancelOther _ _ =>
    split
    · exact g.frame rfl rfl rfl rfl rfl rfl rfl rfl rfl g.calling
    · exact g
  | handleRead hpc =>
    exact g.frame rfl rfl rfl rfl rfl rfl rfl rfl (by rw [hpc]; rfl) (g.calling.trans (by rw [hpc]; rfl))
  | collect hpc _ hl hn _ hI => exact g.collect hpc hl hn hI
  | runTimer hpc =>
    exact g.frame rfl rfl rfl rfl rfl rfl rfl rfl (by rw [hpc]; simp [Pc.batch]) (g.calling.trans (by rw [hpc]; rfl))
  | endCalls hpc => exact g.frame rfl rfl rfl rfl rfl rfl rfl rfl (by rw [hpc]; simp [Pc.batch]) rfl
  | resetDelete hpc hp _ => exact g.resetDelete hpc hp
  | resetInsert hpc hp _ _ hu => exact g.resetInsert hpc hp hu
  | rearmValid hpc _ _ | rearmInvalid hpc _ =>
    exact g.frame rfl rfl rfl rfl rfl rfl rfl rfl (by rw [hpc]; rfl) (g.calling.trans (by rw [hpc]; rfl))
  | tick _ => exact g.frame rfl rfl rfl rfl rfl rfl rfl rfl rfl g.calling

/-! ## What an effect leaves alone -/

theorem Effect.pending_stays {s t : State} {m m' : Slots} {a : Act} (h : Effect s m a t m') (g : Good s m)
    {p : Addr} {u : Timer} (ha : a ≠ .addTimerInLoop p) (hp : m p = some ⟨.pending, u⟩) :
    m' p = some ⟨.pending, u⟩ := by
  have other : ∀ {q : Addr} {x : Option Slot}, m q ≠ some ⟨.pending, u⟩ →
      Function.update m q x p = some ⟨.pending, u⟩ := by
    intro q x hq
    have hne : p ≠ q := fun e => hq (by rw [← e]; exact hp)
    rw [Function.update_of_ne hne]
    exact hp
  cases h with
  | newTimer hq _ => exact other (by rw [hq]; nofun)
  | addTimerInLoop => rw [Function.update_of_ne (fun e => ha (by rw [e]))]; exact hp
  | addTimer _ h₁ h₂ =>
    cases h₁ with
    | newTimer hq _ =>
      cases h₂ with
      | addTimerInLoop => rw [Function.update_idem]; exact other (by rw [hq]; nofun)
  | cancelQueued _ hq _ => exact other (by rw [hq]; nofun)
  | collect _ _ hl _ _ _ =>
    unfold collectSlots
    split
    · rename_i hin
      obtain ⟨e, he, rfl⟩ := List.mem_map.mp hin
      obtain ⟨t, ht, -⟩ := (g.index.timers e.when_ e.timer).mp ((hl e).mp he).1
      rw [hp] at ht
      cases ht
    · exact hp
  | resetDelete _ hq _ | resetInsert _ hq _ _ _ => exact other (by rw [hq]; nofun)
  | _ => exact hp

theorem Effect.passed_mono {s t : State} {m m' : Slots} {a : Act} (h : Effect s m a t m') {k : Nat}
    (hk : k ∈ s.passed) : k ∈ t.passed := by
  induction h with
  | addTimerInLoop => exact List.mem_append_left _ hk
  | addTimer _ _ _ ih₁ ih₂ => exact ih₂ (ih₁ hk)
  | cancelOther => split <;> exact hk
  | _ => exact hk

theorem Effect.created_mono {s t : State} {m m' : Slots} {a : Act} (h : Effect s m a t m') {id : TimerId}
    (hid : id ∈ s.created) : id ∈ t.created := by
  induction h with
  | newTimer => exact List.mem_append_left _ hid
  | addTimer _ _ _ ih₁ ih₂ => exact ih₂ (ih₁ hid)
  | cancelOther => split <;> exact hid
  | _ => exact hid

theorem Effect.pc_of_cancel {s t : State} {m m' : Slots} {id : TimerId}
    (h : Effect s m (.cancelInLoop id) t m') : t.pc = s.pc := by
  cases h with
  | cancelQueued => rfl
  | cancelOther => split <;> rfl

theorem Effect.of_addTimer {s t : State} {m m' : Slots} {p : Addr} {w : Int} {i : ℚ}
    (h : Effect s m (.addTimer p w i) t m') :
    t.pc = s.pc ∧ ⟨p, s.numCreate⟩ ∈ t.created ∧ s.numCreate ∈ t.passed := by
  cases h with
  | addTimer _ h₁ h₂ =>
    cases h₁ with
    | newTimer _ _ =>
      cases h₂ with
      | addTimerInLoop _ hp =>
        rw [Function.update_self] at hp
        cases hp
        refine ⟨rfl, List.mem_append_right _ (List.mem_singleton_self _), ?_⟩
        show s.numCreate ∈ s.passed ++ ((s.heap.write p (Timer.create w i s.numCreate) p).map Timer.sequence).toList
        rw [Heap.write_self]
        simp [Timer.create]

/-! ## Steps have effects -/

/-- A step from `s` succeeds with an effect or stops at a signed overflow. -/
def Explained (s : State) (m : Slots) (a : Act) (r : Except Fault State) : Prop :=
  (∃ t m', r = .ok t ∧ Effect s m a t m') ∨ r = .error .overflow

section
variable {s : State} {m : Slots} (g : Good s m)
include g

theorem explain_addTimerInLoop {p : Addr} (hu : s.pc.inUser = true) (hp : p ∈ s.pending) :
    Explained s m (.addTimerInLoop p) (addTimerInLoop (hand s p) p) := by
  obtain ⟨t, hm⟩ := (g.pending p).mp hp
  have ht : s.heap p = some t := by rw [g.heap, hm]; rfl
  have hins := insert_eq (s := hand s p) (m := m) g.index (p := p) (t := t) ht
    (fun u hu => by rw [hm] at hu; cases hu)
  have eff := Effect.addTimerInLoop hu hm
  unfold addTimerInLoop
  rw [hins, ok_bind]
  dsimp only
  cases he : isEarliest s.timers t with
  | false =>
    have he' : isEarliest (hand s p).timers t = false := he
    rw [he] at eff
    rw [he']
    exact .inl ⟨_, _, rfl, eff⟩
  | true =>
    have he' : isEarliest (hand s p).timers t = true := he
    have hd : Heap.deref (hand s p).heap p = .ok t := Heap.deref_some ht
    rw [he] at eff
    rw [he', if_pos rfl, hd, ok_bind]
    cases hr : resetTimerfd (hand s p).timerfd t.expiration (hand s p).clock with
    | error f => rw [resetTimerfd_error hr]; exact .inr rfl
    | ok fd => rw [resetTimerfd_ok hr]; exact .inl ⟨_, _, rfl, eff⟩

theorem explain_cancelInLoop (id : TimerId) (hu : s.pc.inUser = true) :
    Explained s m (.cancelInLoop id) (cancelInLoop s id) := by
  rcases cancelInLoop_eq g.index g.heap id with ⟨t, hm, hs, he⟩ | ⟨hm, he⟩
  · exact .inl ⟨_, _, he, .cancelQueued hu hm hs⟩
  · exact .inl ⟨_, _, he, .cancelOther hu hm⟩

theorem explain_collect {now : Int} (hpc : s.pc = .entered now) :
    Explained s m .collect (collect s now) := by
  obtain ⟨A, l, he, hl, hmem, hn, hrest, hI⟩ :=
    getExpired_eq (s := { s with timerfd := s.timerfd.read.1 }) g.index g.heap now g.ledger.addr
  refine .inl ⟨_, _, ?_, .collect hpc hl hmem hn hrest hI⟩
  unfold collect
  rw [he]; rfl

theorem explain_resetTimer {now : Int} {it : Entry} {todo : List Entry}
    (hpc : s.pc = .resetting now (it :: todo)) :
    Explained s m .resetTimer (resetTimer { s with pc := .resetting now todo } now it) := by
  obtain ⟨t, hm⟩ := (g.batch it.timer).mp (by rw [hpc]; simp [Pc.batch])
  have ht : s.heap it.timer = some t := by rw [g.heap, hm]; rfl
  unfold resetTimer
  rw [Heap.deref_some ht, ok_bind]
  split
  · rename_i hc
    cases hr : t.restart now with
    | error f => rw [Timer.restart_error hr]; exact .inr rfl
    | ok u =>
      have hI : Indexed s.timers s.activeTimers m := g.index
      have hins := insert_eq (s := { s with pc := .resetting now todo, heap := s.heap.write it.timer u }) hI
        (p := it.timer) (t := u) (by simp) (fun v hv => by rw [hm] at hv; cases hv)
      rw [ok_bind, hins, ok_bind]
      exact .inl ⟨_, _, rfl, .resetInsert hpc hm hc.1 hc.2 hr⟩
  · rename_i hc
    have hd : deleteTimer { s with pc := .resetting now todo } it.timer = .ok
        { s with
          pc := .resetting now todo, heap := Function.update s.heap it.timer none
          deleted := s.deleted ++ [t.sequence] } := deleteTimer_eq ht
    rw [hd]
    refine .inl ⟨_, _, rfl, .resetDelete hpc hm ?_⟩
    intro hr
    by_contra hn
    exact hc ⟨hr, hn⟩

theorem nextExpire_eq {e : Entry} (hb : s.timers.begin? = some e) : nextExpire s = .ok e.when_ := by
  obtain ⟨t, hm, hw⟩ := (g.index.timers e.when_ e.timer).mp (OrdSet.begin?_mem hb)
  have ht : s.heap e.timer = some t := by rw [g.heap, hm]; rfl
  unfold nextExpire
  rw [hb]
  dsimp only
  rw [Heap.deref_some ht, ok_bind, hw]; rfl

theorem explain_rearm {now : Int} (hpc : s.pc = .resetting now []) :
    Explained s m .rearm (rearm { s with pc := .idle }) := by
  have hn : nextExpire { s with pc := .idle } = nextExpire s := rfl
  unfold rearm
  rw [hn]
  cases hb : s.timers.begin? with
  | none =>
    have : nextExpire s = .ok Timestamp.invalid := by unfold nextExpire; rw [hb]; rfl
    rw [this]
    refine .inl ⟨_, _, rfl, .rearmInvalid hpc ?_⟩
    intro e he
    rw [hb] at he; cases he
  | some e =>
    rw [nextExpire_eq g hb, ok_bind]
    by_cases hv : 0 < e.when_
    · rw [if_pos (Timestamp.valid_iff.mpr hv)]
      dsimp only
      cases hr : resetTimerfd s.timerfd e.when_ s.clock with
      | error f => rw [resetTimerfd_error hr]; exact .inr rfl
      | ok fd => rw [resetTimerfd_ok hr]; exact .inl ⟨_, _, rfl, .rearmValid hpc hb hv⟩
    · rw [if_neg (fun h => hv (Timestamp.valid_iff.mp h))]
      refine .inl ⟨_, _, rfl, .rearmInvalid hpc ?_⟩
      intro e' he'
      rw [hb] at he'; cases he'
      exact not_lt.mp hv

theorem freeAddr_iff {p : Addr} (h : freeAddr s p = true) : m p = none ∧ p < uintptrMax := by
  simp only [freeAddr, decide_eq_true_eq] at h
  refine ⟨?_, h.2.2⟩
  have := h.1
  rw [g.heap] at this
  exact Option.map_eq_none_iff.mp this

theorem explain_addTimer {p : Addr} {w : Int} {i : ℚ} (hu : s.pc.inUser = true) (hf : freeAddr s p = true) :
    Explained s m (.addTimer p w i) (addTimerInLoop (hand (newTimer s p w i) p) p) := by
  obtain ⟨hp, ha⟩ := freeAddr_iff g hf
  have hp' : p ∈ (newTimer s p w i).pending := by simp [newTimer]
  rcases explain_addTimerInLoop (g.newTimer (w := w) (i := i) hp ha) hu hp' with ⟨t, m', hr, he⟩ | hr
  · exact .inl ⟨t, m', hr, .addTimer hu (.newTimer hp ha) he⟩
  · exact .inr hr

/-- **Inversion of `step`.** -/
theorem step_effect {a : Act} {r : Except Fault State} (h : step s a = some r) : Explained s m a r := by
  cases a with
  | newTimer p w i =>
    simp only [step] at h
    split at h
    · rename_i hf
      cases h
      obtain ⟨hp, ha⟩ := freeAddr_iff g hf
      exact .inl ⟨_, _, rfl, .newTimer hp ha⟩
    · cases h
  | addTimerInLoop p =>
    simp only [step] at h
    split at h
    · rename_i hc; cases h; exact explain_addTimerInLoop g hc.1 hc.2
    · cases h
  | addTimer p w i =>
    simp only [step] at h
    split at h
    · rename_i hc; cases h; exact explain_addTimer g hc.1 hc.2
    · cases h
  | cancelInLoop id =>
    simp only [step] at h
    split at h
    · rename_i hc; cases h; exact explain_cancelInLoop g id hc
    · cases h
  | handleRead =>
    simp only [step] at h
    split at h
    · rename_i hpc; cases h; exact .inl ⟨_, _, rfl, .handleRead hpc⟩
    · cases h
  | collect =>
    simp only [step] at h
    split at h
    · rename_i now hpc; cases h; exact explain_collect g hpc
    · cases h
  | runTimer =>
    simp only [step] at h
    split at h
    · rename_i now ran it todo hpc
      cases h
      obtain ⟨t, hm⟩ := (g.batch it.timer).mp (by rw [hpc]; simp [Pc.batch])
      have ht : s.heap it.timer = some t := by rw [g.heap, hm]; rfl
      rw [Heap.deref_some ht]
      exact .inl ⟨_, _, rfl, .runTimer hpc⟩
    · cases h
  | endCalls =>
    simp only [step] at h
    split at h
    · rename_i now ran hpc; cases h; exact .inl ⟨_, _, rfl, .endCalls hpc⟩
    · cases h
  | resetTimer =>
    simp only [step] at h
    split at h
    · rename_i now it todo hpc; cases h; exact explain_resetTimer g hpc
    · cases h
  | rearm =>
    simp only [step] at h
    split at h
    · rename_i now hpc; cases h; exact explain_rearm g hpc
    · cases h
  | tick now =>
    simp only [step] at h
    split at h
    · rename_i hc; cases h; exact .inl ⟨_, _, rfl, .tick hc⟩
    · cases h

theorem step_ok {a : Act} {t : State} (h : step s a = some (.ok t)) : ∃ m', Effect s m a t m' ∧ Good t m' := by
  rcases step_effect g h with ⟨t', m', hr, he⟩ | hr
  · cases hr; exact ⟨m', he, he.good g⟩
  · cases hr

end

theorem reachable_good {P : Int → Prop} {s : State} (h : (lts P).Reachable s) : ∃ m, Good s m := by
  refine Lts.Reachable.invariant (I := fun s => ∃ m, Good s m) ?_ ?_ h
  · intro s h
    obtain ⟨c, -, rfl⟩ := h
    exact ⟨_, initial_good c⟩
  · intro s a t h hs
    obtain ⟨m, g⟩ := h
    obtain ⟨m', -, g'⟩ := step_ok g hs
    exact ⟨m', g'⟩

end MyLearning.TimerQueue
