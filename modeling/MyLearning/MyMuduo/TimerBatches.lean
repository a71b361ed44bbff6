import MyLearning.MyMuduo.TimerStarts

/-!
# What one call of handleRead does

`handleRead` runs its batch whatever the callbacks do: it starts the timers that have expired when it reads the
clock, in the order of their expirations, and then puts back the repeating ones that have not been
cancelled meanwhile and deletes the others. `Serving` says how far it has got.
-/

namespace MyLearning.TimerQueue

/-- The timers of these entries are what they were in `s`, and in this place. -/
def Held (s : State) (es : List Entry) (m : Slots) (pl : Place) : Prop :=
  ∀ e ∈ es, ∃ u, s.heap e.timer = some u ∧ m e.timer = some ⟨pl, u⟩

def Ran (s : State) (now : Int) (es : List Entry) (l : List Start) : Prop :=
  l.map (fun x => (some x.timer, x.now)) = es.map fun e => (s.heap e.timer, now)

def idOf (e : Entry) (u : Timer) : TimerId := ⟨e.timer, u.sequence⟩

/-- The ids of the batch among `cancelingTimers` are those that have been cancelled. -/
def Remembers (s : State) (es : List Entry) (tr : List Act) (t : State) : Prop :=
  ∀ e ∈ es, ∀ u, s.heap e.timer = some u →
    (⟨e.timer, u.sequence⟩ ∈ t.cancelingTimers ↔ .cancelInLoop (idOf e u) ∈ tr)

/-- The timer `x` of `e` goes back to the queue. -/
def Returns (tr : List Act) (e : Entry) (x : Timer) : Prop := x.repeat_ = true ∧ .cancelInLoop (idOf e x) ∉ tr

structure Settled (s : State) (now : Int) (tr : List Act) (t : State) (m : Slots) (e : Entry) : Prop where
  again : ∀ x, s.heap e.timer = some x → Returns tr e x → ∃ v, x.restart now = .ok v ∧ m e.timer = some ⟨.queued, v⟩
  gone : ∀ x, s.heap e.timer = some x → ¬ Returns tr e x → x.sequence ∈ t.deleted

/-- How far the call has got that has read the time `now` in the state `s`; `es` is its batch, `tr` the steps
since and `l` the starts among them. -/
inductive Serving (s : State) (now : Int) (es : List Entry) (tr : List Act) (t : State) (m : Slots) : List Start → Prop
  | entered : t.pc = .entered now → t.timers = s.timers → Held s es m .queued → (∀ id, .cancelInLoop id ∉ tr) →
      Serving s now es tr t m []
  | calling {ran todo l} : t.pc = .calling now ran todo → ran ++ todo = es → Ran s now ran l → Held s es m .batch →
      Remembers s es tr t → Serving s now es tr t m l
  | resetting {done todo l} : t.pc = .resetting now todo → done ++ todo = es → Ran s now es l → Held s todo m .batch →
      Remembers s es tr t → (∀ e ∈ done, Settled s now tr t m e) → Serving s now es tr t m l

variable {s t u : State} {m m' : Slots} {now : Int} {es : List Entry} {tr : List Act} {a : Act} {l : List Start}

/-! ## Steps that leave the batch alone -/

/-- What the allocation and the adding of timers and the passing of time leave. -/
structure Leaves (t : State) (m : Slots) (u : State) (m' : Slots) : Prop where
  pc : u.pc = t.pc
  timers : ∀ now, t.pc = .entered now → u.timers = t.timers
  canceling : u.cancelingTimers = t.cancelingTimers
  deleted : u.deleted = t.deleted
  slots : ∀ p c, m p = some c → c.place ≠ .pending → m' p = some c

def Act.isOther : Act → Bool
  | newTimer .. | addTimerInLoop _ | addTimer .. | tick _ => true
  | _ => false

theorem Effect.leaves (h : Effect t m a u m') (ha : a.isOther = true) : Leaves t m u m' := by
  induction h with
  | newTimer hp _ =>
    exact ⟨rfl, fun _ _ => rfl, rfl, rfl, fun q c hc _ => update_free hp _ hc⟩
  | @addTimerInLoop t m p x hu hp =>
    refine ⟨rfl, ?_, rfl, rfl, ?_⟩
    · intro now hpc
      rw [hpc] at hu
      cases hu
    · intro q c hc hne
      have hq : q ≠ p := by
        rintro rfl
        rw [hp] at hc
        cases hc
        exact hne rfl
      rw [Function.update_of_ne hq]
      exact hc
  | addTimer _ _ _ ih₁ ih₂ =>
    have h₁ := ih₁ rfl
    have h₂ := ih₂ rfl
    refine ⟨h₂.pc.trans h₁.pc, ?_, h₂.canceling.trans h₁.canceling, h₂.deleted.trans h₁.deleted, ?_⟩
    · intro now hpc
      exact (h₂.timers now (h₁.pc.trans hpc)).trans (h₁.timers now hpc)
    · intro p c hc hne
      exact h₂.slots p c (h₁.slots p c hc hne) hne
  | tick _ => exact ⟨rfl, fun _ _ => rfl, rfl, rfl, fun _ _ hc _ => hc⟩
  | _ => cases ha

theorem Held.leaves {pl : Place} (h : Held s es m pl) (k : Leaves t m u m') (hpl : pl ≠ .pending) :
    Held s es m' pl := by
  intro e he
  obtain ⟨x, hx, hm⟩ := h e he
  exact ⟨x, hx, k.slots _ _ hm hpl⟩

theorem mem_snoc_cancel {id : TimerId} (ha : ∀ id, a ≠ .cancelInLoop id) :
    .cancelInLoop id ∈ tr ++ [a] ↔ .cancelInLoop id ∈ tr := by
  rw [List.mem_append, List.mem_singleton]
  exact or_iff_left fun he => ha id he.symm

theorem Remembers.snoc (h : Remembers s es tr t) (hc : u.cancelingTimers = t.cancelingTimers)
    (ha : ∀ id, a ≠ .cancelInLoop id) : Remembers s es (tr ++ [a]) u := by
  intro e he x hx
  rw [hc, mem_snoc_cancel ha]
  exact h e he x hx

theorem returns_snoc {e : Entry} {x : Timer} (ha : ∀ id, a ≠ .cancelInLoop id) :
    Returns (tr ++ [a]) e x ↔ Returns tr e x := by
  unfold Returns
  rw [mem_snoc_cancel ha]

theorem Settled.snoc {e : Entry} (h : Settled s now tr t m e) (ha : ∀ id, a ≠ .cancelInLoop id)
    (hd : ∀ k ∈ t.deleted, k ∈ u.deleted) (hm : ∀ v, m e.timer = some ⟨.queued, v⟩ → m' e.timer = some ⟨.queued, v⟩) :
    Settled s now (tr ++ [a]) u m' e where
  again x hx hr := by
    obtain ⟨v, hv, hmv⟩ := h.again x hx ((returns_snoc ha).mp hr)
    exact ⟨v, hv, hm v hmv⟩
  gone x hx hr := hd _ (h.gone x hx fun hr' => hr ((returns_snoc ha).mpr hr'))

theorem Serving.leaves (S : Serving s now es tr t m l) (k : Leaves t m u m') (ha : ∀ id, a ≠ .cancelInLoop id) :
    Serving s now es (tr ++ [a]) u m' l := by
  cases S with
  | entered hpc ht hh hc =>
    refine .entered (k.pc.trans hpc) ((k.timers now hpc).trans ht) (hh.leaves k (by simp)) ?_
    intro id
    rw [mem_snoc_cancel ha]
    exact hc id
  | calling hpc he hr hh hc =>
    exact .calling (k.pc.trans hpc) he hr (hh.leaves k (by simp)) (hc.snoc k.canceling ha)
  | resetting hpc he hr hh hc hd =>
    refine .resetting (k.pc.trans hpc) he hr (hh.leaves k (by simp)) (hc.snoc k.canceling ha) ?_
    intro e hmem
    exact (hd e hmem).snoc ha (fun _ hk => k.deleted ▸ hk) fun v hv => k.slots _ _ hv (by simp)

/-! ## Cancels of callbacks -/

theorem Serving.cancelQueued (S : Serving s now es tr t m l) (hu : t.pc.inUser = true) {id : TimerId} {x : Timer}
    (hm : m id.timer = some ⟨.queued, x⟩) :
    Serving s now es (tr ++ [.cancelInLoop id]) (cancelled t id.timer x) (Function.update m id.timer none) l := by
  cases S with
  | entered hpc | resetting hpc =>
    rw [hpc] at hu
    cases hu
  | calling hpc he hr hh hc =>
    have other : ∀ e ∈ es, e.timer ≠ id.timer := by
      intro e hmem hid
      obtain ⟨y, -, hy⟩ := hh e hmem
      rw [hid, hm] at hy
      cases hy
    refine .calling hpc he hr ?_ ?_
    · intro e hmem
      rw [Function.update_of_ne (other e hmem)]
      exact hh e hmem
    · intro e hmem y hy
      rw [List.mem_append, List.mem_singleton, or_iff_left]
      · exact hc e hmem y hy
      · intro hid
        exact other e hmem (congrArg TimerId.timer (Act.cancelInLoop.inj hid))

theorem Serving.cancelOther (S : Serving s now es tr t m l) (g : Good t m) (hu : t.pc.inUser = true) (id : TimerId) :
    Serving s now es (tr ++ [.cancelInLoop id]) (if t.callingExpiredTimer then
      { t with cancelingTimers := (t.cancelingTimers.insert ⟨id.timer, id.sequence⟩).1 } else t) m l := by
  cases S with
  | entered hpc | resetting hpc =>
    rw [hpc] at hu
    cases hu
  | calling hpc he hr hh hc =>
    have hcall : t.pc.isCalling = true := by rw [hpc]; rfl
    rw [g.calling, if_pos hcall]
    refine .calling hpc he hr hh ?_
    intro e hmem y hy
    have hsame : (⟨e.timer, y.sequence⟩ : ActiveTimer) = ⟨id.timer, id.sequence⟩ ↔
        Act.cancelInLoop (idOf e y) = .cancelInLoop id := by
      cases id
      simp [idOf]
    rw [OrdSet.mem_insert, List.mem_append, List.mem_singleton, hsame, hc e hmem y hy]
    exact or_comm

/-! ## The steps of handleRead -/

theorem Serving.collect (S : Serving s now es tr t m l) {A : OrdSet ActiveTimer} {n : Int} (hpc : t.pc = .entered n)
    (hes : es = s.timers.below ⟨now, uintptrMax⟩) :
    Serving s now es (tr ++ [.collect])
      { t with
        timerfd := t.timerfd.read.1, timers := t.timers.eraseBelow ⟨n, uintptrMax⟩, activeTimers := A
        callingExpiredTimer := true, cancelingTimers := .empty, pc := .calling n [] (t.timers.below ⟨n, uintptrMax⟩) }
      (collectSlots m ((t.timers.below ⟨n, uintptrMax⟩).map Entry.timer)) l := by
  cases S with
  | calling hpc' | resetting hpc' =>
    rw [hpc] at hpc'
    cases hpc'
  | entered hpc' ht hh hc =>
    rw [hpc] at hpc'
    cases hpc'
    rw [ht, ← hes]
    refine .calling rfl rfl rfl ?_ ?_
    · intro e he
      obtain ⟨x, hx, hm⟩ := hh e he
      refine ⟨x, hx, ?_⟩
      unfold collectSlots
      rw [if_pos (List.mem_map_of_mem he), hm]
      rfl
    · intro e _ x _
      refine iff_of_false (OrdSet.not_mem_empty _) ?_
      rw [mem_snoc_cancel (by simp)]
      exact hc _

theorem Serving.runTimer (S : Serving s now es tr t m l) (g : Good t m) {n : Int} {ran todo : List Entry} {it : Entry}
    (hpc : t.pc = .calling n ran (it :: todo)) :
    Serving s now es (tr ++ [.runTimer]) { t with pc := .calling n (ran ++ [it]) todo } m (l ++ starts t .runTimer) := by
  cases S with
  | entered hpc' | resetting hpc' =>
    rw [hpc] at hpc'
    cases hpc'
  | calling hpc' he hr hh hc =>
    rw [hpc] at hpc'
    cases hpc'
    obtain ⟨x, hx, hm⟩ := hh it (he ▸ by simp)
    have hlog : starts t .runTimer = [⟨x, now, t.clock⟩] := by
      simp only [starts, hpc, g.heap, hm]
      rfl
    refine .calling rfl (by rw [← he]; simp) ?_ hh (hc.snoc rfl (by simp))
    unfold Ran at hr ⊢
    rw [hlog, List.map_append, List.map_append, hr, List.map_singleton, List.map_singleton, hx]

theorem Serving.endCalls (S : Serving s now es tr t m l) {n : Int} {ran : List Entry} (hpc : t.pc = .calling n ran []) :
    Serving s now es (tr ++ [.endCalls]) { t with callingExpiredTimer := false, pc := .resetting n ran } m l := by
  cases S with
  | entered hpc' | resetting hpc' =>
    rw [hpc] at hpc'
    cases hpc'
  | calling hpc' he hr hh hc =>
    rw [hpc] at hpc'
    cases hpc'
    rw [List.append_nil] at he
    subst he
    exact .resetting rfl (List.nil_append _) hr hh (hc.snoc rfl (by simp)) (by simp)

theorem Serving.resetTimer (S : Serving s now es tr t m l) (g : Good t m) {n : Int} {it : Entry} {todo : List Entry}
    (hpc : t.pc = .resetting n (it :: todo)) {c : Option Slot} (upc : u.pc = .resetting n todo)
    (canceling : u.cancelingTimers = t.cancelingTimers) (deleted : ∀ k ∈ t.deleted, k ∈ u.deleted)
    (settled : ∀ x, s.heap it.timer = some x → m it.timer = some ⟨.batch, x⟩ → n = now →
      (⟨it.timer, x.sequence⟩ ∈ t.cancelingTimers ↔ .cancelInLoop (idOf it x) ∈ tr) →
      (Returns tr it x → ∃ v, x.restart now = .ok v ∧ c = some ⟨.queued, v⟩) ∧
        (¬ Returns tr it x → x.sequence ∈ u.deleted)) :
    Serving s now es (tr ++ [.resetTimer]) u (Function.update m it.timer c) l := by
  cases S with
  | entered hpc' | calling hpc' =>
    rw [hpc] at hpc'
    cases hpc'
  | @resetting done _ _ hpc' he hr hh hc hd =>
    rw [hpc] at hpc'
    cases hpc'
    obtain ⟨x, hx, hm⟩ := hh it List.mem_cons_self
    have hkey := hc it (he ▸ by simp) x hx
    obtain ⟨again, gone⟩ := settled x hx hm rfl hkey
    have hnodup := g.batch_nodup
    rw [hpc] at hnodup
    have hnot : it.timer ∉ todo.map Entry.timer := (List.nodup_cons.mp hnodup).1
    have hall : (done ++ [it]) ++ todo = es := by rw [← he]; simp
    refine .resetting upc hall hr ?_ (hc.snoc canceling (by simp)) ?_
    · intro e hmem
      have hne : e.timer ≠ it.timer := fun hid => hnot (hid ▸ List.mem_map_of_mem hmem)
      rw [Function.update_of_ne hne]
      exact hh e (List.mem_cons_of_mem _ hmem)
    · intro e hmem
      rcases List.mem_append.mp hmem with hmem | hmem
      · refine (hd e hmem).snoc (by simp) deleted ?_
        intro v hv
        have hne : e.timer ≠ it.timer := by
          intro hid
          rw [hid, hm] at hv
          cases hv
        rwa [Function.update_of_ne hne]
      · rw [List.mem_singleton.mp hmem]
        constructor
        · intro y hy hret
          rw [hx] at hy
          cases hy
          rw [Function.update_self]
          exact again ((returns_snoc (by simp)).mp hret)
        · intro y hy hret
          rw [hx] at hy
          cases hy
          exact gone fun hret' => hret ((returns_snoc (by simp)).mpr hret')

theorem Effect.serving (h : Effect t m a u m') (g : Good t m) (hes : es = s.timers.below ⟨now, uintptrMax⟩)
    (ha : a ≠ .rearm) (S : Serving s now es tr t m l) : Serving s now es (tr ++ [a]) u m' (l ++ starts t a) := by
  by_cases hrun : a = .runTimer
  · subst hrun
    cases h with
    | runTimer hpc => exact S.runTimer g hpc
  · rw [starts_nil hrun, List.append_nil]
    cases ho : a.isOther with
    | true =>
      refine S.leaves (h.leaves ho) ?_
      rintro id rfl
      cases ho
    | false =>
      cases h with
      | newTimer | addTimerInLoop | addTimer | tick => cases ho
      | runTimer => exact absurd rfl hrun
      | rearmValid | rearmInvalid => exact absurd rfl ha
      | cancelQueued hu hm _ => exact S.cancelQueued hu hm
      | cancelOther hu _ => exact S.cancelOther g hu _
      | handleRead hpc =>
        cases S with
        | entered hpc' | calling hpc' | resetting hpc' =>
          rw [hpc] at hpc'
          cases hpc'
      | collect hpc hl _ _ _ _ =>
        subst hl
        exact S.collect hpc hes
      | endCalls hpc => exact S.endCalls hpc
      | resetDelete hpc hm hno =>
        refine S.resetTimer g hpc rfl rfl (fun k hk => List.mem_append_left _ hk) ?_
        intro x _ hx _ hkey
        rw [hm] at hx
        cases hx
        refine ⟨?_, fun _ => List.mem_append_right _ (List.mem_singleton_self _)⟩
        intro hret
        exact absurd (hkey.mp (hno hret.1)) hret.2
      | resetInsert hpc hm hrep hno hu =>
        refine S.resetTimer g hpc rfl rfl (fun k hk => hk) ?_
        intro x _ hx hn hkey
        rw [hm] at hx
        cases hx
        subst hn
        refine ⟨fun _ => ⟨_, hu, rfl⟩, ?_⟩
        intro hret
        exact absurd ⟨hrep, fun hc => hno (hkey.mpr hc)⟩ hret

theorem Serving.rearm (S : Serving s now es tr t m l) (h : Effect t m .rearm u m') :
    Ran s now es l ∧ ∀ e ∈ es, Settled s now tr u m' e := by
  have ends : ∀ n, t.pc = .resetting n [] → Ran s now es l ∧ ∀ e ∈ es, Settled s now tr t m e := by
    intro n hpc
    cases S with
    | entered hpc' | calling hpc' =>
      rw [hpc] at hpc'
      cases hpc'
    | resetting hpc' he hr _ _ hd =>
      rw [hpc] at hpc'
      cases hpc'
      rw [List.append_nil] at he
      exact ⟨hr, fun e hmem => hd e (he ▸ hmem)⟩
  cases h with
  | rearmValid hpc | rearmInvalid hpc =>
    obtain ⟨hr, hd⟩ := ends _ hpc
    exact ⟨hr, fun e hmem => ⟨(hd e hmem).again, (hd e hmem).gone⟩⟩

/-! ## The whole call -/

theorem serving_of_run {l₀ : List Start} (hr : (anyClock.observe starts).Run (t, l₀) tr (u, l))
    (hes : es = s.timers.below ⟨now, uintptrMax⟩) (hno : .rearm ∉ tr) : ∀ {tr₀ m}, Good t m → Serving s now es tr₀ t m l₀ →
    ∃ m', Good u m' ∧ Serving s now es (tr₀ ++ tr) u m' l := by
  generalize hx : (t, l₀) = x at hr
  generalize hy : (u, l) = y at hr
  induction hr generalizing t l₀ with
  | nil =>
    intro tr₀ m g S
    cases hx
    cases hy
    rw [List.append_nil]
    exact ⟨m, g, S⟩
  | @cons x a z tr y hs _ ih =>
    intro tr₀ m g S
    cases hx
    obtain ⟨hs, hl⟩ := hs
    obtain ⟨m', he, g'⟩ := step_ok g hs
    rw [List.mem_cons, not_or] at hno
    have S' := he.serving g hes (Ne.symm hno.1) S
    obtain ⟨m'', g'', S''⟩ := @ih z.1 z.2 hno.2 rfl hy _ _ g' (hl ▸ S')
    refine ⟨m'', g'', ?_⟩
    rwa [List.append_assoc, List.singleton_append] at S''

/-- **One call of handleRead**, from where it has read the time `now` to its end, whatever the callbacks and other
threads do meanwhile: the callbacks that start are those of the timers that had expired at `now`, each once and
in the order of expiration; and then each of these timers is queued with the expiration that `restart(now)` gives
it, where it repeats and has not been cancelled since, and is deleted otherwise. -/
theorem handleRead_serves (h : anyClock.Reachable s) (hpc : s.pc = .entered now)
    (hr : (anyClock.observe starts).Run (s, []) (tr ++ [.rearm]) (t, l)) (hno : .rearm ∉ tr) :
    ∃ es : List Entry, (∀ e, e ∈ es ↔ e ∈ s.timers ∧ e.when_ ≤ now) ∧ (es.map Entry.timer).Nodup ∧
      es.Pairwise (fun e e' => e.when_ ≤ e'.when_) ∧
      l.map (fun x => (some x.timer, x.now)) = es.map (fun e => (s.heap e.timer, now)) ∧
      ∀ e ∈ es, ∃ x, s.heap e.timer = some x ∧
        (x.repeat_ = true → .cancelInLoop ⟨e.timer, x.sequence⟩ ∉ tr →
          ∃ y, x.restart now = .ok y ∧ t.heap e.timer = some y ∧ ⟨y.expiration, e.timer⟩ ∈ t.timers) ∧
        (x.repeat_ = false ∨ .cancelInLoop ⟨e.timer, x.sequence⟩ ∈ tr → x.sequence ∈ t.deleted) := by
  obtain ⟨m, g⟩ := reachable_good h
  have haddr : ∀ p c, m p = some c → p < uintptrMax := g.ledger.addr
  have hmem := mem_below_sentry g.index haddr now
  have held : Held s (s.timers.below ⟨now, uintptrMax⟩) m .queued := by
    intro e he
    obtain ⟨x, hx, -⟩ := (g.index.timers e.when_ e.timer).mp ((hmem e).mp he).1
    exact ⟨x, by rw [g.heap, hx]; rfl, hx⟩
  obtain ⟨⟨u, l'⟩, hrun, hlast, hl⟩ := hr.last
  -- the run is followed from the entry of the call, whose batch is fixed there
  have S₀ : Serving s now (s.timers.below ⟨now, uintptrMax⟩) [] s m [] := .entered hpc rfl held (by simp)
  obtain ⟨m', g', S⟩ := serving_of_run hrun rfl hno g S₀
  obtain ⟨m'', he, g''⟩ := step_ok g' hlast
  obtain ⟨hran, hsettled⟩ := S.rearm he
  have hlog : l = l' := hl.trans (List.append_nil _)
  have hnd : (s.timers.below ⟨now, uintptrMax⟩).Nodup := (OrdSet.below_sorted _ _).imp fun hlt => ne_of_lt hlt
  refine ⟨_, hmem, g.index.timer_nodup (fun e he => ((hmem e).mp he).1) hnd, ?_, hlog ▸ hran, ?_⟩
  · exact (OrdSet.below_sorted _ _).imp fun hlt => Entry.when_le (le_of_lt hlt)
  · intro e hin
    obtain ⟨x, hx, -⟩ := held e hin
    refine ⟨x, hx, ?_, ?_⟩
    · intro hrep hc
      obtain ⟨y, hy, hq⟩ := (hsettled e hin).again x hx ⟨hrep, hc⟩
      exact ⟨y, hy, by rw [g''.heap, hq]; rfl, g''.index.mem_timers hq⟩
    · intro hor
      refine (hsettled e hin).gone x hx ?_
      intro ⟨hrep, hc⟩
      rcases hor with hor | hor
      · rw [hrep] at hor
        cases hor
      · exact hc hor

/-- Of three timers that expire together the first repeats, the second repeats until the first cancels it,
and the third runs once. -/
def batchTrace : List Act :=
  [.collect, .runTimer, .cancelInLoop ⟨2, 1⟩, .runTimer, .runTimer, .endCalls, .resetTimer, .resetTimer, .resetTimer]

theorem handleRead_serves_batch : ∃ (s t : State) (x y : Timer), s.pc = .entered 10 ∧ t.deleted = [1, 2] ∧ s.heap 1 = some x ∧
    x.restart 10 = .ok y ∧ t.heap 1 = some y ∧ ⟨y.expiration, 1⟩ ∈ t.timers := by
  have hrun : ((Lts.exec next (initial 1) [.addTimer 1 5 2, .addTimer 2 5 2, .addTimer 3 9 0, .tick 10, .handleRead]).bind
      fun s => (Lts.exec nextLogged (s, []) (batchTrace ++ [.rearm])).map fun t =>
        (s.pc, t.1.deleted, (s.heap 1).map Timer.repeat_, decide (⟨5, 1⟩ ∈ s.timers))) =
      some (.entered 10, [1, 2], some true, true) := by decide +kernel
  obtain ⟨s, hs, h⟩ := Option.bind_eq_some_iff.mp hrun
  obtain ⟨⟨t, l⟩, ht, h⟩ := Option.map_eq_some_iff.mp h
  simp only [Prod.mk.injEq, Option.map_eq_some_iff, decide_eq_true_eq] at h
  obtain ⟨hpc, hdel, ⟨x, hx, hrep⟩, hin⟩ := h
  obtain ⟨es, hmem, -, -, -, hall⟩ := handleRead_serves (reachable_of_exec trivial hs) hpc
    (Lts.run_of_exec (fun _ _ _ => nextLogged_step) ht) (by decide)
  obtain ⟨z, hz, hagain, -⟩ := hall ⟨5, 1⟩ ((hmem _).mpr ⟨hin, by decide⟩)
  rw [hx] at hz
  cases hz
  obtain ⟨y, hy, hty, hq⟩ := hagain hrep (by simp [batchTrace])
  exact ⟨s, t, x, y, hpc, hdel, hx, hy, hty, hq⟩

end MyLearning.TimerQueue
