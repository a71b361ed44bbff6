import MyLearning.MyMuduo.EventLoopThreadEffect

/-!
# Quitting a loop that may be gone

The address that `startLoop()` returns is that of a loop that was there when it was published.
But nobody takes it out of `loop_`, so once `loop()` has returned the destructor finds the
address of a destroyed loop. Its `quit()` uses the loop twice, for the store of the flag and
to ask for its thread, and both come in time exactly while `loop()` does not return before
the second; the join behind it fails in any case, as the thread does not know that it
was started.
-/

namespace MyLearning.EventLoopThread

variable {T F C : Type} {threadId : T}

/-! ## Quitting in time -/

def Dtor.past (d : Dtor) : Prop := d ≠ .notCalled ∧ d ≠ .quitting ∧ d ≠ .inQuit

/-- `loop()` goes on, or the destructor is over with its `quit()`, the read behind the store included. -/
def ReturnsLate (s : State T F C) (a : Act T F C) : Prop :=
  a = .loop .test → ∀ p l, s.func = .looping p → s.loops p = some l → l.quit = true → s.dtor.past

def QuitsAlive (s : State T F C) : Prop := ∀ q ∈ s.quits, q.2 = true

structure InTime (s : State T F C) : Prop where
  exited : ∀ p l, s.func = .looping p → s.loops p = some l → l.phase = .exited → s.dtor.past
  ended : (∃ p, s.func = .cleared p) ∨ s.func = .finished → s.dtor.past
  alive : QuitsAlive s

theorem initial_inTime : InTime (initial : State T F C) where
  exited p l h := by cases h
  ended h := by
    rcases h with ⟨p, h⟩ | h <;> cases h
  alive q h := by cases h

section
variable {s t : State T F C}

theorem QuitsAlive.append {p : Addr} (h : QuitsAlive s) (q : Addr × Bool) (hq : q ∈ s.quits ++ [(p, true)]) : q.2 = true := by
  rcases List.mem_append.mp hq with hq | hq
  · exact h q hq
  · rw [List.mem_singleton.mp hq]

theorem InTime.frame (v : InTime s) (hfunc : t.func = s.func) (hloops : t.loops = s.loops) (hquits : t.quits = s.quits)
    (hd : s.dtor.past → t.dtor.past) : InTime t where
  exited p l hf hl hp := hd (v.exited p l (hfunc ▸ hf) (hloops ▸ hl) hp)
  ended h := hd (v.ended (hfunc ▸ h))
  alive := by unfold QuitsAlive; rw [hquits]; exact v.alive

end

/-! ## Where the loop is -/

def LoopAt (s : State T F C) : Func → Prop
  | .notStarted | .entered => s.loop_ = none
  | .callback p => s.loop_ = none ∧ ∃ l, s.loops p = some l ∧ l.phase = .init
  | .looping p | .cleared p => s.loop_ = some p ∧ ∃ l, s.loops p = some l
  | .finished => ∃ p, s.loop_ = some p ∧ s.loops p = none

structure Inv (threadId : T) (s : State T F C) : Prop where
  thread : Thread.Leaked s.thread
  place : LoopAt s s.func
  start : s.starting = .notCalled → s.func = .notStarted
  calm : ∀ p l, s.loops p = some l → EventLoop.Calm threadId l
  published : ∀ p, s.loop_ = some p → (p, true) ∈ s.published
  returned : ∀ r, s.starting = .returned r → ∃ p, r = some p ∧ (p, true) ∈ s.published
  quitting : s.dtor = .quitting ∨ s.dtor = .inQuit → ∃ p, s.loop_ = some p

theorem initial_inv : Inv threadId (initial : State T F C) where
  thread := Thread.initial_leaked
  place := rfl
  start _ := rfl
  calm p l h := by cases h
  published p h := by cases h
  returned r h := by cases h
  quitting h := by
    rcases h with h | h <;> cases h

variable {s t : State T F C} {a : Act T F C}

theorem Inv.placed {f : Func} (I : Inv threadId s) (hf : s.func = f) : LoopAt s f := by
  rw [← hf]
  exact I.place

theorem Inv.begun (I : Inv threadId s) (hf : s.func ≠ .notStarted) : s.starting ≠ .notCalled :=
  fun h => hf (I.start h)

theorem LoopAt.write {p : Addr} {l l' : EventLoop.State T F C} {f : Func} (h : LoopAt s f) (hp : s.loops p = some l)
    (hphase : l'.phase = l.phase ∨ f = .looping p) : LoopAt { s with loops := s.loops.write p l' } f := by
  have live : ∀ q, (∃ l, s.loops q = some l) → ∃ l, s.loops.write p l' q = some l := by
    intro q hq
    by_cases hqp : q = p
    · subst hqp; exact ⟨l', Heap.write_self ..⟩
    · obtain ⟨x, hx⟩ := hq
      exact ⟨x, by rw [← hx]; exact Function.update_of_ne hqp ..⟩
  cases f with
  | notStarted | entered => exact h
  | callback q =>
    obtain ⟨hnone, x, hx, hinit⟩ := h
    refine ⟨hnone, ?_⟩
    by_cases hqp : q = p
    · subst hqp
      rw [hp] at hx
      cases hx
      exact ⟨l', Heap.write_self .., (hphase.resolve_right (by simp)).trans hinit⟩
    · exact ⟨x, by rw [← hx]; exact Function.update_of_ne hqp .., hinit⟩
  | looping q | cleared q => exact ⟨h.1, live _ h.2⟩
  | finished =>
    obtain ⟨q, hq, hnone⟩ := h
    refine ⟨q, hq, ?_⟩
    have hqp : q ≠ p := by
      intro hqp
      rw [hqp, hp] at hnone
      cases hnone
    rw [← hnone]
    exact Function.update_of_ne hqp ..

theorem calm_write {p : Addr} {l' : EventLoop.State T F C} (h : ∀ p l, s.loops p = some l → EventLoop.Calm threadId l)
    (hl : EventLoop.Calm threadId l') (q : Addr) (x : EventLoop.State T F C)
    (hx : s.loops.write p l' q = some x) : EventLoop.Calm threadId x := by
  rcases update_some hx with ⟨-, he⟩ | ⟨-, hq⟩
  · cases he; exact hl
  · exact h q x hq

theorem InTime.alive_at {p : Addr} (v : InTime s) (I : Inv threadId s) (hp : s.loop_ = some p)
    (hd : s.dtor = .quitting ∨ s.dtor = .inQuit) : s.loops p ≠ none := by
  intro hl
  have hplace := I.place
  cases hf : s.func with
  | finished =>
    -- the thread is through, so the destructor was before it
    have hpast := v.ended (.inr hf)
    exact hd.elim hpast.2.1 hpast.2.2
  | notStarted | entered =>
    rw [hf] at hplace
    rw [hplace] at hp
    cases hp
  | callback q =>
    rw [hf] at hplace
    rw [hplace.1] at hp
    cases hp
  | looping q | cleared q =>
    rw [hf] at hplace
    obtain ⟨hq, x, hx⟩ := hplace
    rw [hp] at hq
    cases hq
    rw [hl] at hx
    cases hx

variable [DecidableEq T] {owner : T}

theorem Effect.inv (h : Effect threadId owner s a t) (I : Inv threadId s) : Inv threadId t := by
  have returned_mono : ∀ {l : List (Addr × Bool)}, ∀ r, s.starting = .returned r →
      ∃ p, r = some p ∧ (p, true) ∈ s.published ++ l := by
    intro l r hr
    obtain ⟨p, hp, hm⟩ := I.returned r hr
    exact ⟨p, hp, List.mem_append_left _ hm⟩
  cases h with
  | @startLoop tid thread hs ht =>
    obtain ⟨n, -, rfl⟩ := I.thread.start ht
    exact ⟨I.thread.created n, I.placed (I.start hs), nofun, I.calm, I.published,
      nofun, I.quitting⟩
  | @construct p hf hp =>
    refine ⟨I.thread, ⟨I.placed hf, _, Heap.write_self .., rfl⟩, ?_, ?_, I.published, I.returned, I.quitting⟩
    · intro h
      exact absurd h (I.begun (by simp [hf]))
    · exact calm_write I.calm fun h => absurd rfl h
  | @loop a p l l' hp ha hl he =>
    refine ⟨I.thread, I.place.write hl ?_, I.start, calm_write I.calm (he.calm (I.calm p l hl)), I.published,
      I.returned, I.quitting⟩
    exact ha.imp_left he.phase_of_call
  | @publish p l hf hl =>
    refine ⟨I.thread, ⟨rfl, l, hl⟩, ?_, I.calm, ?_, returned_mono, fun h => ⟨p, rfl⟩⟩
    · intro h
      exact absurd h (I.begun (by simp [hf]))
    · intro q hq
      cases hq
      apply List.mem_append_right
      rw [hl]
      exact List.mem_singleton_self _
  | @clear p l hf hl hp =>
    refine ⟨I.thread, I.placed hf, ?_, I.calm, I.published, I.returned, I.quitting⟩
    intro h
    exact absurd h (I.begun (by simp [hf]))
  | @destroy p hf =>
    refine ⟨I.thread, ⟨p, (I.placed hf).1, Function.update_self ..⟩, ?_, ?_, I.published, I.returned, I.quitting⟩
    · intro h
      exact absurd h (I.begun (by simp [hf]))
    · intro q x hx
      rcases update_some hx with ⟨-, he⟩ | ⟨-, hq⟩
      · cases he
      · exact I.calm q x hq
  | @endStartLoop p hs hp =>
    refine ⟨I.thread, I.place, nofun, I.calm, I.published, ?_, I.quitting⟩
    intro r hr
    cases hr
    exact ⟨p, hp, I.published p hp⟩
  | @enterDtor p hd hp =>
    exact ⟨I.thread, I.place, I.start, I.calm, I.published, I.returned, fun _ => ⟨p, hp⟩⟩
  | noLoop hd hp =>
    refine ⟨?_, I.place, I.start, I.calm, I.published, I.returned, ?_⟩
    · rw [I.thread.destroy]
      exact ⟨I.thread.started, I.thread.os⟩
    · intro h
      rcases h with h | h <;> cases h
  | @quit p l l' hd hp hl he | @endQuit p l l' hd hp hl he =>
    exact ⟨I.thread, I.place.write hl (.inl (he.phase_of_call rfl)), I.start,
      calm_write I.calm (he.calm (I.calm p l hl)), I.published, I.returned, fun _ => ⟨p, hp⟩⟩
  | @quitDead p hd hp hl | @endQuitDead p hd hp hl =>
    exact ⟨I.thread, I.place, I.start, I.calm, I.published, I.returned, fun _ => ⟨p, hp⟩⟩
  | join hd ht =>
    -- `started_` was never set, so there is no join
    rw [I.thread.join] at ht
    cases ht

theorem reachable_inv (h : (lts threadId owner).Reachable s) : Inv threadId s :=
  h.invariant_from initial_inv (fun _ _ _ I hs => (step_effect hs).inv I) fun _ h => h

theorem Inv.join_fails {r : Except Fault (State T F C)} (I : Inv threadId s)
    (h : step threadId owner s .join = some r) : r = .error .assertion := by
  simp only [step, Option.ite_none_right_eq_some, Option.some.injEq] at h
  obtain ⟨-, h⟩ := h
  rw [← h, I.thread.join]
  rfl

theorem Effect.inTime (h : Effect threadId owner s a t) (I : Inv threadId s) (v : InTime s) (hc : ReturnsLate s a) :
    InTime t := by
  cases h with
  | startLoop hs ht =>
    refine ⟨?_, ?_, v.alive⟩
    · intro p l h
      cases h
    · intro h
      rcases h with ⟨p, h⟩ | h <;> cases h
  | construct hf hp =>
    refine ⟨?_, ?_, v.alive⟩
    · intro p l h
      cases h
    · intro h
      rcases h with ⟨p, h⟩ | h <;> cases h
  | @loop a p l l' hp ha hl he =>
    refine ⟨?_, v.ended, v.alive⟩
    intro q x hf hx hexit
    change s.func = .looping q at hf
    have hqp : q = p := by
      rw [hf] at hp
      exact Option.some.inj hp
    subst hqp
    change s.loops.write q l' q = some x at hx
    rw [Heap.write_self] at hx
    cases hx
    rcases he.exits hexit with hold | ⟨rfl, hq⟩
    · exact v.exited q l hf hl hold
    · exact hc rfl q l hf hl hq
  | @publish p l hf hl =>
    obtain ⟨-, x, hx, hinit⟩ := I.placed hf
    refine ⟨?_, ?_, v.alive⟩
    · intro q y hq hy hexit
      cases hq
      change s.loops p = some y at hy
      rw [hx] at hy
      cases hy
      rw [hinit] at hexit
      cases hexit
    · intro h
      rcases h with ⟨p, h⟩ | h <;> cases h
  | @clear p l hf hl hp =>
    refine ⟨?_, ?_, v.alive⟩
    · intro p l h
      cases h
    · intro _
      exact v.exited p l hf hl hp
  | @destroy p hf =>
    refine ⟨?_, ?_, v.alive⟩
    · intro p l h
      cases h
    · intro _
      exact v.ended (.inl ⟨p, hf⟩)
  | endStartLoop _ _ => exact v.frame rfl rfl rfl fun h => h
  | enterDtor hd _ => exact v.frame rfl rfl rfl fun h => absurd hd h.1
  | noLoop _ _ => exact v.frame rfl rfl rfl fun _ => ⟨by simp, by simp, by simp⟩
  | @quit p l l' hd hp hl he =>
    refine ⟨?_, fun h => absurd hd (v.ended h).2.1, v.alive.append⟩
    intro q x hf hx hexit
    change s.loops.write p l' q = some x at hx
    rcases update_some hx with ⟨hqp, hx⟩ | ⟨-, hq⟩
    · -- the store of the flag leaves `loop()` where it is
      cases hx
      rw [he.phase_of_call rfl] at hexit
      exact absurd hd (v.exited q l hf (hqp ▸ hl) hexit).2.1
    · exact absurd hd (v.exited q x hf hq hexit).2.1
  | endQuit _ _ _ _ =>
    have hpast : Dtor.past .joining := ⟨by simp, by simp, by simp⟩
    exact ⟨fun _ _ _ _ _ => hpast, fun _ => hpast, v.alive.append⟩
  | quitDead hd hp hl => exact absurd hl (v.alive_at I hp (.inl hd))
  | endQuitDead hd hp hl => exact absurd hl (v.alive_at I hp (.inr hd))
  | join _ _ => exact v.frame rfl rfl rfl fun _ => ⟨by simp, by simp, by simp⟩

/-- From a return of `loop()` that comes too early, the destructor can go on to use no loop in its `quit()`. -/
theorem Effect.too_early (h : Effect threadId owner s a t) (I : Inv threadId s) (hc : ¬ ReturnsLate s a) :
    ∃ tr u, (lts threadId owner).Run t tr u ∧ ¬ QuitsAlive u := by
  unfold ReturnsLate at hc
  simp only [not_forall] at hc
  obtain ⟨rfl, p, l, hf, hl, hquit, hpast⟩ := hc
  have hloop := (I.placed hf).1
  cases h with
  | @loop _ q x l' hp ha hx he =>
    have hqp : p = q := by
      rw [hf] at hp
      exact Option.some.inj hp
    subst hqp
    rw [hl] at hx
    cases hx
    cases he with
    | again hphase hno =>
      rw [hquit] at hno
      cases hno
    | exit hphase _ =>
      have hidle : l.call threadId = .idle := (I.calm p l hl).idle (by rw [hphase]; rfl)
      let t₁ : State T F C := { s with loops := s.loops.write p { l with looping := false, phase := .exited } }
      let t₂ : State T F C := { t₁ with func := .cleared p }
      let t₃ : State T F C := { t₂ with loops := Function.update t₂.loops p none, func := .finished }
      have h₂ : (lts threadId owner).step t₁ .clear t₂ := by
        have hw : t₁.loops p = some { l with looping := false, phase := .exited } := Heap.write_self ..
        have hf₁ : t₁.func = .looping p := hf
        simp only [lts, step, hf₁, hw, Option.any_some, hidle, hasExited, decide_true, Bool.and_true, if_pos]
        rfl
      have h₃ : (lts threadId owner).step t₂ .destroy t₃ := rfl
      have hdead : t₃.loops p = none := Function.update_self ..
      have last : ∀ u : State T F C, u.dtor = .quitting → u.loop_ = some p → u.loops p = none →
          (lts threadId owner).step u .quit { u with dtor := .crashed, quits := u.quits ++ [(p, false)] } := by
        intro u hd hp hl
        simp only [lts, step, hd, hp, EventLoopThread.quit, hl]
        rfl
      have lastRead : ∀ u : State T F C, u.dtor = .inQuit → u.loop_ = some p → u.loops p = none →
          (lts threadId owner).step u .endQuit { u with dtor := .crashed, quits := u.quits ++ [(p, false)] } := by
        intro u hd hp hl
        simp only [lts, step, hd, hp, EventLoopThread.endQuit, hl]
        rfl
      have wrong : ∀ u : State T F C, ¬ QuitsAlive { u with dtor := .crashed, quits := u.quits ++ [(p, false)] } := by
        intro u hall
        have := hall (p, false) (List.mem_append_right _ (List.mem_singleton_self _))
        cases this
      -- where the destructor stands says how it goes on
      by_cases hd : s.dtor = .quitting
      · exact ⟨[.clear, .destroy, .quit], _, .cons h₂ (.cons h₃ (.single (last t₃ hd hloop hdead))), wrong t₃⟩
      by_cases hin : s.dtor = .inQuit
      · exact ⟨[.clear, .destroy, .endQuit], _, .cons h₂ (.cons h₃ (.single (lastRead t₃ hin hloop hdead))), wrong t₃⟩
      have hno : s.dtor = .notCalled := by
        by_contra hne
        exact hpast ⟨hne, hd, hin⟩
      have h₄ : (lts threadId owner).step t₃ .enterDtor { t₃ with exiting := true, dtor := .quitting } := by
        have hd₃ : t₃.dtor = .notCalled := hno
        have hl₃ : t₃.loop_ = some p := hloop
        simp [lts, step, EventLoopThread.enterDtor, hd₃, hl₃]
      exact ⟨[.clear, .destroy, .enterDtor, .quit], _,
        .cons h₂ (.cons h₃ (.cons h₄ (.single (last _ rfl hloop hdead)))), wrong _⟩

theorem inTime_of_restrict (h : ((lts threadId owner).restrict ReturnsLate).Reachable s) : InTime s := by
  refine Lts.Reachable.invariant_of (fun s h => reachable_inv h.of_restrict) ?_ ?_ h
  · intro s h
    subst h
    exact initial_inTime
  · intro s a t I v hs
    exact (step_effect hs.2).inTime I v hs.1

/-- **The destructor's `quit()` uses a live loop in every run in which `loop()` does not return
before that call has**; and a return that comes before can be followed by a use of no loop. What
`startLoop()` returns was alive in any case. -/
theorem loop_alive :
    (∀ s : State T F C, (lts threadId owner).Reachable s → ∀ r, s.starting = .returned r →
      ∃ p, r = some p ∧ (p, true) ∈ s.published) ∧
    (∀ s : State T F C, ((lts threadId owner).restrict ReturnsLate).Reachable s → QuitsAlive s) ∧
    ∀ (s t : State T F C) (a : Act T F C), (lts threadId owner).Reachable s → (lts threadId owner).step s a t →
      ¬ ReturnsLate s a → ∃ tr u, (lts threadId owner).Run t tr u ∧ ¬ QuitsAlive u := by
  refine ⟨fun s h => (reachable_inv h).returned, fun s h => (inTime_of_restrict h).alive, ?_⟩
  intro s t a h hs hc
  exact (step_effect hs).too_early (reachable_inv h) hc

theorem loop_alive_quit_first : ∃ s : State Bool Nat Unit, s.starting = .returned (some 7) ∧ s.quits = [(7, true), (7, true)] ∧
    s.func = .cleared 7 ∧ (7, true) ∈ s.published ∧ QuitsAlive s := by
  have h₀ : ((lts true false).restrict ReturnsLate).Reachable (initial : State Bool Nat Unit) := .init rfl
  have h₁ := h₀.step (a := .startLoop (some 1)) ⟨nofun, rfl⟩
  have h₂ := h₁.step (a := .construct 7) ⟨nofun, rfl⟩
  have h₃ := h₂.step (a := .publish) ⟨nofun, rfl⟩
  have h₄ := h₃.step (a := .endStartLoop) ⟨nofun, rfl⟩
  have h₅ := h₄.step (a := .loop .loop) ⟨nofun, rfl⟩
  have h₆ := h₅.step (a := .loop .clearQuit) ⟨nofun, rfl⟩
  have h₇ := h₆.step (a := .enterDtor) ⟨nofun, rfl⟩
  have h₈ := h₇.step (a := .quit) ⟨nofun, rfl⟩
  have h₉ := h₈.step (a := .endQuit) ⟨nofun, rfl⟩
  have h₁₀ := h₉.step (a := .loop .test) ⟨fun _ _ _ _ _ _ => ⟨nofun, nofun, nofun⟩, rfl⟩
  have h := h₁₀.step (a := .clear) ⟨nofun, rfl⟩
  obtain ⟨p, hp, hm⟩ := loop_alive.1 _ h.of_restrict _ rfl
  cases hp
  exact ⟨_, rfl, rfl, rfl, hm, loop_alive.2.1 _ h⟩

/-- A loop that another thread quits is gone when the destructor quits it. -/
theorem loop_gone_before_quit : ¬ ∀ s : State Bool Nat Unit, (lts true false).Reachable s → QuitsAlive s := by
  intro hall
  have h₀ : (lts true false).Reachable (initial : State Bool Nat Unit) := .init rfl
  have h₁ := h₀.step (a := .startLoop (some 1)) (by rfl)
  have h₂ := h₁.step (a := .construct 7) (by rfl)
  have h₃ := h₂.step (a := .publish) (by rfl)
  have h₄ := h₃.step (a := .loop .loop) (by rfl)
  have h₅ := h₄.step (a := .loop .clearQuit) (by rfl)
  have h₆ := h₅.step (a := .loop (.quit false)) (by rfl)
  have h₇ := h₆.step (a := .loop (.endQuit false)) (by rfl)
  have h₈ := h₇.step (a := .loop .test) (by rfl)
  have h₉ := h₈.step (a := .clear) (by rfl)
  have h₁₀ := h₉.step (a := .destroy) (by rfl)
  have h₁₁ := h₁₀.step (a := .enterDtor) (by rfl)
  have h := hall _ (h₁₁.step (a := .quit) (by rfl)) (7, false) (List.mem_singleton_self _)
  cases h

/-! ## Joining the thread -/

/-- **Threads are joined or detached along a run if and only if none is started.** The
destructor's join of the thread that `startLoop()` started fails in every run. -/
theorem joined_or_detached_iff (tr : List Thread.Act) :
    ((∀ tr' s, tr' <+: tr → Thread.lts.Run Thread.initial tr' s → Thread.GivenUp s) ↔
      ∀ tr' s a t, tr' ++ [a] <+: tr → Thread.lts.Run Thread.initial tr' s → Thread.lts.step s a t → ¬ Thread.Starts a) ∧
    ∀ (s : State T F C) (r : Except Fault (State T F C)), (lts threadId owner).Reachable s →
      step threadId owner s .join = some r → r = .error .assertion := by
  constructor
  · apply Lts.Run.always_iff (I := Thread.Leaked) (C := fun _ a => ¬ Thread.Starts a)
    · exact fun s a t l g h => Thread.step_givenUp_iff l g h
    · exact fun s a t l _ _ h => l.step h
    · exact ⟨Thread.initial_leaked, (Thread.givenUp_iff Thread.initial_leaked).mpr rfl⟩
  · exact fun s r h hj => (reachable_inv h).join_fails hj

theorem joined_or_detached_iff_fails : ∃ s : State Bool Nat Unit, s.dtor = .joining ∧
    (step true false s .join).isSome = true ∧ ∀ r, step true false s .join = some r → r = .error .assertion := by
  have h₀ : (lts true false).Reachable (initial : State Bool Nat Unit) := .init rfl
  have h₁ := h₀.step (a := .startLoop (some 1)) (by rfl)
  have h₂ := h₁.step (a := .construct 7) (by rfl)
  have h₃ := h₂.step (a := .publish) (by rfl)
  have h₄ := h₃.step (a := .enterDtor) (by rfl)
  have h₅ := h₄.step (a := .quit) (by rfl)
  have h₆ := h₅.step (a := .endQuit) (by rfl)
  exact ⟨_, rfl, rfl, fun r hr => (joined_or_detached_iff []).2 _ r h₆ hr⟩

/-- A thread that was started does not know it. -/
theorem started_not_set : ¬ ∀ s, Thread.lts.Reachable s → Thread.GivenUp s := by
  intro hall
  have h₀ : Thread.lts.Reachable Thread.initial := .init rfl
  have h₁ := h₀.step (a := Thread.Act.start (some 1)) ⟨⟨rfl, rfl, fun n h => by cases h; decide⟩, rfl⟩
  have h := (hall _ h₁).started (List.cons_ne_nil _ _)
  cases h

end MyLearning.EventLoopThread
