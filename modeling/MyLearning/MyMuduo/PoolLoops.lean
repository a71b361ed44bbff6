import Mathlib.Data.Fintype.EquivFin
import MyLearning.MyMuduo.PoolThreads

/-!
# The loops of a pool

Every thread of the pool is an `EventLoopThread` on its own, so what holds of each of its runs holds
of the threads here. `start()` takes the loops in the order of the threads and never waits for
a thread that cannot go on; the loops it has taken live, at different addresses, until their
threads are over. The destructor never gets past its first thread, which it cannot join.
-/

namespace MyLearning

/-! ## One thread -/

namespace EventLoopThread

variable {T F C : Type} {threadId owner : T} {s t : State T F C} {a : Act T F C}

/-- There is no loop but the one on the stack of the thread, which runs once it was started. -/
structure Lone (s : State T F C) : Prop where
  only : ∀ p l, s.loops p = some l → s.func.loop? = some p
  begun : s.starting ≠ .notCalled → s.func ≠ .notStarted

theorem initial_lone : Lone (initial : State T F C) where
  only p l h := by cases h
  begun h := absurd rfl h

theorem Lone.write {p : Addr} {l l' : EventLoop.State T F C} (v : Lone s) (hp : s.loops p = some l) (q : Addr)
    (x : EventLoop.State T F C) (h : s.loops.write p l' q = some x) : s.func.loop? = some q := by
  rcases update_some h with ⟨rfl, -⟩ | ⟨-, h⟩
  · exact v.only q l hp
  · exact v.only q x h

theorem startLoop_ok {tid : Option Nat} (h : startLoop (initial : State T F C) tid = .ok t) :
    t.starting = .waiting ∧ t.loops = fun _ => none := by
  obtain ⟨-, h⟩ := check_bind_eq_ok.mp h
  obtain ⟨thread, -, h⟩ := bind_eq_ok.mp h
  cases h
  exact ⟨rfl, rfl⟩

variable [DecidableEq T]

theorem Effect.lone (h : Effect threadId owner s a t) (I : Inv threadId s) (v : Lone s) : Lone t := by
  cases h with
  | startLoop hs _ =>
    refine ⟨?_, fun _ => by simp⟩
    intro p l h
    have hp := v.only p l h
    rw [I.start hs] at hp
    cases hp
  | @construct p hf _ =>
    refine ⟨?_, fun _ => by simp⟩
    intro q l h
    rcases update_some h with ⟨rfl, -⟩ | ⟨-, h⟩
    · rfl
    · have hq := v.only q l h
      rw [hf] at hq
      cases hq
  | loop _ _ hl _ => exact ⟨v.write hl, v.begun⟩
  | publish hf _ =>
    refine ⟨?_, fun _ => by simp [EventLoopThread.publish]⟩
    intro q x h
    have hq := v.only q x h
    rwa [hf] at hq
  | clear hf _ _ =>
    refine ⟨?_, fun _ => by simp⟩
    intro q x h
    have hq := v.only q x h
    rwa [hf] at hq
  | @destroy p hf =>
    refine ⟨?_, fun _ => by simp⟩
    intro q x h
    rcases update_some h with ⟨-, h⟩ | ⟨hq, h⟩
    · cases h
    · have hp := v.only q x h
      rw [hf] at hp
      exact absurd (Option.some.inj hp).symm hq
  | endStartLoop hs _ => exact ⟨v.only, fun _ => v.begun (by rw [hs]; simp)⟩
  | quit _ _ hl _ | endQuit _ _ hl _ => exact ⟨v.write hl, v.begun⟩
  | enterDtor _ _ | noLoop _ _ | quitDead _ _ _ | endQuitDead _ _ _ | join _ _ => exact ⟨v.only, v.begun⟩

theorem reachable_lone (h : (lts threadId owner).Reachable s) : Lone s := by
  refine Lts.Reachable.invariant_of (fun s h => reachable_inv h) ?_ ?_ h
  · intro s h
    subst h
    exact initial_lone
  · intro s a t I v hs
    exact (step_effect hs).lone I v

theorem Effect.own (h : Effect threadId owner s a t) (I : Inv threadId s) (ha : PoolThreads.isOwn a = true) :
    t.starting = s.starting ∧ (∀ p, s.loop_ = some p → t.loop_ = some p) ∧
      ∀ p l, t.loops p = some l → (∃ l, s.loops p = some l) ∨ a = .construct p := by
  have same : ∀ p l, s.loops p = some l → (∃ l, s.loops p = some l) ∨ a = .construct p := fun _ l h => .inl ⟨l, h⟩
  cases h with
  | construct _ _ =>
    refine ⟨rfl, fun _ h => h, ?_⟩
    intro q x h
    rcases update_some h with ⟨rfl, -⟩ | ⟨-, h⟩
    · exact .inr rfl
    · exact .inl ⟨x, h⟩
  | loop _ _ hl _ =>
    refine ⟨rfl, fun _ h => h, ?_⟩
    intro q x h
    rcases update_some h with ⟨rfl, -⟩ | ⟨-, h⟩
    · exact .inl ⟨_, hl⟩
    · exact .inl ⟨x, h⟩
  | publish hf _ =>
    refine ⟨rfl, ?_, same⟩
    intro p h
    rw [(I.placed hf).1] at h
    cases h
  | clear _ _ _ => exact ⟨rfl, fun _ h => h, same⟩
  | destroy _ =>
    refine ⟨rfl, fun _ h => h, ?_⟩
    intro q x h
    rcases update_some h with ⟨-, h⟩ | ⟨-, h⟩
    · cases h
    · exact .inl ⟨x, h⟩
  | startLoop _ _ | endStartLoop _ _ | enterDtor _ _ | noLoop _ _ | quit _ _ _ _ | quitDead _ _ _ | endQuit _ _ _ _
  | endQuitDead _ _ _ | join _ _ => cases ha

theorem Effect.dtor (h : Effect threadId owner s a t) (I : Inv threadId s) (ha : PoolThreads.isDtor a = true) {p : Addr}
    (hp : s.loop_ = some p) : t.loop_ = some p ∧ t.dtor ≠ .finished ∧
      ∀ q l, t.loops q = some l → ∃ l, s.loops q = some l := by
  cases h with
  | enterDtor _ _ => exact ⟨hp, by simp, fun _ l h => ⟨l, h⟩⟩
  | noLoop _ hnone =>
    rw [hp] at hnone
    cases hnone
  | quit _ _ hl _ | endQuit _ _ hl _ =>
    refine ⟨hp, by simp, ?_⟩
    intro q x h
    rcases update_some h with ⟨rfl, -⟩ | ⟨-, h⟩
    · exact ⟨_, hl⟩
    · exact ⟨x, h⟩
  | quitDead _ _ _ | endQuitDead _ _ _ => exact ⟨hp, by simp, fun _ l h => ⟨l, h⟩⟩
  | join _ hj =>
    -- `started_` was never set, so the assertion of `join` fails
    rw [I.thread.join] at hj
    cases hj
  | startLoop _ _ | construct _ _ | loop _ _ _ _ | publish _ _ | clear _ _ _ | destroy _ | endStartLoop _ _ => cases ha

theorem callback_publishes {p : Addr} {l : EventLoop.State T F C} (I : Inv threadId s) (hf : s.func = .callback p)
    (hl : s.loops p = some l) : ∃ tr t, (lts threadId owner).Run s tr t ∧ t.loop_ = some p ∧ t.starting = s.starting ∧
      ∀ a ∈ tr, PoolThreads.isOwn a = true ∧ ∀ q, a ≠ .construct q := by
  have hp : s.func.loop? = some p := by rw [hf]; rfl
  have hdtor : ∀ b, isDtorCall owner s b = false := by
    -- the destructor has found no address to quit yet
    have hd : s.dtor ≠ .inQuit := by
      intro hd
      obtain ⟨q, hq⟩ := I.quitting (.inr hd)
      rw [(I.placed hf).1] at hq
      cases hq
    intro b
    cases b <;> simp [isDtorCall, hd]
  have publishes : ∀ {u : State T F C} {x : EventLoop.State T F C}, u.func = .callback p → u.loops p = some x →
      x.call threadId = .idle → (lts threadId owner).step u .publish (publish u p) := by
    intro u x hu hx hidle
    simp [lts, step, hu, hx, hidle]
  have ends : ∀ {b : EventLoop.Act T F C} {x : EventLoop.State T F C}, isCall b = true →
      EventLoop.step threadId l b = some x →
      (lts threadId owner).step s (.loop b) { s with loops := s.loops.write p x } := by
    intro b x hb hx
    simp [lts, step, hp, hl, hb, hx, hdtor b]
  have two : ∀ {b : EventLoop.Act T F C} {x : EventLoop.State T F C}, isCall b = true →
      EventLoop.step threadId l b = some x → x.call threadId = .idle →
      ∃ tr t, (lts threadId owner).Run s tr t ∧ t.loop_ = some p ∧ t.starting = s.starting ∧
        ∀ a ∈ tr, PoolThreads.isOwn a = true ∧ ∀ q, a ≠ .construct q := by
    intro b x hb hx hidle
    have hfirst := ends hb hx
    have hlast := publishes (u := { s with loops := s.loops.write p x }) hf (Heap.write_self ..) hidle
    exact ⟨_, _, .cons hfirst (.single hlast), rfl, rfl, by simp [PoolThreads.isOwn]⟩
  cases hcall : l.call threadId with
  | idle => exact ⟨_, _, .single (publishes hf hl hcall), rfl, rfl, by simp [PoolThreads.isOwn]⟩
  | queueing =>
    have hstep : EventLoop.step threadId l (.endQueueInLoop threadId) =
        some (EventLoop.setCall (EventLoop.wakeupAfterPush threadId l threadId) threadId .idle) := if_pos hcall
    exact two rfl hstep (Function.update_self ..)
  | quitting =>
    have hstep : EventLoop.step threadId l (.endQuit threadId) = some (EventLoop.setCall
        { EventLoop.wakeupAfterQuit threadId l threadId with quitDone := l.quitDone ++ [threadId] } threadId .idle) :=
      if_pos hcall
    exact two rfl hstep (Function.update_self ..)

end EventLoopThread

namespace PoolThreads

variable {T F C : Type}

/-! ## The loops along a run -/

def Live (s : State T F C) (i : Nat) (p : Addr) : Prop := ∃ t l, s.threads[i]? = some t ∧ t.loops p = some l

def Handed (s : State T F C) (i : Nat) (loop : Option Addr) : Prop :=
  ∃ t p, s.threads[i]? = some t ∧ loop = some p ∧ t.loop_ = some p

/-- A pool behind `start`, whose threads have all published. -/
structure Started (s : State T F C) : Prop where
  started : s.pool.started_ = true
  threads : s.threads.length = s.pool.loops_.length
  size : s.pool.loops_.length = s.pool.numThreads_.toNat
  turn : ∃ k : ℕ, s.pool.next_ = (k % s.pool.loops_.length : ℕ)

def At (s : State T F C) : Pc → Prop
  | .outside => (s.pool.started_ = false ∧ s.threads = [] ∧ s.pool.loops_ = [] ∧ s.pool.next_ = 0) ∨ Started s
  | .starting i => s.pool.started_ = true ∧ s.threads.length = i ∧ s.pool.loops_.length = i ∧
      i ≤ s.pool.numThreads_.toNat ∧ s.pool.next_ = 0
  | .waiting i => s.pool.started_ = true ∧ s.threads.length = i + 1 ∧ s.pool.loops_.length = i ∧
      i < s.pool.numThreads_.toNat ∧ s.pool.next_ = 0 ∧ ∃ t, s.threads[i]? = some t ∧ t.starting = .waiting
  | .destroying i => i = 0 ∧ s.threads.length = s.pool.loops_.length

structure Inv (s : State T F C) : Prop where
  apart : ∀ i j p, Live s i p → Live s j p → i = j
  base : ∀ i p, Live s i p → s.pool.baseLoop_ ≠ some p
  handed : ∀ i loop, s.pool.loops_[i]? = some loop → Handed s i loop
  names : s.pool.threads_ = (List.range s.threads.length).map fun i : Nat => s.pool.threadName i
  nonneg : 0 ≤ s.pool.numThreads_
  range : s.pool.numThreads_ < 2 ^ 31
  place : At s s.pc

theorem initial_inv {baseLoop : Addr} {name : List Char} {n : Int} (hn : 0 ≤ n) (hmax : n < 2 ^ 31) :
    Inv (initial baseLoop name n : State T F C) where
  apart i j p hi := by
    obtain ⟨t, l, ht, -⟩ := hi
    cases ht
  base i p hi := by
    obtain ⟨t, l, ht, -⟩ := hi
    cases ht
  handed i loop h := by cases h
  names := rfl
  nonneg := hn
  range := hmax
  place := .inl ⟨rfl, rfl, rfl, rfl⟩

section
variable {s t : State T F C}

theorem Free.not_live {p : Addr} (h : Free s p) (i : Nat) : ¬ Live s i p := by
  intro ⟨t, l, ht, hl⟩
  rw [h.2 t (List.mem_of_getElem? ht)] at hl
  cases hl

theorem Inv.places (I : Inv s) (hbase : t.pool.baseLoop_ = s.pool.baseLoop_) {i : Nat}
    (h : ∀ j p, Live t j p → Live s j p ∨ j = i ∧ Free s p) :
    (∀ j k p, Live t j p → Live t k p → j = k) ∧ ∀ j p, Live t j p → t.pool.baseLoop_ ≠ some p := by
  constructor
  · intro j k p hj hk
    rcases h j p hj with hj | ⟨rfl, hfree⟩
    · rcases h k p hk with hk | ⟨-, hfree⟩
      · exact I.apart j k p hj hk
      · exact absurd hj (hfree.not_live j)
    · rcases h k p hk with hk | ⟨rfl, -⟩
      · exact absurd hk (hfree.not_live k)
      · rfl
  · intro j p hj
    rw [hbase]
    rcases h j p hj with hj | ⟨-, hfree⟩
    · exact I.base j p hj
    · exact hfree.1

theorem live_put {i j : Nat} {p : Addr} {x : EventLoopThread.State T F C} (h : Live (put s i x) j p) :
    Live s j p ∨ j = i ∧ ∃ l, x.loops p = some l := by
  obtain ⟨y, l, hy, hl⟩ := h
  rcases Lts.getElem?_set_cases hy with ⟨rfl, rfl, -⟩ | ⟨-, hy⟩
  · exact .inr ⟨rfl, l, hl⟩
  · exact .inl ⟨y, l, hy, hl⟩

theorem length_put (s : State T F C) (i : Nat) (x : EventLoopThread.State T F C) :
    (put s i x).threads.length = s.threads.length := List.length_set

theorem Inv.handed_put (I : Inv s) {i : Nat} {x y : EventLoopThread.State T F C} (hx : s.threads[i]? = some x)
    (hkeeps : ∀ p, x.loop_ = some p → y.loop_ = some p) (j : Nat) (loop : Option Addr) (h : s.pool.loops_[j]? = some loop) :
    Handed (put s i y) j loop := by
  obtain ⟨t, p, ht, hp, hl⟩ := I.handed j loop h
  by_cases hj : j = i
  · subst hj
    rw [hx] at ht
    cases ht
    have hlt := (List.getElem?_eq_some_iff.mp hx).1
    exact ⟨y, p, List.getElem?_set_self hlt, hp, hkeeps p hl⟩
  · exact ⟨t, p, (List.getElem?_set_ne (Ne.symm hj)).trans ht, hp, hl⟩

theorem Inv.put (I : Inv s) {i : Nat} {x y : EventLoopThread.State T F C} (hx : s.threads[i]? = some x)
    (hkeeps : ∀ p, x.loop_ = some p → y.loop_ = some p)
    (hloops : ∀ p l, y.loops p = some l → (∃ l, x.loops p = some l) ∨ Free s p)
    (hplace : At (put s i y) s.pc) : Inv (put s i y) := by
  have hlive : ∀ j p, Live (PoolThreads.put s i y) j p → Live s j p ∨ j = i ∧ Free s p := by
    intro j p hj
    rcases live_put hj with hj | ⟨rfl, l, hl⟩
    · exact .inl hj
    · rcases hloops p l hl with ⟨m, hm⟩ | hfree
      · exact .inl ⟨x, m, hx, hm⟩
      · exact .inr ⟨rfl, hfree⟩
  obtain ⟨hapart, hbase⟩ := I.places (t := PoolThreads.put s i y) rfl hlive
  refine ⟨hapart, hbase, I.handed_put hx hkeeps, ?_, I.nonneg, I.range, hplace⟩
  rw [length_put]
  exact I.names

theorem At.put {i : Nat} {x y : EventLoopThread.State T F C} {pc : Pc} (h : At s pc) (hx : s.threads[i]? = some x)
    (hstarting : y.starting = x.starting) : At (put s i y) pc := by
  have hlen := length_put s i y
  cases pc with
  | outside =>
    rcases h with ⟨-, hnil, -⟩ | h
    · rw [hnil] at hx
      cases hx
    · exact .inr ⟨h.started, hlen.trans h.threads, h.size, h.turn⟩
  | starting k =>
    obtain ⟨hs, ht, h⟩ := h
    exact ⟨hs, hlen.trans ht, h⟩
  | waiting k =>
    obtain ⟨hs, ht, hl, hk, hn, z, hz, hw⟩ := h
    refine ⟨hs, hlen.trans ht, hl, hk, hn, ?_⟩
    by_cases hki : k = i
    · subst hki
      rw [hx] at hz
      cases hz
      exact ⟨y, List.getElem?_set_self (List.getElem?_eq_some_iff.mp hx).1, hstarting.trans hw⟩
    · exact ⟨z, (List.getElem?_set_ne (Ne.symm hki)).trans hz, hw⟩
  | destroying k => exact ⟨h.1, hlen.trans h.2⟩

theorem Started.ready {T : Type} {base : T} (h : Started s) (hn : 0 ≤ s.pool.numThreads_) (hmax : s.pool.numThreads_ < 2 ^ 31) :
    EventLoopThreadPool.Ready (fun _ => base) s.pool base where
  owner := rfl
  started := h.started
  size := by
    have := h.size
    omega
  range := by
    have := h.size
    omega

theorem Started.atTurn (h : Started s) : ∃ k : ℕ, s.pool = s.pool.atTurn k := by
  obtain ⟨k, hk⟩ := h.turn
  exact ⟨k, by rw [EventLoopThreadPool.atTurn, ← hk]⟩

end

variable [DecidableEq T] {tids : Nat → T} {base : T} {s t : State T F C} {a : Act T F C}

theorem family : Lts.Family (lts tids base : Lts (State T F C) (Act T F C)) (fun i => EventLoopThread.lts (tids i) base)
    State.threads where
  init s h := by
    obtain ⟨baseLoop, name, n, -, -, rfl⟩ := h
    rfl
  step s a t h := by
    cases step_effect h with
    | start _ _ | endStart _ _ | getNextLoop _ _ | destroy _ => exact .inl rfl
    | @newThread i tid x _ _ hx =>
      exact .inr (.inr ⟨EventLoopThread.initial, .startLoop tid, x, rfl, congrArg some hx, rfl⟩)
    | thread hx _ _ hs | dtor _ hx _ hs => exact .inr (.inl ⟨_, _, _, _, hx, hs, rfl⟩)
    | endStartLoop _ hx hw hl =>
      refine .inr (.inl ⟨_, _, .endStartLoop, _, hx, ?_, rfl⟩)
      simp [EventLoopThread.lts, EventLoopThread.step, hw, hl]

theorem reachable_thread (h : (lts tids base).Reachable s) {i : Nat} {x : EventLoopThread.State T F C}
    (hx : s.threads[i]? = some x) : (EventLoopThread.lts (tids i) base).Reachable x :=
  family.reachable h i x hx

theorem Effect.inv (h : Effect tids base s a t) (I : Inv s)
    (C : ∀ i x, s.threads[i]? = some x → EventLoopThread.Inv (tids i) x) : Inv t := by
  have place := I.place
  cases h with
  | start hpc hs =>
    rw [hpc] at place
    rcases place with ⟨-, hthreads, hloops, hnext⟩ | h
    · refine ⟨I.apart, I.base, I.handed, I.names, I.nonneg, I.range, rfl, ?_, ?_, Nat.zero_le _, hnext⟩
      · exact congrArg List.length hthreads
      · exact congrArg List.length hloops
    · rw [h.started] at hs
      cases hs
  | @newThread i tid x hpc hi hx =>
    rw [hpc] at place
    obtain ⟨hstarted, hthreads, hloops, -, hnext⟩ := place
    -- the new thread has no loop yet, so nothing else moves
    obtain ⟨hwaiting, hnone⟩ := EventLoopThread.startLoop_ok hx
    have hn := I.nonneg
    have hlast : (s.threads ++ [x])[i]? = some x := by
      rw [← hthreads]
      exact List.getElem?_concat_length
    have hold : ∀ (j : Nat) y, s.threads[j]? = some y → (s.threads ++ [x])[j]? = some y := by
      intro j y hy
      rw [List.getElem?_append_left (List.getElem?_eq_some_iff.mp hy).1]
      exact hy
    obtain ⟨hapart, hbase⟩ := I.places (t := { s with
        pool := { s.pool with threads_ := s.pool.threads_ ++ [s.pool.threadName i] }
        pc := .waiting i
        threads := s.threads ++ [x] }) (i := i) rfl <| by
      intro j p hj
      obtain ⟨y, l, hy, hl⟩ := hj
      rcases Lts.getElem?_concat_cases hy with ⟨-, rfl⟩ | ⟨-, hy⟩
      · rw [hnone] at hl
        cases hl
      · exact .inl ⟨y, l, hy, hl⟩
    have hlt : i < s.pool.numThreads_.toNat := by omega
    refine ⟨hapart, hbase, ?_, ?_, I.nonneg, I.range, hstarted, ?_, hloops, hlt, hnext, x, hlast, hwaiting⟩
    · intro j loop hj
      obtain ⟨y, p, hy, hp⟩ := I.handed j loop hj
      exact ⟨y, p, hold j y hy, hp⟩
    · show s.pool.threads_ ++ [s.pool.threadName i] = _
      rw [I.names, List.length_append, List.length_singleton, List.range_succ, List.map_append, hthreads]
      rfl
    · rw [List.length_append, hthreads]
      rfl
  | @thread i b x y hx hown hplaced hs =>
    obtain ⟨hstarting, hkeeps, hloops⟩ := (EventLoopThread.step_effect hs).own (C i x hx) hown
    refine I.put hx hkeeps ?_ (place.put hx hstarting)
    intro p l hl
    rcases hloops p l hl with h | rfl
    · exact .inl h
    · exact .inr hplaced
  | @endStartLoop i x p hpc hx hw hp =>
    rw [hpc] at place
    obtain ⟨hstarted, hthreads, hloops, hi, hnext, -⟩ := place
    have hlt := (List.getElem?_eq_some_iff.mp hx).1
    have hlen := length_put s i { x with starting := .returned (some p) }
    obtain ⟨hapart, hbase⟩ := I.places (t := { PoolThreads.put s i { x with starting := .returned (some p) } with
        pool := { s.pool with loops_ := s.pool.loops_ ++ [some p] }, pc := .starting (i + 1) }) (i := i) rfl <| by
      intro j q hj
      rcases live_put hj with hj | ⟨rfl, l, hl⟩
      · exact .inl hj
      · exact .inl ⟨x, l, hx, hl⟩
    refine ⟨hapart, hbase, ?_, ?_, I.nonneg, I.range, hstarted, hlen.trans hthreads, ?_, hi, hnext⟩
    · intro j loop hj
      rcases Lts.getElem?_concat_cases hj with ⟨rfl, rfl⟩ | ⟨-, hj⟩
      · rw [hloops]
        exact ⟨_, p, List.getElem?_set_self hlt, rfl, hp⟩
      · exact I.handed_put (y := { x with starting := .returned (some p) }) hx (fun _ h => h) j loop hj
    · show s.pool.threads_ = _
      rw [I.names]
      exact congrArg (fun n => (List.range n).map fun i : Nat => s.pool.threadName i) hlen.symm
    · rw [List.length_append, hloops]
      rfl
  | @endStart i hpc hi =>
    rw [hpc] at place
    obtain ⟨hstarted, hthreads, hloops, hle, hnext⟩ := place
    have hn := I.nonneg
    have hsize : s.pool.loops_.length = s.pool.numThreads_.toNat := by omega
    have hturn : s.pool.next_ = (0 % s.pool.loops_.length : ℕ) := by
      rw [Nat.zero_mod]
      exact hnext
    exact ⟨I.apart, I.base, I.handed, I.names, I.nonneg, I.range,
      .inr ⟨hstarted, hthreads.trans hloops.symm, hsize, 0, hturn⟩⟩
  | @getNextLoop th r hpc hr =>
    rw [hpc] at place
    obtain ⟨_, hth, hr'⟩ := bind_eq_ok.mp hr
    cases EventLoopThreadPool.assertInLoopThread_eq_ok hth
    rcases place with ⟨hs, -⟩ | h
    · rw [(check_bind_eq_ok.mp hr').1] at hs
      cases hs
    · have hready : EventLoopThreadPool.Ready (fun _ => base) s.pool base := h.ready I.nonneg I.range
      by_cases hne : s.pool.loops_ = []
      · -- without loops the call runs off its end
        rw [EventLoopThreadPool.getNextLoop_empty hready hne] at hr
        cases hr
        refine ⟨I.apart, I.base, I.handed, I.names, I.nonneg, I.range, ?_⟩
        rw [hpc]
        exact .inr ⟨h.started, h.threads, h.size, h.turn⟩
      · obtain ⟨k, hk⟩ := h.atTurn
        have hnext := EventLoopThreadPool.getNextLoop_eq hready hne k
        rw [← hk, hr] at hnext
        cases hnext
        refine ⟨I.apart, I.base, I.handed, I.names, I.nonneg, I.range, ?_⟩
        rw [hpc]
        exact .inr ⟨h.started, h.threads, h.size, k + 1, rfl⟩
  | destroy hpc =>
    rw [hpc] at place
    refine ⟨I.apart, I.base, I.handed, I.names, I.nonneg, I.range, rfl, ?_⟩
    rcases place with ⟨-, hthreads, hloops, -⟩ | h
    · rw [hthreads, hloops]
      rfl
    · exact h.threads
  | @dtor i b x y hpc hx hdtor hs =>
    rw [hpc] at place
    obtain ⟨rfl, hlen⟩ := place
    have hlt := (List.getElem?_eq_some_iff.mp hx).1
    obtain ⟨z, p, hz, -, hp⟩ := I.handed 0 _ (List.getElem?_eq_getElem (hlen ▸ hlt))
    rw [hx] at hz
    cases hz
    obtain ⟨hkeeps, hdtor, hloops⟩ := (EventLoopThread.step_effect hs).dtor (C 0 x hx) hdtor hp
    -- the destructor of the first thread never ends, so `i` stays at zero
    have hsame : destroyThread s 0 y = PoolThreads.put s 0 y := by
      unfold destroyThread
      rw [if_neg hdtor, ← hpc]
      rfl
    rw [hsame]
    refine I.put hx ?_ (fun q l hl => .inl (hloops q l hl)) ?_
    · intro q hq
      rw [hp] at hq
      cases hq
      exact hkeeps
    · rw [hpc]
      exact ⟨rfl, (length_put s 0 y).trans hlen⟩

theorem reachable_inv (h : (lts tids base).Reachable s) : Inv s := by
  refine Lts.Reachable.invariant_of (I := (lts tids base).Reachable) (fun _ h => h) ?_ ?_ h
  · intro s h
    obtain ⟨baseLoop, name, n, hn, hmax, rfl⟩ := h
    exact initial_inv hn hmax
  · intro s a t hr I hs
    exact (step_effect hs).inv I fun i x hx => EventLoopThread.reachable_inv (reachable_thread hr hx)

/-! ## Going on -/

theorem thread_step {i : Nat} {x y : EventLoopThread.State T F C} {b : EventLoopThread.Act T F C}
    (hx : s.threads[i]? = some x) (hown : isOwn b = true) (hplaced : Placed s b)
    (hs : (EventLoopThread.lts (tids i) base).step x b y) : (lts tids base).step s (.thread i b) (put s i y) := by
  have hstep : threadStep tids base s i b = some (.ok y) := threadStep_eq.mpr ⟨x, hx, hs⟩
  simp only [lts, step, hstep, if_pos (And.intro hown hplaced)]
  rfl

theorem thread_run {i : Nat} {x y : EventLoopThread.State T F C} {tr : List (EventLoopThread.Act T F C)}
    (hr : (EventLoopThread.lts (tids i) base).Run x tr y) (hown : ∀ b ∈ tr, isOwn b = true ∧ ∀ p, b ≠ .construct p) :
    ∀ s : State T F C, s.threads[i]? = some x → (lts tids base).Run s (tr.map (.thread i)) (put s i y) := by
  induction hr with
  | nil x =>
    intro s hx
    have hsame : put s i x = s := by
      obtain ⟨hlt, rfl⟩ := List.getElem?_eq_some_iff.mp hx
      unfold put
      rw [List.set_getElem_self]
    rw [hsame]
    exact .nil s
  | @cons x b y tr z hs _ ih =>
    intro s hx
    obtain ⟨hb, hnot⟩ := hown b List.mem_cons_self
    have hplaced : Placed s b := by
      cases b with
      | construct p => exact absurd rfl (hnot p)
      | _ => trivial
    have hput : (put s i y).threads[i]? = some y := List.getElem?_set_self (List.getElem?_eq_some_iff.mp hx).1
    have hrest := ih (fun c hc => hown c (List.mem_cons_of_mem b hc)) (put s i y) hput
    have htwice : put (put s i y) i z = put s i z := by
      unfold put
      rw [List.set_set]
    rw [htwice] at hrest
    exact .cons (thread_step hx hb hplaced hs) hrest

theorem exists_free (h : (lts tids base).Reachable s) : ∃ p, Free s p := by
  -- every thread has one loop at most, so finitely many addresses are taken
  obtain ⟨p, hp⟩ := Infinite.exists_notMem_finset
    (s.pool.baseLoop_.toList ++ s.threads.filterMap fun t => t.func.loop?).toFinset
  rw [List.mem_toFinset, List.mem_append, not_or] at hp
  obtain ⟨hbase, hthreads⟩ := hp
  refine ⟨p, ?_, ?_⟩
  · intro hb
    rw [hb] at hbase
    exact hbase (List.mem_singleton_self p)
  · intro x hx
    cases hl : x.loops p with
    | none => rfl
    | some l =>
      obtain ⟨i, hi⟩ := List.getElem?_of_mem hx
      have hloop := (EventLoopThread.reachable_lone (reachable_thread h hi)).only p l hl
      exact absurd (List.mem_filterMap.mpr ⟨x, hx, hloop⟩) hthreads

theorem endStartLoop_step {i : Nat} {x : EventLoopThread.State T F C} {p : Addr} (hpc : s.pc = .waiting i)
    (hx : s.threads[i]? = some x) (hw : x.starting = .waiting) (hp : x.loop_ = some p) :
    ∃ t, (lts tids base).step s .endStartLoop t ∧ t.pc = .starting (i + 1) := by
  have hend : EventLoopThread.step (tids i) base x .endStartLoop = some (.ok { x with starting := .returned x.loop_ }) := by
    simp [EventLoopThread.step, hw, hp]
  have hstep : threadStep tids base s i .endStartLoop = some (.ok { x with starting := .returned x.loop_ }) :=
    threadStep_eq.mpr ⟨x, hx, hend⟩
  refine ⟨pushLoop s i { x with starting := .returned x.loop_ }, ?_, rfl⟩
  simp only [lts, step, hpc, hstep]
  rfl

/-- Steps of the `i`-th thread alone end the wait of `start`. -/
def WaitEnds (tids : Nat → T) (base : T) (s : State T F C) (i : Nat) : Prop :=
  ∃ (tr : List (EventLoopThread.Act T F C)) (t : State T F C),
    (lts tids base).Run s (tr.map (.thread i) ++ [.endStartLoop]) t ∧ t.pc = .starting (i + 1)

theorem wait_ends (h : (lts tids base).Reachable s) {i : Nat} (hpc : s.pc = .waiting i) : WaitEnds tids base s i := by
  have place := (reachable_inv h).place
  rw [hpc] at place
  obtain ⟨-, -, -, -, -, x, hx, hw⟩ := place
  have hlt := (List.getElem?_eq_some_iff.mp hx).1
  have hreach := reachable_thread h hx
  have I := EventLoopThread.reachable_inv hreach
  have v := EventLoopThread.reachable_lone hreach
  -- once the loop is published the wait can end
  have published : ∀ p, x.loop_ = some p → WaitEnds tids base s i := by
    intro p hp
    obtain ⟨t, hs, ht⟩ : ∃ t, (lts tids base).step s .endStartLoop t ∧ t.pc = .starting (i + 1) :=
      endStartLoop_step hpc hx hw hp
    exact ⟨[], t, .single hs, ht⟩
  -- from inside the callback the thread gets there alone
  have calling : ∀ (s : State T F C) x p l, EventLoopThread.Inv (tids i) x → s.pc = .waiting i →
      s.threads[i]? = some x → x.starting = .waiting → x.func = .callback p → x.loops p = some l →
      WaitEnds tids base s i := by
    intro s x p l I hpc hx hw hf hl
    obtain ⟨tr, y, hr, hp, hstarting, hown⟩ : ∃ tr y, (EventLoopThread.lts (tids i) base).Run x tr y ∧ y.loop_ = some p ∧
        y.starting = x.starting ∧ ∀ b ∈ tr, isOwn b = true ∧ ∀ q, b ≠ .construct q :=
      EventLoopThread.callback_publishes I hf hl
    have hrun := thread_run hr hown s hx
    have hy : (put s i y).threads[i]? = some y := List.getElem?_set_self (List.getElem?_eq_some_iff.mp hx).1
    obtain ⟨t, hs, ht⟩ : ∃ t, (lts tids base).step (put s i y) .endStartLoop t ∧ t.pc = .starting (i + 1) :=
      endStartLoop_step hpc hy (hstarting.trans hw) hp
    exact ⟨tr, t, hrun.snoc hs, ht⟩
  cases hf : x.func with
  | notStarted => exact absurd hf (v.begun (by rw [hw]; simp))
  | entered =>
    obtain ⟨p, hfree⟩ := exists_free h
    have hnone := hfree.2 x (List.mem_of_getElem? hx)
    let y : EventLoopThread.State T F C := { x with loops := x.loops.write p EventLoop.initial, func := .callback p }
    have hs : (EventLoopThread.lts (tids i) base).step x (.construct p) y := by
      simp [EventLoopThread.lts, EventLoopThread.step, hf, hnone, y]
    have hplaced : Placed s (.construct p : EventLoopThread.Act T F C) := hfree
    have hfirst := thread_step hx rfl hplaced hs
    have hy : (put s i y).threads[i]? = some y := List.getElem?_set_self hlt
    obtain ⟨tr, t, hr, ht⟩ := calling (put s i y) y p EventLoop.initial
      ((EventLoopThread.step_effect hs).inv I) hpc hy hw rfl (Heap.write_self ..)
    exact ⟨.construct p :: tr, t, .cons hfirst hr, ht⟩
  | callback p =>
    obtain ⟨-, l, hl, -⟩ := I.placed hf
    exact calling s x p l I hpc hx hw hf hl
  | looping p | cleared p => exact published p (I.placed hf).1
  | finished =>
    obtain ⟨p, hp, -⟩ := I.placed hf
    exact published p hp

/-! ## Runs -/

theorem handed_lives (h : (lts tids base).Reachable s) {i : Nat} {loop : Option Addr}
    (hl : s.pool.loops_[i]? = some loop) : ∃ x p, s.threads[i]? = some x ∧ loop = some p ∧ (p, true) ∈ x.published ∧
      (Live s i p ∨ x.func = .finished) := by
  obtain ⟨x, p, hx, rfl, hp⟩ := (reachable_inv h).handed i loop hl
  have I := EventLoopThread.reachable_inv (reachable_thread h hx)
  refine ⟨x, p, hx, rfl, I.published p hp, ?_⟩
  cases hf : x.func with
  | notStarted | entered =>
    have hnone := I.placed hf
    change x.loop_ = none at hnone
    rw [hp] at hnone
    cases hnone
  | callback q =>
    have hnone := (I.placed hf).1
    rw [hp] at hnone
    cases hnone
  | looping q | cleared q =>
    obtain ⟨hq, l, hl⟩ := I.placed hf
    rw [hp] at hq
    cases hq
    exact .inl ⟨x, l, hx, hl⟩
  | finished => exact .inr rfl

/-- **The loops of a pool**, in every interleaving of the base thread with the threads of the pool and
any calls on their loops. What the pool holds as its `i`-th loop is what its `i`-th thread published
while it lived, and it lives until that thread is over; two of them that live are at different
addresses, and none is at that of the base loop. `start()` never waits in vain. Behind it `getNextLoop()` returns
one of the loops. And the destructor ends in the assertion of its first join, if it gets there. -/
theorem loops_live (h : (lts tids base).Reachable s) :
    (∀ i loop, s.pool.loops_[i]? = some loop → ∃ x p, s.threads[i]? = some x ∧ loop = some p ∧ (p, true) ∈ x.published ∧
      (Live s i p ∨ x.func = .finished)) ∧
    (∀ i j p, Live s i p → (Live s j p → i = j) ∧ s.pool.baseLoop_ ≠ some p) ∧
    (∀ i, s.pc = .waiting i → WaitEnds tids base s i) ∧
    (s.pc = .outside → s.pool.started_ = true → 0 < s.pool.numThreads_ →
      ∃ t i, (lts tids base).step s (.getNextLoop base) t ∧ i < s.pool.loops_.length ∧
        EventLoopThreadPool.getNextLoop (fun _ => base) s.pool base = .ok (s.pool.loops_[i]?, t.pool)) ∧
    (∀ i, s.pc = .destroying i → i = 0) ∧
    ∀ r, step tids base s (.dtor .join) = some r → r = .error .assertion := by
  have I := reachable_inv h
  refine ⟨fun i loop hl => handed_lives h hl, ?_, fun i hpc => wait_ends h hpc, ?_, ?_, ?_⟩
  · intro i j p hi
    exact ⟨fun hj => I.apart i j p hi hj, I.base i p hi⟩
  · intro hpc hstarted hpos
    have place := I.place
    rw [hpc] at place
    rcases place with ⟨hno, -⟩ | hs
    · rw [hstarted] at hno
      cases hno
    · have hsize := hs.size
      have hne : s.pool.loops_ ≠ [] := by
        intro hnil
        rw [hnil] at hsize
        simp only [List.length_nil] at hsize
        omega
      obtain ⟨k, hk⟩ := hs.atTurn
      have hready : EventLoopThreadPool.Ready (fun _ => base) s.pool base := hs.ready I.nonneg I.range
      have hnext := EventLoopThreadPool.getNextLoop_eq hready hne k
      rw [← hk] at hnext
      have hturn : some (Rotation.turn s.pool.loops_ hne k) = s.pool.loops_[k % s.pool.loops_.length]? :=
        (List.getElem?_eq_getElem _).symm
      refine ⟨{ s with pool := s.pool.atTurn (k + 1) }, k % s.pool.loops_.length, ?_, ?_, ?_⟩
      · simp only [lts, step, if_pos hpc, hnext]
        rfl
      · exact Nat.mod_lt k (List.length_pos_of_ne_nil hne)
      · rw [hnext, hturn]
  · intro i hpc
    have place := I.place
    rw [hpc] at place
    exact place.1
  · intro r hr
    simp only [step] at hr
    split at hr
    · rename_i i hpc
      simp only [isDtor, if_true, Option.map_eq_some_iff] at hr
      obtain ⟨q, hq, rfl⟩ := hr
      obtain ⟨x, hx, hq⟩ := threadStep_eq.mp hq
      rw [(EventLoopThread.reachable_inv (reachable_thread h hx)).join_fails hq]
      rfl
    · cases hr

/-! ## A pool of two threads -/

theorem reachable_two : ∃ s : State Nat Nat Unit, (lts Nat.succ 0).Reachable s ∧ s.pc = .outside ∧
    s.pool.started_ = true ∧ s.pool.numThreads_ = 2 ∧ s.pool.loops_ = [some 7, some 8] ∧ Live s 0 7 ∧ Live s 1 8 := by
  have h₀ : (lts Nat.succ 0).Reachable (initial 1 ['p'] 2 : State Nat Nat Unit) :=
    .init ⟨1, ['p'], 2, by decide, by decide, rfl⟩
  have h₁ := h₀.step (a := .start 0) (by rfl)
  have h₂ := h₁.step (a := .newThread (some 5)) (by rfl)
  have h₃ := h₂.step (a := .thread 0 (.construct 7)) (by rfl)
  have h₄ := h₃.step (a := .thread 0 .publish) (by rfl)
  have h₅ := h₄.step (a := .endStartLoop) (by rfl)
  have h₆ := h₅.step (a := .newThread (some 6)) (by rfl)
  have h₇ := h₆.step (a := .thread 1 (.construct 8)) (by rfl)
  have h₈ := h₇.step (a := .thread 0 (.loop .loop)) (by rfl)
  have h₉ := h₈.step (a := .thread 1 .publish) (by rfl)
  have h₁₀ := h₉.step (a := .endStartLoop) (by rfl)
  have h₁₁ := h₁₀.step (a := .endStart) (by rfl)
  exact ⟨_, h₁₁, rfl, rfl, rfl, rfl, ⟨_, _, rfl, rfl⟩, _, _, rfl, rfl⟩

theorem loops_live_two : ∃ (s : State Nat Nat Unit) (x y : EventLoopThread.State Nat Nat Unit),
    s.threads[0]? = some x ∧ (7, true) ∈ x.published ∧ s.threads[1]? = some y ∧ (8, true) ∈ y.published ∧
      (¬ Live s 1 7 ∧ ¬ Live s 0 8) ∧
      ∃ t i, (lts Nat.succ 0).step s (.getNextLoop 0) t ∧ i < s.pool.loops_.length ∧
        EventLoopThreadPool.getNextLoop (fun _ => 0) s.pool 0 = .ok (s.pool.loops_[i]?, t.pool) := by
  obtain ⟨s, hreach, hpc, hstarted, hn, hloops, hlive₀, hlive₁⟩ := reachable_two
  obtain ⟨hlive, hapart, -, hnext, -⟩ := loops_live hreach
  obtain ⟨x, p, hx, hp, hpub, -⟩ := hlive 0 (some 7) (by rw [hloops]; rfl)
  cases hp
  obtain ⟨y, q, hy, hq, hqub, -⟩ := hlive 1 (some 8) (by rw [hloops]; rfl)
  cases hq
  refine ⟨s, x, y, hx, hpub, hy, hqub, ⟨?_, ?_⟩, hnext hpc hstarted (by rw [hn]; decide)⟩
  · intro h
    cases (hapart 1 0 7 h).1 hlive₀
  · intro h
    cases (hapart 0 1 8 h).1 hlive₁

end PoolThreads

end MyLearning
