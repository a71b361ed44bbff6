import Mathlib.Logic.Function.Basic
import MyLearning.MyMuduo.PoolLoops

/-!
# Starting a pool, in one thread and against its threads

`EventLoopThreadPool.start` calls `startLoop` as a function of the thread's name. Run against the
threads, whatever they do while it waits, it leaves the pool that this function gives with
the loops the threads have published: their names tell them apart.
-/

namespace MyLearning

namespace EventLoopThreadPool

variable {L : Type} {pool : EventLoopThreadPool L} {startLoop : List Char → Except Fault L}

theorem threadName_eq {i : Int} (hi : i.natAbs < 10 ^ 10) :
    pool.threadName i = CString.text pool.name_ ++ Printf.number i := by
  unfold threadName
  refine Printf.snprintf_fits ?_
  -- ten digits and a sign are eleven characters at most
  have hnumber := Printf.length_number_le (k := 10) (by decide) hi
  have htext : (CString.text pool.name_).length ≤ pool.name_.length := (List.takeWhile_sublist _).length_le
  rw [List.length_append]
  omega

theorem threadName_inj {i j : Int} (hi : 0 ≤ i) (hj : 0 ≤ j) (hi' : i < 2 ^ 31) (hj' : j < 2 ^ 31)
    (h : pool.threadName i = pool.threadName j) : i = j := by
  rw [threadName_eq (by omega), threadName_eq (by omega)] at h
  exact Printf.number_inj hi hj (List.append_cancel_left h)

theorem startFrom_eq {loops : List L} : ∀ {pool : EventLoopThreadPool L} {i : Nat},
    ((i + loops.length : Nat) : Int) = pool.numThreads_ →
    (∀ j loop, loops[j]? = some loop → startLoop (pool.threadName (i + j : Nat)) = .ok loop) →
    startFrom startLoop pool i = .ok
      { pool with
        threads_ := pool.threads_ ++ (List.range loops.length).map fun j => pool.threadName (i + j : Nat)
        loops_ := pool.loops_ ++ loops } := by
  induction loops with
  | nil =>
    intro pool i hlen _
    rw [startFrom, if_neg (by simp only [List.length_nil] at hlen; omega)]
    simp
  | cons loop loops ih =>
    intro pool i hlen hl
    rw [List.length_cons] at hlen
    have hfirst : startLoop (pool.threadName i) = .ok loop := hl 0 loop rfl
    rw [startFrom, if_pos (by omega), hfirst, ok_bind]
    have hrest := @ih { pool with
        threads_ := pool.threads_ ++ [pool.threadName i], loops_ := pool.loops_ ++ [loop] } (i + 1)
      (by simp only; omega) ?_
    · rw [show (i : Int) + 1 = ((i + 1 : Nat) : Int) from rfl, hrest]
      have hnames : ∀ j : Nat, i + 1 + j = i + (j + 1) := fun j => by omega
      simp only [List.length_cons, List.range_succ_eq_map, List.map_cons, List.map_map, List.append_assoc,
        List.singleton_append, Nat.add_zero]
      congr 4
      refine List.map_congr_left ?_
      intro j _
      show pool.threadName (i + 1 + j : Nat) = pool.threadName (i + (j + 1) : Nat)
      rw [hnames j]
    · intro j x hx
      have := hl (j + 1) x hx
      rwa [show i + (j + 1) = i + 1 + j by omega] at this

end EventLoopThreadPool

namespace PoolThreads

variable {T F C : Type} {s : State T F C}

/-- `startLoop` gives for the name of each thread the loop that it has published. -/
def Answers (startLoop : List Char → Except Fault (Option Addr)) (s : State T F C) : Prop :=
  ∀ (i : Nat) x, s.threads[i]? = some x → startLoop (s.pool.threadName i) = .ok x.loop_

theorem Inv.exists_answers (I : Inv s) (hlen : s.threads.length ≤ s.pool.numThreads_.toNat) :
    ∃ startLoop, Answers startLoop s := by
  have hmax := I.range
  let names : Fin s.threads.length → List Char := fun i => s.pool.threadName (i : Nat)
  have hinj : Function.Injective names := by
    intro i j h
    have hi := i.isLt
    have hj := j.isLt
    have he := EventLoopThreadPool.threadName_inj (by omega) (by omega) (by omega) (by omega) h
    exact Fin.ext (by omega)
  let loops : Fin s.threads.length → Except Fault (Option Addr) := fun i => .ok s.threads[i].loop_
  refine ⟨Function.extend names loops fun _ => .error .fatal, ?_⟩
  intro i x hx
  obtain ⟨hlt, rfl⟩ := List.getElem?_eq_some_iff.mp hx
  exact hinj.extend_apply loops _ ⟨i, hlt⟩

variable [DecidableEq T] {tids : Nat → T} {base : T}

/-- **Starting.** However the threads of the pool and the calls on their loops interleave with `start()`,
the pool behind it is what `start` gives in one go where `startLoop` answers for each name with the loop that the
thread of this name has published; and there is such a `startLoop`, since the names are different. -/
theorem start_refines (h : (lts tids base).Reachable s) (hpc : s.pc = .outside) (hstarted : s.pool.started_ = true) :
    (∃ startLoop, Answers startLoop s) ∧
    ∀ startLoop, Answers startLoop s → ∀ cb,
      EventLoopThreadPool.start (fun _ => base) startLoop
          (.setThreadNum (.create s.pool.baseLoop_ s.pool.name_) s.pool.numThreads_) cb base =
        .ok ({ s.pool with next_ := 0 }, if s.pool.numThreads_ = 0 ∧ cb = true then [s.pool.baseLoop_] else []) := by
  have I := reachable_inv h
  have place := I.place
  rw [hpc] at place
  obtain ⟨hno, -⟩ | hs := place
  · rw [hstarted] at hno
    cases hno
  · have hsize := hs.size
    have hthreads := hs.threads
    have hn := I.nonneg
    refine ⟨I.exists_answers (by omega), ?_⟩
    intro startLoop hanswers cb
    let pool : EventLoopThreadPool (Option Addr) :=
      { EventLoopThreadPool.setThreadNum (.create s.pool.baseLoop_ s.pool.name_) s.pool.numThreads_ with started_ := true }
    -- the pool before its loop, and what the loop of `start` puts into it
    have hloops : ∀ j loop, s.pool.loops_[j]? = some loop → startLoop (pool.threadName (0 + j : Nat)) = .ok loop := by
      intro j loop hj
      obtain ⟨x, p, hx, rfl, hp⟩ := I.handed j loop hj
      rw [Nat.zero_add, ← hp]
      exact hanswers j x hx
    have hnames : s.pool.threads_ =
        pool.threads_ ++ (List.range s.pool.loops_.length).map fun j : Nat => pool.threadName (0 + j : Nat) := by
      rw [I.names, hthreads]
      simp only [Nat.zero_add]
      rfl
    have hfrom : EventLoopThreadPool.startFrom startLoop pool 0 = .ok { s.pool with next_ := 0 } := by
      have hlen : ((0 + s.pool.loops_.length : Nat) : Int) = pool.numThreads_ := by
        show _ = s.pool.numThreads_
        omega
      refine (EventLoopThreadPool.startFrom_eq hlen hloops).trans ?_
      rw [← hnames]
      simp only [pool, EventLoopThreadPool.setThreadNum, EventLoopThreadPool.create, hs.started, List.nil_append]
    refine bind_eq_ok.mpr ⟨(), check_pos rfl, bind_eq_ok.mpr ⟨(), ?_, bind_eq_ok.mpr ⟨_, hfrom, rfl⟩⟩⟩
    exact EventLoopThreadPool.assertInLoopThread_eq rfl

theorem start_refines_two : ∃ s : State Nat Nat Unit, s.pool.loops_ = [some 7, some 8] ∧ ∃ startLoop, Answers startLoop s ∧
    EventLoopThreadPool.start (fun _ => 0) startLoop (.setThreadNum (.create s.pool.baseLoop_ s.pool.name_) 2) true 0 =
      .ok ({ s.pool with next_ := 0 }, []) := by
  obtain ⟨s, hreach, hpc, hstarted, hn, hloops, -⟩ := reachable_two
  obtain ⟨⟨startLoop, hanswers⟩, hstart⟩ := start_refines hreach hpc hstarted
  have h := hstart startLoop hanswers true
  rw [hn] at h
  exact ⟨s, hloops, startLoop, hanswers, h⟩

end PoolThreads

end MyLearning
