import MyLearning.Lib.Checked
import MyLearning.Lib.CString
import MyLearning.Lib.Printf
import MyLearning.Lib.Rotation

/-!
# A pool of loops

`start` makes a thread with a loop for each of `numThreads_`, and `getNextLoop` hands the loops out in turn.
Where there is none it ends without a `return`, although `getAllLoops` and `getLoopForHash`
answer with the base loop then.

A loop is its address, and `threadId` the thread that it was made in. In `start`, `buf.size()` is read as the
length of the array, and in `getLoopForHash` the stray period is left out.
-/

namespace MyLearning

structure EventLoopThreadPool (L : Type) where
  baseLoop_ : L
  name_ : List Char
  started_ : Bool
  numThreads_ : Int
  next_ : Int
  threads_ : List (List Char)
  loops_ : List L

namespace EventLoopThreadPool

variable {L T : Type}

/-! ## The functions of the source -/

def create (baseLoop : L) (nameArg : List Char) : EventLoopThreadPool L where
  baseLoop_ := baseLoop
  name_ := nameArg
  started_ := false
  numThreads_ := 0
  next_ := 0
  threads_ := []
  loops_ := []

def setThreadNum (pool : EventLoopThreadPool L) (numThreads : Int) : EventLoopThreadPool L :=
  { pool with numThreads_ := numThreads }

def threadName (pool : EventLoopThreadPool L) (i : Int) : List Char :=
  Printf.snprintf (pool.name_.length + 32) (CString.text pool.name_ ++ Printf.number i)

def loopAt (pool : EventLoopThreadPool L) (i : Nat) : Except Fault L :=
  match pool.loops_[i]? with
  | some loop => .ok loop
  | none => .error .bounds

/-- The loop of `start` from `i` on. `startLoop` gives the loop of the thread of a name. -/
def startFrom (startLoop : List Char → Except Fault L) (pool : EventLoopThreadPool L) (i : Int) :
    Except Fault (EventLoopThreadPool L) :=
  if i < pool.numThreads_ then do
    let loop ← startLoop (pool.threadName i)
    startFrom startLoop
      { pool with threads_ := pool.threads_ ++ [pool.threadName i], loops_ := pool.loops_ ++ [loop] } (i + 1)
  else .ok pool
termination_by (pool.numThreads_ - i).toNat

variable [DecidableEq T] (threadId : L → T)

def assertInLoopThread (loop : L) (th : T) : Except Fault Unit := if threadId loop = th then .ok () else .error .fatal

/-- The pool afterwards, and the loops that `start` itself calls back. `cb` tells whether there is a callback. -/
def start (startLoop : List Char → Except Fault L) (pool : EventLoopThreadPool L) (cb : Bool) (th : T) :
    Except Fault (EventLoopThreadPool L × List L) := do
  check (pool.started_ = false)
  assertInLoopThread threadId pool.baseLoop_ th
  let pool ← startFrom startLoop { pool with started_ := true } 0
  return (pool, if pool.numThreads_ = 0 ∧ cb = true then [pool.baseLoop_] else [])

/-- The loop that the call returns, `none` where it ends without a `return`. -/
def getNextLoop (pool : EventLoopThreadPool L) (th : T) : Except Fault (Option L × EventLoopThreadPool L) := do
  assertInLoopThread threadId pool.baseLoop_ th
  check (pool.started_ = true)
  if pool.loops_.isEmpty = false then
    let loop ← pool.loopAt (sizeT pool.next_)
    let next ← int32 (pool.next_ + 1)
    return (some loop, { pool with next_ := if pool.loops_.length ≤ sizeT next then 0 else next })
  else return (none, pool)

def getLoopForHash (pool : EventLoopThreadPool L) (hashCode : Nat) (th : T) : Except Fault L := do
  assertInLoopThread threadId pool.baseLoop_ th
  if pool.loops_.isEmpty = false then pool.loopAt (hashCode % pool.loops_.length) else return pool.baseLoop_

def getAllLoops (pool : EventLoopThreadPool L) (th : T) : Except Fault (List L) := do
  assertInLoopThread threadId pool.baseLoop_ th
  check (pool.started_ = true)
  return if pool.loops_.isEmpty then [pool.baseLoop_] else pool.loops_

/-! ## Calls of getNextLoop -/

def calls (pool : EventLoopThreadPool L) (th : T) : Nat → Except Fault (List (Option L) × EventLoopThreadPool L)
  | 0 => .ok ([], pool)
  | k + 1 => do
    let (loop, pool) ← getNextLoop threadId pool th
    let (loops, pool) ← calls pool th k
    return (loop :: loops, pool)

/-- Every call returns one of the loops, and `max(n,1)` calls behind any others return each of them once. -/
def RoundRobin (pool : EventLoopThreadPool L) (th : T) : Prop :=
  ∃ all, getAllLoops threadId pool th = .ok all ∧ ∀ k, ∃ loops pool', calls threadId pool th k = .ok (loops, pool') ∧
    (∀ r ∈ loops, ∃ loop ∈ all, r = some loop) ∧
    ∃ round pool'', calls threadId pool' th (max pool.numThreads_.toNat 1) = .ok (round, pool'') ∧
      round.Perm (all.map some)

/-! ## Starting -/

theorem startFrom_ok {startLoop : List Char → Except Fault L} {pool pool' : EventLoopThreadPool L} {i : Int}
    (h : startFrom startLoop pool i = .ok pool') (hi : i ≤ pool.numThreads_) :
    ∃ threads loops, pool' = { pool with threads_ := pool.threads_ ++ threads, loops_ := pool.loops_ ++ loops } ∧
      (loops.length : Int) = pool.numThreads_ - i := by
  rw [startFrom] at h
  by_cases hlt : i < pool.numThreads_
  · rw [if_pos hlt] at h
    obtain ⟨loop, -, h⟩ := bind_eq_ok.mp h
    obtain ⟨threads, loops, rfl, hlen⟩ := startFrom_ok h (by simp only; omega)
    refine ⟨pool.threadName i :: threads, loop :: loops, by simp, ?_⟩
    simp only [List.length_cons] at hlen ⊢
    omega
  · rw [if_neg hlt] at h
    cases h
    exact ⟨[], [], by simp, by simp only [List.length_nil]; omega⟩
termination_by (pool.numThreads_ - i).toNat

/-- A pool after `start`, as the thread `th` of its base loop finds it. -/
structure Ready (threadId : L → T) (pool : EventLoopThreadPool L) (th : T) : Prop where
  owner : threadId pool.baseLoop_ = th
  started : pool.started_ = true
  size : pool.numThreads_ = pool.loops_.length
  range : pool.loops_.length < 2 ^ 31

variable {threadId} {pool pool' : EventLoopThreadPool L} {th : T}

theorem assertInLoopThread_eq_ok {loop : L} {u : Unit} (h : assertInLoopThread threadId loop th = .ok u) :
    threadId loop = th := by
  unfold assertInLoopThread at h
  by_cases hth : threadId loop = th
  · exact hth
  · rw [if_neg hth] at h
    cases h

theorem start_ready {startLoop : List Char → Except Fault L} {cb : Bool} {called : List L}
    (h : start threadId startLoop pool cb th = .ok (pool', called)) (hloops : pool.loops_ = [])
    (hn : 0 ≤ pool.numThreads_) (hmax : pool.numThreads_ < 2 ^ 31) :
    Ready threadId pool' th ∧ pool'.numThreads_ = pool.numThreads_ ∧ pool'.next_ = pool.next_ := by
  obtain ⟨-, -, h⟩ := bind_eq_ok.mp h
  obtain ⟨_, howner, h⟩ := bind_eq_ok.mp h
  obtain ⟨pool₁, hfrom, h⟩ := bind_eq_ok.mp h
  cases h
  obtain ⟨threads, loops, rfl, hlen⟩ := startFrom_ok hfrom hn
  simp only [sub_zero] at hlen
  refine ⟨⟨assertInLoopThread_eq_ok howner, rfl, ?_, ?_⟩, rfl, rfl⟩
  · simp [hloops, hlen]
  · simp only [hloops, List.nil_append]
    omega

/-! ## Turns -/

theorem assertInLoopThread_eq {loop : L} (h : threadId loop = th) : assertInLoopThread threadId loop th = .ok () :=
  if_pos h

def atTurn (pool : EventLoopThreadPool L) (i : ℕ) : EventLoopThreadPool L :=
  { pool with next_ := (i % pool.loops_.length : ℕ) }

theorem add_one_wrap {i n : ℕ} (hn : 0 < n) : (i + 1) % n = if n ≤ i % n + 1 then 0 else i % n + 1 := by
  have hlt := Nat.mod_lt i hn
  rw [← Nat.mod_add_mod]
  by_cases hwrap : n ≤ i % n + 1
  · have heq : i % n + 1 = n := by omega
    rw [if_pos hwrap, heq, Nat.mod_self]
  · rw [if_neg hwrap, Nat.mod_eq_of_lt (by omega)]

theorem getNextLoop_eq (hp : Ready threadId pool th) (hne : pool.loops_ ≠ []) (i : ℕ) :
    getNextLoop threadId (pool.atTurn i) th = .ok (some (Rotation.turn pool.loops_ hne i), pool.atTurn (i + 1)) := by
  have hpos := List.length_pos_of_ne_nil hne
  have hlt := Nat.mod_lt i hpos
  have hrange := hp.range
  have hempty : (pool.atTurn i).loops_.isEmpty = false := by simpa [atTurn] using hne
  have hsize : sizeT (pool.atTurn i).next_ = i % pool.loops_.length := sizeT_natCast (by omega)
  have hat : (pool.atTurn i).loopAt (i % pool.loops_.length) = .ok (Rotation.turn pool.loops_ hne i) := by
    unfold loopAt atTurn
    rw [List.getElem?_eq_getElem hlt]
    rfl
  have hnext : int32 ((pool.atTurn i).next_ + 1) = .ok ((i % pool.loops_.length + 1 : ℕ) : Int) :=
    int32_eq_ok.mpr ⟨⟨by simp only [atTurn]; omega, by simp only [atTurn]; omega⟩, by simp only [atTurn]; omega⟩
  have hthread : assertInLoopThread threadId (pool.atTurn i).baseLoop_ th = .ok () := assertInLoopThread_eq hp.owner
  have hstarted : check ((pool.atTurn i).started_ = true) = .ok () := check_pos hp.started
  unfold getNextLoop
  rw [hthread, ok_bind, hstarted, ok_bind, if_pos hempty, hsize, hat, ok_bind, hnext, ok_bind, sizeT_natCast (by omega)]
  unfold atTurn
  rw [add_one_wrap hpos]
  by_cases hwrap : pool.loops_.length ≤ i % pool.loops_.length + 1
  · rw [if_pos hwrap, if_pos hwrap]
    rfl
  · rw [if_neg hwrap, if_neg hwrap]
    rfl

theorem getNextLoop_empty (hp : Ready threadId pool th) (hnil : pool.loops_ = []) :
    getNextLoop threadId pool th = .ok (none, pool) := by
  unfold getNextLoop
  rw [assertInLoopThread_eq hp.owner, ok_bind, check_pos hp.started, ok_bind, if_neg (by simp [hnil])]
  rfl

theorem calls_eq (hp : Ready threadId pool th) (hne : pool.loops_ ≠ []) (k : ℕ) : ∀ i,
    calls threadId (pool.atTurn i) th k =
      .ok ((Rotation.turns pool.loops_ hne i k).map some, pool.atTurn (i + k)) := by
  induction k with
  | zero => intro i; rfl
  | succ k ih =>
    intro i
    rw [calls, getNextLoop_eq hp hne, ok_bind]
    simp only
    rw [ih, ok_bind, Nat.add_right_comm i 1 k]
    rfl

theorem getAllLoops_eq (hp : Ready threadId pool th) :
    getAllLoops threadId pool th = .ok (if pool.loops_.isEmpty then [pool.baseLoop_] else pool.loops_) := by
  unfold getAllLoops
  rw [assertInLoopThread_eq hp.owner, ok_bind, check_pos hp.started]
  rfl

theorem getLoopForHash_mem (hp : Ready threadId pool th) (hashCode : Nat) : ∃ loop all,
    getLoopForHash threadId pool hashCode th = .ok loop ∧ getAllLoops threadId pool th = .ok all ∧ loop ∈ all := by
  rw [getAllLoops_eq hp]
  unfold getLoopForHash
  rw [assertInLoopThread_eq hp.owner, ok_bind]
  cases hempty : pool.loops_.isEmpty with
  | true =>
    rw [if_neg (by simp), if_pos rfl]
    exact ⟨_, _, rfl, rfl, List.mem_singleton_self _⟩
  | false =>
    have hne : pool.loops_ ≠ [] := by simpa using hempty
    have hlt := Nat.mod_lt hashCode (List.length_pos_of_ne_nil hne)
    rw [if_pos rfl, if_neg (by simp)]
    unfold loopAt
    rw [List.getElem?_eq_getElem hlt]
    exact ⟨_, _, rfl, rfl, List.getElem_mem hlt⟩

theorem Ready.roundRobin (hp : Ready threadId pool th) (hne : pool.loops_ ≠ []) (hnext : pool.next_ = 0) :
    RoundRobin threadId pool th := by
  have hpos := List.length_pos_of_ne_nil hne
  have hall := getAllLoops_eq hp
  rw [if_neg (by simpa using hne)] at hall
  have hfirst : pool.atTurn 0 = pool := by
    rw [atTurn, Nat.zero_mod, Nat.cast_zero, ← hnext]
  refine ⟨_, hall, ?_⟩
  intro k
  have hcalls := calls_eq hp hne k 0
  rw [hfirst] at hcalls
  refine ⟨_, _, hcalls, ?_, ?_⟩
  · intro r hr
    obtain ⟨loop, hloop, rfl⟩ := List.mem_map.mp hr
    exact ⟨loop, Rotation.mem_turns hloop, rfl⟩
  · have hround : max pool.numThreads_.toNat 1 = pool.loops_.length := by
      rw [hp.size, Int.toNat_natCast, max_eq_left hpos]
    rw [hround]
    exact ⟨_, _, calls_eq hp hne _ _, (Rotation.turns_perm hne _).map some⟩

theorem Ready.not_roundRobin (hp : Ready threadId pool th) (hnil : pool.loops_ = []) :
    ¬ RoundRobin threadId pool th := by
  intro h
  obtain ⟨all, -, h⟩ := h
  obtain ⟨loops, pool', hcalls, hmem, -⟩ := h 1
  rw [show calls threadId pool th 1 = .ok ([none], pool) by
    simp only [calls, getNextLoop_empty hp hnil, ok_bind]
    rfl] at hcalls
  cases hcalls
  obtain ⟨loop, -, hr⟩ := hmem none (List.mem_singleton_self none)
  cases hr

/-- **Taking turns.** The calls of `getNextLoop` on a started pool of `n` threads all return a loop of the pool, each
of `max(n,1)` loops once in as many calls, if and only if there is a thread. -/
theorem round_robin_iff (startLoop : List Char → Except Fault L) (baseLoop : L) (name : List Char) (n : Int) (cb : Bool)
    (th : T) (called : List L) (hn : 0 ≤ n) (hmax : n < 2 ^ 31)
    (hstart : start threadId startLoop (setThreadNum (create baseLoop name) n) cb th = .ok (pool, called)) :
    RoundRobin threadId pool th ↔ n ≠ 0 := by
  obtain ⟨hp, hsize, hnext⟩ := start_ready hstart rfl hn hmax
  have hlen : (pool.loops_.length : Int) = n := hp.size.symm.trans hsize
  constructor
  · intro h hzero
    refine hp.not_roundRobin ?_ h
    rw [← List.length_eq_zero_iff]
    omega
  · intro hpos
    refine hp.roundRobin ?_ hnext
    intro hnil
    rw [hnil] at hlen
    exact hpos hlen.symm

/-- Two threads, each with a loop that is called as the thread is. -/
theorem round_robin_two : ∃ (pool : EventLoopThreadPool (List Char)) (called : List (List Char)),
    start (fun _ => ()) .ok (setThreadNum (create [] ['p']) 2) true () = .ok (pool, called) ∧
      pool.loops_ = [['p', '0'], ['p', '1']] ∧ RoundRobin (fun _ => ()) pool () := by
  have hfrom : startFrom .ok { setThreadNum (create [] ['p']) 2 with started_ := true } 0 =
      .ok ⟨[], ['p'], true, 2, 0, [['p', '0'], ['p', '1']], [['p', '0'], ['p', '1']]⟩ := by
    rw [startFrom, if_pos (by decide), ok_bind, startFrom, if_pos (by decide), ok_bind, startFrom, if_neg (by decide)]
    rfl
  have hstart : start (fun _ => ()) .ok (setThreadNum (create [] ['p']) 2) true () =
      .ok (⟨[], ['p'], true, 2, 0, [['p', '0'], ['p', '1']], [['p', '0'], ['p', '1']]⟩, []) := by
    unfold start
    rw [hfrom]
    rfl
  exact ⟨_, _, hstart, rfl, (round_robin_iff .ok [] ['p'] 2 true () [] (by decide) (by decide) hstart).mpr (by decide)⟩

/-- A pool without threads, whose call of `getNextLoop` ends without a loop. -/
theorem no_loop_returned : ∃ pool : EventLoopThreadPool Nat,
    start (fun _ => ()) (fun _ => .error .fatal) (setThreadNum (create 1 []) 0) true () = .ok (pool, [1]) ∧
      ¬ RoundRobin (fun _ => ()) pool () := by
  have hfrom : startFrom (fun _ => .error .fatal) { setThreadNum (create 1 []) 0 with started_ := true } 0 =
      .ok (⟨1, [], true, 0, 0, [], []⟩ : EventLoopThreadPool Nat) := by
    rw [startFrom, if_neg (by decide)]
    rfl
  refine ⟨⟨1, [], true, 0, 0, [], []⟩, ?_, ?_⟩
  · unfold start
    rw [hfrom]
    rfl
  · exact Ready.not_roundRobin ⟨rfl, rfl, rfl, by decide⟩ rfl

end EventLoopThreadPool

end MyLearning
