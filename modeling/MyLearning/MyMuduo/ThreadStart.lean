import MyLearning.MyMuduo.Thread

/-!
# Starting a thread, step by step

`Thread::start` gives the new OS thread a `ThreadData` with pointers to its own `tid_` and `latch_`,
and waits at the latch. The OS thread writes the id, counts the latch down, forgets both
pointers, runs the function and deletes the data. Here the two sides take their steps in any order, and
the owner may destroy the `Thread` while the function runs.

With one start, the owner sees what `start` in a single step would give it, and no step of the OS thread
fails. The assertion in `start` does not rule out a second one. Then at most one of the OS threads gets past the latch.
-/

namespace MyLearning.ThreadStart

/-- Whether the pointers are still set. -/
structure ThreadData where
  tid_ : Bool
  latch_ : Bool
  deriving DecidableEq, Repr

/-- Where `startThread` stands: in front of the write to `*tid_`, in front of `count_down`, in `func_`, in
front of `delete data`, or behind it. -/
inductive Pc where
  | entry
  | countDown
  | function
  | deleting
  | finished
  deriving DecidableEq, Repr

structure Child where
  tid : Nat
  data : Addr
  pc : Pc
  deriving DecidableEq, Repr

inductive Owner where
  | idle
  | waiting
  deriving DecidableEq, Repr

structure State where
  thread : Thread.State
  data : Heap ThreadData
  children : List Child
  owner : Owner

def initial : State where
  thread := Thread.initial
  data := fun _ => none
  children := []
  owner := .idle

/-! ## The functions of the source -/

def start (s : State) (tid : Option Nat) (data : Addr) : Except Fault State := do
  check (s.thread.started = false)
  match tid with
  | none => .error .fatal
  | some tid => return {
      thread := Thread.pthreadCreate s.thread
      data := s.data.write data ⟨true, true⟩
      children := s.children ++ [⟨tid, data, .entry⟩]
      owner := .waiting }

def endStart (s : State) : Except Fault State := do
  check (0 < s.thread.tid)
  return { s with owner := .idle }

/-- An access to a member of the `Thread` through a pointer in the data. -/
def reach (s : State) (pointer : Bool) : Except Fault Unit :=
  if pointer = true ∧ s.thread.ended = false then .ok () else .error .dangling

/-- One statement of `startThread` and `runInThread` in the OS thread `i`. A latch has no count below zero. -/
def runChild (s : State) (i : Nat) (c : Child) : Except Fault State :=
  match c.pc with
  | .entry => do
    let d ← s.data.deref c.data
    reach s d.tid_
    return { s with
      thread := { s.thread with tid := c.tid }
      data := s.data.write c.data { d with tid_ := false }
      children := s.children.set i { c with pc := .countDown } }
  | .countDown => do
    let d ← s.data.deref c.data
    reach s d.latch_
    if s.thread.latch = 0 then .error .overflow
    else return { s with
      thread := { s.thread with latch := s.thread.latch - 1 }
      data := s.data.write c.data { d with latch_ := false }
      children := s.children.set i { c with pc := .function } }
  | .function => return { s with children := s.children.set i { c with pc := .deleting } }
  | .deleting => do
    let data ← s.data.free c.data
    return { s with data := data, children := s.children.set i { c with pc := .finished } }
  | .finished => return s

def join (s : State) : Except Fault State := do
  let thread ← Thread.join s.thread
  return { s with thread := thread }

def destroy (s : State) : State := { s with thread := Thread.destroy s.thread }

/-! ## The system -/

inductive Act where
  | start (tid : Option Nat) (data : Addr)
  | endStart
  | join
  | destroy
  | child (i : Nat) (c : Child)
  deriving DecidableEq, Repr

/-- The owner makes its calls one after the other, and none behind the destructor. -/
def Permitted (s : State) : Act → Prop
  | .start tid data => s.thread.ended = false ∧ s.owner = .idle ∧ s.data data = none ∧ ∀ n, tid = some n → 0 < n
  | .endStart => s.owner = .waiting ∧ s.thread.latch = 0
  | .join => s.thread.ended = false ∧ s.owner = .idle
  | .destroy => s.thread.ended = false ∧ s.owner = .idle
  | .child i c => s.children[i]? = some c ∧ c.pc ≠ .finished

def exec (s : State) : Act → Except Fault State
  | .start tid data => start s tid data
  | .endStart => endStart s
  | .join => join s
  | .destroy => .ok (destroy s)
  | .child i c => runChild s i c

def lts : Lts State Act where
  init s := s = initial
  step s a t := Permitted s a ∧ exec s a = .ok t

def Once (s : State) : Act → Prop
  | .start _ _ => s.children = []
  | _ => True

/-! ## One start -/

/-- The `Thread` while its only start is under way, from what it was at the call. -/
def threadOf (x : Thread.State) (c : Child) : Thread.State :=
  match c.pc with
  | .entry => Thread.pthreadCreate x
  | .countDown => { Thread.pthreadCreate x with tid := c.tid }
  | _ => Thread.runInThread (Thread.pthreadCreate x) c.tid

def Child.threadData (c : Child) : Option ThreadData :=
  match c.pc with
  | .entry => some ⟨true, true⟩
  | .countDown => some ⟨false, true⟩
  | .function => some ⟨false, false⟩
  | .deleting => some ⟨false, false⟩
  | .finished => none

def dataOf (c : Child) : Heap ThreadData := Function.update (fun _ => none) c.data c.threadData

def Child.Past (c : Child) : Prop := c.pc ≠ .entry ∧ c.pc ≠ .countDown

instance (c : Child) : Decidable c.Past := inferInstanceAs (Decidable (c.pc ≠ .entry ∧ c.pc ≠ .countDown))

/-- `x` is the `Thread` that a start in one step would have made: while it is under way, what it was before. -/
inductive Refines : State → Thread.State → Prop
  | unstarted {x : Thread.State} (hstarted : x.started = false) (hos : x.os = []) (hlatch : x.latch = 1) :
      Refines ⟨x, fun _ => none, [], .idle⟩ x
  | starting {x : Thread.State} {c : Child} (hstarted : x.started = false) (hos : x.os = []) (hlatch : x.latch = 1)
      (hended : x.ended = false) (htid : 0 < c.tid) : Refines ⟨threadOf x c, dataOf c, [c], .waiting⟩ x
  | started {x : Thread.State} {c : Child} (hstarted : x.started = false) (hos : x.os ≠ []) (htid : 0 < x.tid)
      (hpast : c.Past) : Refines ⟨x, dataOf c, [c], .idle⟩ x

def Child.next (c : Child) : Child :=
  match c.pc with
  | .entry => { c with pc := .countDown }
  | .countDown => { c with pc := .function }
  | .function => { c with pc := .deleting }
  | .deleting => { c with pc := .finished }
  | .finished => c

theorem Child.Past.next {c : Child} (h : c.Past) : c.next.Past := by
  obtain ⟨tid, data, pc⟩ := c
  obtain ⟨h₁, h₂⟩ := h
  cases pc with
  | entry => exact absurd rfl h₁
  | countDown => exact absurd rfl h₂
  | function => exact ⟨by simp [Child.next], by simp [Child.next]⟩
  | deleting => exact ⟨by simp [Child.next], by simp [Child.next]⟩
  | finished => exact ⟨by simp [Child.next], by simp [Child.next]⟩

theorem deref_dataOf {c : Child} {d : ThreadData} (h : c.threadData = some d) : (dataOf c).deref c.data = .ok d :=
  Heap.deref_some (by rw [dataOf, Function.update_self, h])

theorem write_dataOf (c : Child) (d : ThreadData) :
    (dataOf c).write c.data d = Function.update (fun _ => none) c.data (some d) := by
  rw [Heap.write, dataOf, Function.update_idem]

theorem free_dataOf {c : Child} {d : ThreadData} (h : c.threadData = some d) :
    (dataOf c).free c.data = .ok (Function.update (fun _ => none) c.data none) := by
  rw [Heap.free_some (a := d) (by rw [dataOf, Function.update_self, h]), dataOf, Function.update_idem]

theorem reach_set {s : State} {pointer : Bool} (hset : pointer = true) (hended : s.thread.ended = false) :
    reach s pointer = .ok () := if_pos ⟨hset, hended⟩

section
variable {x : Thread.State} {c : Child} {owner : Owner}

theorem runChild_past (hpast : c.Past) (hpc : c.pc ≠ .finished) :
    runChild ⟨x, dataOf c, [c], owner⟩ 0 c = .ok ⟨x, dataOf c.next, [c.next], owner⟩ := by
  obtain ⟨tid, data, pc⟩ := c
  cases pc with
  | entry => exact absurd rfl hpast.1
  | countDown => exact absurd rfl hpast.2
  | function => rfl
  | deleting =>
    unfold runChild
    dsimp only
    rw [free_dataOf (c := ⟨tid, data, .deleting⟩) rfl]
    rfl
  | finished => exact absurd rfl hpc

theorem runChild_starting (hended : x.ended = false) (hlatch : x.latch = 1) (hpc : c.pc ≠ .finished) :
    runChild ⟨threadOf x c, dataOf c, [c], owner⟩ 0 c = .ok ⟨threadOf x c.next, dataOf c.next, [c.next], owner⟩ := by
  obtain ⟨tid, data, pc⟩ := c
  cases pc with
  | entry =>
    unfold runChild
    dsimp only
    rw [deref_dataOf (c := ⟨tid, data, .entry⟩) rfl, ok_bind, reach_set rfl hended, ok_bind,
      write_dataOf ⟨tid, data, .entry⟩]
    rfl
  | countDown =>
    unfold runChild
    dsimp only
    have hone : (threadOf x ⟨tid, data, .countDown⟩).latch ≠ 0 := by
      have : (threadOf x ⟨tid, data, .countDown⟩).latch = x.latch := rfl
      rw [this, hlatch]
      decide
    rw [deref_dataOf (c := ⟨tid, data, .countDown⟩) rfl, ok_bind, reach_set rfl hended, ok_bind, if_neg hone,
      write_dataOf ⟨tid, data, .countDown⟩]
    rfl
  | function => exact runChild_past ⟨by simp, by simp⟩ hpc
  | deleting => exact runChild_past ⟨by simp, by simp⟩ hpc
  | finished => exact absurd rfl hpc

theorem child_of_singleton {i : Nat} {c' : Child} (h : [c][i]? = some c') : i = 0 ∧ c' = c := by
  cases i with
  | zero => exact ⟨rfl, (Option.some.inj h).symm⟩
  | succ i => simp at h

theorem past_of_latch (hlatch : x.latch = 1) (h : (threadOf x c).latch = 0) : c.Past := by
  obtain ⟨tid, data, pc⟩ := c
  -- in front of `count_down` the latch is what it was at first
  cases pc with
  | entry =>
    have hx : x.latch = 0 := h
    omega
  | countDown =>
    have hx : x.latch = 0 := h
    omega
  | function => exact ⟨by simp, by simp⟩
  | deleting => exact ⟨by simp, by simp⟩
  | finished => exact ⟨by simp, by simp⟩

theorem threadOf_past (h : c.Past) : threadOf x c = Thread.runInThread (Thread.pthreadCreate x) c.tid := by
  obtain ⟨tid, data, pc⟩ := c
  cases pc with
  | entry => exact absurd rfl h.1
  | countDown => exact absurd rfl h.2
  | function => rfl
  | deleting => rfl
  | finished => rfl

end

/-! ## The start in one step -/

section
variable {x : Thread.State} {s t : State}

theorem join_fails (h : s.thread.started = false) : join s = .error .assertion := by
  rw [join, Thread.join, check_bind_error (by simp [h])]
  rfl

theorem destroy_eq (h : x.started = false) : Thread.destroy x = { x with ended := true } := by
  simp [Thread.destroy, h]

theorem start_eq {tid : Option Nat} {data : Addr} (h : start s tid data = .ok t) : ∃ n, tid = some n ∧
    t = ⟨Thread.pthreadCreate s.thread, s.data.write data ⟨true, true⟩, s.children ++ [⟨n, data, .entry⟩], .waiting⟩ := by
  unfold start at h
  obtain ⟨-, h⟩ := check_bind_eq_ok.mp h
  cases tid with
  | none => cases h
  | some n =>
    cases h
    exact ⟨n, rfl, rfl⟩

theorem endStart_eq (h : endStart s = .ok t) : t = { s with owner := .idle } := by
  obtain ⟨-, h⟩ := check_bind_eq_ok.mp h
  cases h
  rfl

theorem atomic_start (hstarted : x.started = false) (hos : x.os = []) (hended : x.ended = false) {n : Nat} (hn : 0 < n) :
    Thread.lts.step x (.start (some n)) (Thread.runInThread (Thread.pthreadCreate x) n) := by
  refine ⟨⟨hended, hos, ?_⟩, ?_⟩
  · intro m hm
    cases hm
    exact hn
  · change Thread.start x (some n) = _
    rw [Thread.start, check_pos hstarted, ok_bind]
    dsimp only
    rw [check_pos (by exact hn), ok_bind]
    rfl

theorem refines_step {a : Act} (hR : Refines s x) (honce : Once s a) (h : lts.step s a t) :
    ∃ tr y, Thread.lts.Run x tr y ∧ Refines t y := by
  obtain ⟨hp, h⟩ := h
  cases hR with
  | unstarted hstarted hos hlatch =>
    cases a with
    | start tid data =>
      obtain ⟨hended, -, -, htid⟩ := hp
      obtain ⟨n, rfl, rfl⟩ := start_eq h
      exact ⟨[], x, .nil x, .starting (c := ⟨n, data, .entry⟩) hstarted hos hlatch hended (htid n rfl)⟩
    | endStart => cases hp.1
    | join =>
      change join _ = _ at h
      rw [join_fails hstarted] at h
      cases h
    | destroy =>
      cases h
      rw [destroy, destroy_eq hstarted]
      refine ⟨[.destroy], { x with ended := true }, .single ⟨hp.1, ?_⟩, .unstarted hstarted hos hlatch⟩
      exact congrArg Except.ok (destroy_eq hstarted)
    | child i c => simp [Permitted] at hp
  | @starting _ c hstarted hos hlatch hended htid =>
    cases a with
    | start tid data => cases hp.2.1
    | endStart =>
      have hpast := past_of_latch hlatch hp.2
      rw [endStart_eq h, threadOf_past hpast]
      refine ⟨[.start (some c.tid)], _, .single (atomic_start hstarted hos hended htid), ?_⟩
      exact .started hstarted (List.append_ne_nil_of_right_ne_nil _ (List.cons_ne_nil _ _)) htid hpast
    | join => cases hp.2
    | destroy => cases hp.2
    | child i c' =>
      obtain ⟨rfl, rfl⟩ := child_of_singleton hp.1
      change runChild _ _ _ = _ at h
      rw [runChild_starting hended hlatch hp.2] at h
      cases h
      refine ⟨[], x, .nil x, .starting hstarted hos hlatch hended ?_⟩
      unfold Child.next
      split <;> exact htid
  | @started _ c hstarted hos htid hpast =>
    cases a with
    | start tid data => cases honce
    | endStart => cases hp.1
    | join =>
      change join _ = _ at h
      rw [join_fails hstarted] at h
      cases h
    | destroy =>
      cases h
      rw [destroy, destroy_eq hstarted]
      refine ⟨[.destroy], { x with ended := true }, .single ⟨hp.1, ?_⟩, .started hstarted hos htid hpast⟩
      exact congrArg Except.ok (destroy_eq hstarted)
    | child i c' =>
      obtain ⟨rfl, rfl⟩ := child_of_singleton hp.1
      change runChild _ _ _ = _ at h
      rw [runChild_past hpast hp.2] at h
      cases h
      exact ⟨[], x, .nil x, .started hstarted hos htid hpast.next⟩

theorem simulation : Lts.Simulation (lts.restrict Once) Thread.lts Refines where
  init s hs := by
    cases hs
    exact ⟨Thread.initial, rfl, .unstarted rfl rfl rfl⟩
  step s a t x hR h := refines_step hR h.1 h.2

theorem waiting_goes_on {c : Child} (hlatch : x.latch = 1) :
    (threadOf x c).latch = 0 ∨ c.pc ≠ .finished ∧ ¬ c.Past := by
  by_cases hpast : c.Past
  · rw [threadOf_past hpast]
    exact .inl (by simp [Thread.runInThread, Thread.pthreadCreate, hlatch])
  · refine .inr ⟨?_, hpast⟩
    intro hpc
    exact hpast ⟨by simp [hpc], by simp [hpc]⟩

theorem dataOf_live {c : Child} {p : Addr} : dataOf c p ≠ none ↔ c.data = p ∧ c.pc ≠ .finished := by
  by_cases hp : p = c.data
  · rw [hp, dataOf, Function.update_self]
    obtain ⟨tid, data, pc⟩ := c
    cases pc <;> simp [Child.threadData]
  · rw [dataOf, Function.update_of_ne hp]
    simp [Ne.symm hp]

end

/-- **The start is one step.** In every run with one start, with the steps of the owner and the OS thread in any
order and the destructor as early as the owner likes: no step of the OS thread fails, and neither does the end of
the start. While the owner waits, the latch is open or the OS thread can still open it. Whenever it does not wait,
the `Thread` is what a start in one step makes it, and a thread that was created has its id there and holds no pointer
to it. The data that lives is that of an OS thread at work. -/
theorem start_hands_over {s : State} (h : (lts.restrict Once).Reachable s) :
    (∀ a, ((∃ i c, a = .child i c) ∨ a = .endStart) → Permitted s a → ∃ t, exec s a = .ok t) ∧
      (s.owner = .waiting → Permitted s .endStart ∨ ∃ i c, Permitted s (.child i c) ∧ ¬ c.Past) ∧
      (s.owner = .idle → Thread.lts.Reachable s.thread ∧ (s.children ≠ [] → 0 < s.thread.tid) ∧ ∀ c ∈ s.children, c.Past) ∧
      ∀ p, s.data p ≠ none ↔ ∃ c ∈ s.children, c.data = p ∧ c.pc ≠ .finished := by
  obtain ⟨x, hx, hR⟩ := simulation.reachable h
  cases hR with
  | unstarted hstarted hos hlatch =>
    refine ⟨?_, fun hw => (by cases hw), fun _ => ⟨hx, fun hne => absurd rfl hne, by simp⟩, by simp⟩
    rintro a (⟨i, c, rfl⟩ | rfl) hp
    · simp [Permitted] at hp
    · cases hp.1
  | @starting _ c hstarted hos hlatch hended htid =>
    refine ⟨?_, ?_, fun hi => (by cases hi), by simp [dataOf_live]⟩
    · rintro a (⟨i, c', rfl⟩ | rfl) hp
      · obtain ⟨rfl, rfl⟩ := child_of_singleton hp.1
        exact ⟨_, runChild_starting hended hlatch hp.2⟩
      · have hpast := past_of_latch hlatch hp.2
        refine ⟨_, (check_bind_eq_ok (f := fun _ => .ok _)).mpr ⟨?_, rfl⟩⟩
        rw [threadOf_past hpast]
        exact htid
    · intro _
      rcases waiting_goes_on (c := c) hlatch with hopen | hgo
      · exact .inl ⟨rfl, hopen⟩
      · exact .inr ⟨0, c, ⟨rfl, hgo.1⟩, hgo.2⟩
  | @started _ c hstarted hos htid hpast =>
    refine ⟨?_, fun hw => (by cases hw), fun _ => ⟨hx, fun _ => htid, by simpa using hpast⟩, by simp [dataOf_live]⟩
    rintro a (⟨i, c', rfl⟩ | rfl) hp
    · obtain ⟨rfl, rfl⟩ := child_of_singleton hp.1
      exact ⟨_, runChild_past hpast hp.2⟩
    · cases hp.1

theorem start_hands_over_destroyed : ∃ s c t, s.thread.ended = true ∧ s.children = [c] ∧ c.pc = .function ∧
    exec s (.child 0 c) = .ok t := by
  have hcalled := Lts.Reachable.step (L := lts.restrict Once) (.init rfl) (a := .start (some 7) 1)
    (by exact ⟨rfl, ⟨rfl, rfl, rfl, by simp⟩, rfl⟩)
  have hwrote := hcalled.step (a := .child 0 ⟨7, 1, .entry⟩) (by exact ⟨trivial, ⟨rfl, by simp⟩, rfl⟩)
  have hcounted := hwrote.step (a := .child 0 ⟨7, 1, .countDown⟩) (by exact ⟨trivial, ⟨rfl, by simp⟩, rfl⟩)
  have hreturned := hcounted.step (a := .endStart) (by exact ⟨trivial, ⟨rfl, rfl⟩, rfl⟩)
  have hdestroyed := hreturned.step (a := .destroy) (by exact ⟨trivial, ⟨rfl, rfl⟩, rfl⟩)
  obtain ⟨t, ht⟩ := (start_hands_over hdestroyed).1 (.child 0 ⟨7, 1, .function⟩) (.inl ⟨_, _, rfl⟩) ⟨rfl, by simp⟩
  exact ⟨_, _, t, rfl, rfl, rfl, ht⟩

/-! ## Any number of starts -/

/-- The latch counts who has not got past it, and every OS thread at work has data of its own. -/
structure Sound (s : State) : Prop where
  latch : s.thread.latch + s.children.countP (fun c => c.Past) = 1
  live : ∀ (i : Nat) (c : Child), s.children[i]? = some c → c.pc ≠ .finished → s.data c.data = c.threadData
  apart : ∀ (i j : Nat) (c d : Child), s.children[i]? = some c → s.children[j]? = some d → i ≠ j →
    c.pc ≠ .finished → d.pc ≠ .finished → c.data ≠ d.data

theorem initial_sound : Sound initial := ⟨rfl, by simp [initial], by simp [initial]⟩

section
variable {s t : State} {i : Nat} {c : Child}

theorem threadData_some (hpc : c.pc ≠ .finished) : ∃ d, c.threadData = some d := by
  obtain ⟨tid, data, pc⟩ := c
  cases pc with
  | finished => exact absurd rfl hpc
  | entry => exact ⟨_, rfl⟩
  | countDown => exact ⟨_, rfl⟩
  | function => exact ⟨_, rfl⟩
  | deleting => exact ⟨_, rfl⟩

/-- What one statement of an OS thread does: to the latch, to the data, and to the thread itself. -/
structure Advances (s : State) (i : Nat) (c : Child) (t : State) : Prop where
  latch : t.thread.latch + (if c.pc = .countDown then 1 else 0) = s.thread.latch
  data : t.data = Function.update s.data c.data c.next.threadData
  children : t.children = s.children.set i c.next

theorem runChild_cases (hlive : s.data c.data = c.threadData) (hpc : c.pc ≠ .finished) :
    (∃ t, runChild s i c = .ok t ∧ Advances s i c t) ∧ (c.Past ∨ s.thread.ended = false) ∧
        (c.pc = .countDown → s.thread.latch ≠ 0) ∨
      (∃ f, runChild s i c = .error f) ∧ (¬ c.Past ∧ s.thread.ended = true ∨ c.pc = .countDown ∧ s.thread.latch = 0) := by
  obtain ⟨tid, data, pc⟩ := c
  have hderef : ∀ d, Child.threadData ⟨tid, data, pc⟩ = some d → s.data.deref data = .ok d :=
    fun d hd => Heap.deref_some (hlive.trans hd)
  have hgone : s.thread.ended ≠ false → ∀ pointer, reach s pointer = .error .dangling :=
    fun h pointer => if_neg fun hr => h hr.2
  -- up to `count_down` a statement needs the `Thread`, behind it only the data
  cases pc with
  | entry =>
    simp only [runChild, hderef _ rfl, ok_bind]
    by_cases hended : s.thread.ended = false
    · rw [reach_set rfl hended, ok_bind]
      exact .inl ⟨⟨_, rfl, ⟨by simp, rfl, rfl⟩⟩, .inr hended, by simp⟩
    · rw [hgone hended, error_bind]
      exact .inr ⟨⟨_, rfl⟩, .inl ⟨fun h => h.1 rfl, by simpa using hended⟩⟩
  | countDown =>
    simp only [runChild, hderef _ rfl, ok_bind]
    by_cases hended : s.thread.ended = false
    · rw [reach_set rfl hended, ok_bind]
      by_cases hlatch : s.thread.latch = 0
      · rw [if_pos hlatch]
        exact .inr ⟨⟨_, rfl⟩, .inr ⟨trivial, hlatch⟩⟩
      · rw [if_neg hlatch]
        exact .inl ⟨⟨_, rfl, ⟨by simp; omega, rfl, rfl⟩⟩, .inr hended, fun _ => hlatch⟩
    · rw [hgone hended, error_bind]
      exact .inr ⟨⟨_, rfl⟩, .inl ⟨fun h => h.2 rfl, by simpa using hended⟩⟩
  | function =>
    refine .inl ⟨⟨_, rfl, ⟨by simp, ?_, rfl⟩⟩, .inl ⟨by simp, by simp⟩, by simp⟩
    exact (Function.update_eq_self_iff.mpr hlive.symm).symm
  | deleting =>
    simp only [runChild, Heap.free_some (hlive.trans rfl), ok_bind]
    exact .inl ⟨⟨_, rfl, ⟨by simp, rfl, rfl⟩⟩, .inl ⟨by simp, by simp⟩, by simp⟩
  | finished => exact absurd rfl hpc

theorem past_next : c.next.Past ↔ c.Past ∨ c.pc = .countDown := by
  obtain ⟨tid, data, pc⟩ := c
  cases pc <;> simp [Child.next, Child.Past]

theorem data_next : c.next.data = c.data := by
  unfold Child.next
  split <;> rfl

theorem countP_next (hc : s.children[i]? = some c) : (s.children.set i c.next).countP (fun c => c.Past) =
    s.children.countP (fun c => c.Past) + if c.pc = .countDown then 1 else 0 := by
  obtain ⟨hi, hget⟩ := List.getElem?_eq_some_iff.mp hc
  have hcount := List.countP_set (p := fun c : Child => decide c.Past) (l := s.children) (a := c.next) hi
  have hpos : c.Past → 0 < s.children.countP (fun c => c.Past) := by
    intro hpast
    exact List.countP_pos_iff.mpr ⟨c, hget ▸ List.getElem_mem hi, by simpa using hpast⟩
  rw [hcount, hget]
  by_cases hpast : c.Past
  · have hne : c.pc ≠ .countDown := hpast.2
    have := hpos hpast
    simp [past_next, hpast, hne]
    omega
  · by_cases hcd : c.pc = .countDown
    · simp [past_next, hpast, hcd]
    · simp [past_next, hpast, hcd]

theorem Sound.child (h : Sound s) (hc : s.children[i]? = some c) (hpc : c.pc ≠ .finished) (ha : Advances s i c t) :
    Sound t := by
  have hset : ∀ j d, t.children[j]? = some d → (j = i ∧ d = c.next) ∨ (j ≠ i ∧ s.children[j]? = some d) := by
    intro j d hd
    rw [ha.children] at hd
    by_cases hj : i = j
    · rw [← hj, List.getElem?_set_self (List.getElem?_eq_some_iff.mp hc).1] at hd
      exact .inl ⟨hj.symm, (Option.some.inj hd).symm⟩
    · rw [List.getElem?_set_ne hj] at hd
      exact .inr ⟨Ne.symm hj, hd⟩
  refine ⟨?_, ?_, ?_⟩
  · have hold := h.latch
    have hnew := ha.latch
    rw [ha.children, countP_next hc]
    omega
  · intro j d hd hdpc
    rw [ha.data]
    rcases hset j d hd with ⟨rfl, rfl⟩ | ⟨hj, hd⟩
    · rw [data_next, Function.update_self]
    · rw [Function.update_of_ne (h.apart j i d c hd hc hj hdpc hpc)]
      exact h.live j d hd hdpc
  · intro j k d e hd he hjk hdpc hepc
    rcases hset j d hd with ⟨rfl, rfl⟩ | ⟨hj, hd⟩ <;> rcases hset k e he with ⟨rfl, rfl⟩ | ⟨hk, he⟩
    · exact absurd rfl hjk
    · rw [data_next]
      exact h.apart j k c e hc he hjk hpc hepc
    · rw [data_next]
      exact h.apart j k d c hd hc hjk hdpc hpc
    · exact h.apart j k d e hd he hjk hdpc hepc

theorem Sound.start (h : Sound s) {n : Nat} {data : Addr} (hfresh : s.data data = none) :
    Sound ⟨Thread.pthreadCreate s.thread, s.data.write data ⟨true, true⟩, s.children ++ [⟨n, data, .entry⟩], .waiting⟩ := by
  have hne : ∀ (j : Nat) (d : Child), s.children[j]? = some d → d.pc ≠ .finished → d.data ≠ data := by
    intro j d hd hpc heq
    obtain ⟨x, hx⟩ := threadData_some hpc
    have hlive := h.live j d hd hpc
    rw [heq, hfresh, hx] at hlive
    cases hlive
  have hmem : ∀ j d, (s.children ++ [⟨n, data, .entry⟩])[j]? = some d →
      s.children[j]? = some d ∨ (j = s.children.length ∧ d = ⟨n, data, .entry⟩) := by
    intro j d hd
    rcases Nat.lt_trichotomy j s.children.length with hj | hj | hj
    · rw [List.getElem?_append_left hj] at hd
      exact .inl hd
    · rw [hj, List.getElem?_concat_length] at hd
      exact .inr ⟨hj, (Option.some.inj hd).symm⟩
    · rw [List.getElem?_eq_none (by simp; omega)] at hd
      cases hd
  refine ⟨?_, ?_, ?_⟩
  · have hlatch := h.latch
    simpa [Thread.pthreadCreate, List.countP_append, List.countP_cons, Child.Past] using hlatch
  · intro j d hd hpc
    rcases hmem j d hd with hd | ⟨-, rfl⟩
    · exact (Function.update_of_ne (hne j d hd hpc) _ _).trans (h.live j d hd hpc)
    · exact Function.update_self ..
  · intro j k d e hd he hjk hdpc hepc
    rcases hmem j d hd with hd | ⟨hj, rfl⟩ <;> rcases hmem k e he with he | ⟨hk, rfl⟩
    · exact h.apart j k d e hd he hjk hdpc hepc
    · exact hne j d hd hdpc
    · exact (hne k e he hepc).symm
    · exact absurd (hj.trans hk.symm) hjk

theorem Sound.step {a : Act} (h : Sound s) (hs : lts.step s a t) : Sound t := by
  obtain ⟨hp, hs⟩ := hs
  cases a with
  | start tid data =>
    obtain ⟨n, -, rfl⟩ := start_eq hs
    exact h.start hp.2.2.1
  | endStart =>
    rw [endStart_eq hs]
    exact ⟨h.latch, h.live, h.apart⟩
  | join =>
    obtain ⟨x, hx, hs⟩ := bind_eq_ok.mp hs
    cases hs
    obtain ⟨-, hx⟩ := check_bind_eq_ok.mp hx
    obtain ⟨-, hx⟩ := check_bind_eq_ok.mp hx
    cases hx
    exact ⟨h.latch, h.live, h.apart⟩
  | destroy =>
    cases hs
    refine ⟨?_, h.live, h.apart⟩
    have hlatch : (Thread.destroy s.thread).latch = s.thread.latch := by
      unfold Thread.destroy
      split <;> rfl
    simpa [destroy, hlatch] using h.latch
  | child i c =>
    rcases runChild_cases (i := i) (h.live i c hp.1 hp.2) hp.2 with ⟨⟨u, hu, ha⟩, -⟩ | ⟨⟨f, hf⟩, -⟩
    · cases hu.symm.trans hs
      exact h.child hp.1 hp.2 ha
    · cases hf.symm.trans hs

end

theorem sound_of_reachable {s : State} (h : lts.Reachable s) : Sound s :=
  h.invariant_from initial_sound (fun _ _ _ hi hs => hi.step hs) fun _ hs => hs

/-- **One gets past the latch.** However often `start` is called, and in whatever order the steps come: at most one of
the OS threads ever gets past its `count_down`. A step of an OS thread fails exactly if it is in front of its
`count_down` or before and the `Thread` is destroyed, or it is to count down and another one has. -/
theorem one_gets_past {s : State} (h : lts.Reachable s) :
    s.children.countP (fun c => c.Past) ≤ 1 ∧
      ∀ i c, Permitted s (.child i c) → ((∃ f, exec s (.child i c) = .error f) ↔
        ¬ c.Past ∧ s.thread.ended = true ∨ c.pc = .countDown ∧ ∃ d ∈ s.children, d.Past) := by
  have hs := sound_of_reachable h
  have hlatch : s.thread.latch = 0 ↔ ∃ d ∈ s.children, d.Past := by
    have hcount := hs.latch
    have hpos : 0 < s.children.countP (fun c => c.Past) ↔ ∃ d ∈ s.children, d.Past := by
      rw [List.countP_pos_iff]
      simp
    rw [← hpos]
    omega
  refine ⟨by have := hs.latch; omega, ?_⟩
  intro i c hp
  rw [← hlatch]
  rcases runChild_cases (i := i) (hs.live i c hp.1 hp.2) hp.2 with ⟨⟨u, hu, -⟩, hthread, hopen⟩ | ⟨hf, hwhy⟩
  · refine iff_of_false ?_ ?_
    · rintro ⟨f, hf⟩
      cases hu.symm.trans hf
    · rintro (⟨hpast, hended⟩ | ⟨hcd, hzero⟩)
      · rcases hthread with hthread | hthread
        · exact hpast hthread
        · rw [hthread] at hended
          cases hended
      · exact hopen hcd hzero
  · exact iff_of_true hf hwhy

theorem one_gets_past_twice : ∃ s c f, s.owner = .idle ∧ s.children.length = 2 ∧ s.children[1]? = some c ∧
    exec s (.child 1 c) = .error f := by
  have hcalled := Lts.Reachable.step (L := lts) (.init rfl) (a := .start (some 7) 1) (by exact ⟨⟨rfl, rfl, rfl, by simp⟩, rfl⟩)
  have hwrote := hcalled.step (a := .child 0 ⟨7, 1, .entry⟩) (by exact ⟨⟨rfl, by simp⟩, rfl⟩)
  have hcounted := hwrote.step (a := .child 0 ⟨7, 1, .countDown⟩) (by exact ⟨⟨rfl, by simp⟩, rfl⟩)
  have hreturned := hcounted.step (a := .endStart) (by exact ⟨⟨rfl, rfl⟩, rfl⟩)
  have hagain := hreturned.step (a := .start (some 8) 2) (by exact ⟨⟨rfl, rfl, rfl, by simp⟩, rfl⟩)
  have hearly := hagain.step (a := .endStart) (by exact ⟨⟨rfl, rfl⟩, rfl⟩)
  have hsecond := hearly.step (a := .child 1 ⟨8, 2, .entry⟩) (by exact ⟨⟨rfl, by simp⟩, rfl⟩)
  obtain ⟨f, hf⟩ := ((one_gets_past hsecond).2 1 ⟨8, 2, .countDown⟩ ⟨rfl, by simp⟩).mpr
    (.inr ⟨rfl, ⟨7, 1, .function⟩, .head _, by decide⟩)
  exact ⟨_, _, f, rfl, rfl, rfl, hf⟩

end MyLearning.ThreadStart
