import MyLearning.MyMuduo.TimerCancelThreads

/-!
# The ids that addTimer returns

`addTimer` reads the sequence number of its timer after the functor has been pushed, so the loop thread may
have run the timer and deleted it by then. The call goes wrong then, and only then; an id that it does
return was never returned before.
-/

namespace MyLearning.TimerThreads

open TimerQueue (Good Slots)

variable {T : Type} {threadId : T} {s t : State T}

def Adding.id : Adding → TimerId
  | allocated id | handed id => id

inductive Ids [DecidableEq T] (s t : State T) : Prop
  | same : t.adding = s.adding → t.returned = s.returned → Ids s t
  | starts (th : T) (p : Addr) : s.adding th = none →
      t.adding = Function.update s.adding th (some (.allocated ⟨p, s.queue.numCreate⟩)) → t.returned = s.returned → Ids s t
  | hands (th : T) (id : TimerId) : s.adding th = some (.allocated id) →
      t.adding = Function.update s.adding th (some (.handed id)) → t.returned = s.returned → Ids s t
  | returns (th : T) (id : TimerId) : s.adding th = some (.handed id) →
      t.adding = Function.update s.adding th none → t.returned = s.returned ++ [id] → Ids s t
  | gives (p : Addr) : t.adding = s.adding → t.returned = s.returned ++ [⟨p, s.queue.numCreate⟩] → Ids s t

section
variable [DecidableEq T]

theorem step_ids {a : Act T} (h : (lts threadId).step s a t) : Ids s t := by
  cases a with
  | newTimer th p w i =>
    simp only [lts, step, Option.ite_none_right_eq_some, Option.some.injEq, Except.ok.injEq] at h
    obtain ⟨⟨-, hc, -⟩, rfl⟩ := h
    refine .starts th p ?_ rfl rfl
    simp only [canCall, Bool.and_eq_true, beq_iff_eq] at hc
    exact hc.1.2
  | runAddTimer th =>
    simp only [lts, step] at h
    split at h
    · rename_i id hadd
      obtain ⟨s', hs', h⟩ := Option.map_eq_some_iff.mp h
      obtain ⟨l, -, rfl⟩ := Option.map_eq_some_iff.mp hs'
      cases h
      exact .hands th id hadd rfl rfl
    · cases h
  | returnId th =>
    simp only [lts, step] at h
    split at h
    · rename_i id hadd
      simp only [Option.ite_none_right_eq_some, Option.some.injEq] at h
      obtain ⟨-, h⟩ := h
      split at h
      · cases h
        exact .returns th id hadd rfl rfl
      · cases h
    · cases h
  | addTimer p w i =>
    simp only [lts, step, Option.ite_none_right_eq_some, Option.some.injEq] at h
    obtain ⟨-, h⟩ := h
    obtain ⟨q, -, rfl⟩ := map_eq_ok.mp h
    exact .gives p rfl rfl
  | cancel th id =>
    simp only [lts, step, Option.ite_none_right_eq_some] at h
    obtain ⟨-, h⟩ := h
    split at h
    · obtain ⟨q, -, rfl⟩ := map_eq_ok.mp (Option.some.inj h)
      exact .same rfl rfl
    · obtain ⟨s', hs', h⟩ := Option.map_eq_some_iff.mp h
      obtain ⟨l, -, rfl⟩ := Option.map_eq_some_iff.mp hs'
      cases h
      exact .same rfl rfl
  | runTimerFunctor =>
    simp only [lts, step] at h
    split at h
    · split at h
      · cases h
      · obtain ⟨l, -, h⟩ := Option.map_eq_some_iff.mp h
        obtain ⟨q, -, rfl⟩ := map_eq_ok.mp h
        exact .same rfl rfl
    · cases h
  | handleTimerfd =>
    simp only [lts, step] at h
    split at h
    · obtain ⟨l, -, h⟩ := Option.bind_eq_some_iff.mp h
      obtain ⟨r, -, h⟩ := Option.map_eq_some_iff.mp h
      obtain ⟨q, -, rfl⟩ := map_eq_ok.mp h
      exact .same rfl rfl
    · cases h
  | timerfd a =>
    simp only [lts, step] at h
    split at h
    · simp only [Option.ite_none_right_eq_some] at h
      obtain ⟨-, h⟩ := h
      obtain ⟨r, -, h⟩ := Option.map_eq_some_iff.mp h
      obtain ⟨q, -, rfl⟩ := map_eq_ok.mp h
      exact .same rfl rfl
    · cases h
  | loop a =>
    simp only [lts, step, Option.ite_none_right_eq_some, Option.map_eq_some_iff, Except.ok.injEq] at h
    obtain ⟨-, l, -, rfl⟩ := h
    exact .same rfl rfl
  | tick now =>
    simp only [lts, step] at h
    obtain ⟨r, -, h⟩ := Option.map_eq_some_iff.mp h
    obtain ⟨q, -, rfl⟩ := map_eq_ok.mp h
    exact .same rfl rfl

end

/-! ## No id comes twice -/

structure Distinct (adding : T → Option Adding) (returned : List TimerId) : Prop where
  nodup : (returned.map TimerId.sequence).Nodup
  fresh : ∀ th x, adding th = some x → ∀ id ∈ returned, id.sequence ≠ x.id.sequence
  apart : ∀ th th' x y, adding th = some x → adding th' = some y → x.id.sequence = y.id.sequence → th = th'

section
variable {adding : T → Option Adding} {returned : List TimerId} (d : Distinct adding returned)
include d

theorem Distinct.snoc {id : TimerId} (h : ∀ id' ∈ returned, id'.sequence ≠ id.sequence) :
    ((returned ++ [id]).map TimerId.sequence).Nodup := by
  rw [List.map_append]
  refine List.nodup_append.mpr ⟨d.nodup, List.nodup_singleton _, ?_⟩
  intro k hk k' hk'
  obtain ⟨id', hid', rfl⟩ := List.mem_map.mp hk
  rw [List.mem_singleton.mp hk']
  exact h id' hid'

theorem Distinct.give {id : TimerId} (hret : ∀ id' ∈ returned, id'.sequence ≠ id.sequence)
    (hadd : ∀ th x, adding th = some x → id.sequence ≠ x.id.sequence) : Distinct adding (returned ++ [id]) where
  nodup := d.snoc hret
  fresh th x hx id' hid' := by
    rcases List.mem_append.mp hid' with hid' | hid'
    · exact d.fresh th x hx id' hid'
    · rw [List.mem_singleton.mp hid']
      exact hadd th x hx
  apart := d.apart

variable [DecidableEq T]

theorem Distinct.enter {th : T} {x : Adding} (hret : ∀ id ∈ returned, id.sequence ≠ x.id.sequence)
    (hadd : ∀ th' y, th' ≠ th → adding th' = some y → x.id.sequence ≠ y.id.sequence) :
    Distinct (Function.update adding th (some x)) returned where
  nodup := d.nodup
  fresh th' y hy := by
    obtain ⟨-, he⟩ | ⟨-, hy⟩ := update_some hy
    · cases he
      exact hret
    · exact d.fresh th' y hy
  apart th₁ th₂ y z hy hz he := by
    obtain ⟨h₁, hy'⟩ | ⟨h₁, hy'⟩ := update_some hy <;> obtain ⟨h₂, hz'⟩ | ⟨h₂, hz'⟩ := update_some hz
    · rw [h₁, h₂]
    · cases hy'
      exact absurd he (hadd th₂ z h₂ hz')
    · cases hz'
      exact absurd he.symm (hadd th₁ y h₁ hy')
    · exact d.apart th₁ th₂ y z hy' hz' he

theorem Distinct.leave (th : T) : Distinct (Function.update adding th none) returned where
  nodup := d.nodup
  fresh th' x hx := by
    obtain ⟨-, he⟩ | ⟨-, hx⟩ := update_some hx
    · cases he
    · exact d.fresh th' x hx
  apart th₁ th₂ x y hx hy := by
    obtain ⟨-, he⟩ | ⟨-, hx⟩ := update_some hx
    · cases he
    · obtain ⟨-, he⟩ | ⟨-, hy⟩ := update_some hy
      · cases he
      · exact d.apart th₁ th₂ x y hx hy

end

variable {m : Slots}

theorem Inv.returned_bound (inv : Inv threadId s m) {id : TimerId} (h : id ∈ s.returned) :
    id.sequence < s.queue.numCreate :=
  (inv.good.ledger.ids id (inv.linked.returned id h).1).1

theorem Inv.adding_bound (inv : Inv threadId s m) {th : T} {x : Adding} (h : s.adding th = some x) :
    x.id.sequence < s.queue.numCreate := by
  cases x with
  | allocated id => exact (inv.good.ledger.ids id (inv.linked.allocated th id h).1).1
  | handed id => exact (inv.good.ledger.ids id (inv.linked.handed th id h).1).1

theorem Inv.handed_heap (inv : Inv threadId s m) {th : T} {id : TimerId} (hadd : s.adding th = some (.handed id)) :
    (s.queue.heap id.timer).any (fun t => t.sequence == id.sequence) = true ↔ id.sequence ∉ s.queue.deleted := by
  obtain ⟨hid, hh⟩ := inv.linked.handed th id hadd
  have L := inv.good.ledger
  have any_iff : (s.queue.heap id.timer).any (fun t => t.sequence == id.sequence) = true ↔
      ∃ c, m id.timer = some c ∧ c.timer.sequence = id.sequence := by
    rw [inv.good.heap]
    cases m id.timer with
    | none => simp
    | some c => simp
  rw [any_iff]
  constructor
  · intro h
    obtain ⟨c, hc, he⟩ := h
    exact he ▸ L.dead _ c hc
  · intro hnot
    -- the timer was passed and not deleted, or waits with its functor
    rcases hh with hpassed | ⟨-, u, hu, he⟩
    · rcases L.found _ hpassed with hdel | ⟨p, c, hc, he⟩
      · exact absurd hdel hnot
      · exact ⟨c, (L.ids id hid).2 p c hc he ▸ hc, he⟩
    · exact ⟨_, hu, he⟩

variable [DecidableEq T]

theorem Ids.distinct (h : Ids s t) (inv : Inv threadId s m) (d : Distinct s.adding s.returned) :
    Distinct t.adding t.returned := by
  cases h with
  | same hadd hret =>
    rw [hadd, hret]
    exact d
  | starts th p _ hadd hret =>
    rw [hadd, hret]
    exact d.enter (fun _ h => Nat.ne_of_lt (inv.returned_bound h)) fun _ _ _ h => Nat.ne_of_gt (inv.adding_bound h)
  | hands th id hth hadd hret =>
    rw [hadd, hret]
    refine d.enter (fun id' hid' => d.fresh th _ hth id' hid') ?_
    intro th' y hne hy he
    exact hne (d.apart th' th y _ hy hth he.symm)
  | returns th id hth hadd hret =>
    rw [hadd, hret]
    refine (d.leave th).give (d.fresh th _ hth) ?_
    intro th' y hy he
    obtain ⟨-, hy⟩ | ⟨hne, hy⟩ := update_some hy
    · cases hy
    · exact hne (d.apart th' th y _ hy hth he.symm)
  | gives p hadd hret =>
    rw [hadd, hret]
    exact d.give (fun _ h => Nat.ne_of_lt (inv.returned_bound h)) fun _ _ h => Nat.ne_of_gt (inv.adding_bound h)

theorem reachable_distinct (h : (lts threadId).Reachable s) : Distinct s.adding s.returned := by
  refine h.invariant_of (I := fun s => ∃ m, Inv threadId s m) (J := fun s => Distinct s.adding s.returned)
    (fun _ => reachable_inv) ?_ ?_
  · intro s h
    obtain ⟨clock, rfl⟩ := h
    exact ⟨List.nodup_nil, fun _ _ h => (nomatch h), fun _ _ _ _ h => (nomatch h)⟩
  · intro s a t h d hs
    obtain ⟨m, inv⟩ := h
    exact (step_ids hs).distinct inv d

/-- **The ids that addTimer returns.** In every reachable state the ids returned so far are those of different
timers. A call in another thread that is about to read the sequence number of its timer finds it freed
exactly if the loop thread has deleted that timer already; otherwise it returns its own id, which is new. -/
theorem addTimer_ids {s : State T} (h : (lts threadId).Reachable s) :
    (s.returned.map TimerId.sequence).Nodup ∧ ∀ th id, s.adding th = some (.handed id) → s.loop.call th = .idle →
      (step threadId s (.returnId th) = some (.error .dangling) ↔ id.sequence ∈ s.queue.deleted) ∧
      (id.sequence ∉ s.queue.deleted → id.sequence ∉ s.returned.map TimerId.sequence ∧ ∃ t,
        step threadId s (.returnId th) = some (.ok t) ∧ t.returned = s.returned ++ [id] ∧ t.adding th = none) := by
  obtain ⟨m, inv⟩ := reachable_inv h
  have d := reachable_distinct h
  refine ⟨d.nodup, ?_⟩
  intro th id hadd hcall
  have hstep : step threadId s (.returnId th) = some (if id.sequence ∉ s.queue.deleted then
      .ok { s with adding := Function.update s.adding th none, returned := s.returned ++ [id] } else .error .dangling) := by
    simp only [step, hadd, hcall, if_true, inv.handed_heap hadd]
  by_cases hdel : id.sequence ∈ s.queue.deleted
  · rw [hstep, if_neg (not_not.mpr hdel)]
    exact ⟨iff_of_true rfl hdel, fun hnot => absurd hdel hnot⟩
  · rw [hstep, if_pos hdel]
    refine ⟨iff_of_false (by simp) hdel, fun _ => ⟨?_, _, rfl, rfl, Function.update_self ..⟩⟩
    intro hmem
    obtain ⟨id', hid', he⟩ := List.mem_map.mp hmem
    exact d.fresh th _ hadd id' hid' he

/-- The timer runs and is deleted before the thread that added it goes on. -/
def overtakenTrace : List (Act Bool) :=
  [.newTimer false 1 5 0, .runAddTimer false, .loop (.endQueueInLoop false)] ++ callbackTrace ++ roundTrace ++
    [.loop .endFunctor, .loop .endRound, .tick 200, .loop .test, .loop (.poll [.channel .timerfd]), .handleTimerfd,
     .timerfd .collect, .timerfd .runTimer, .timerfd .endCalls, .timerfd .resetTimer]

theorem addTimer_ids_overtaken : ∃ s : State Bool, (lts true).Reachable s ∧
    step true s (.returnId false) = some (.error .dangling) := by
  have hrun : ((Lts.exec (next true) (initial 1) overtakenTrace).map fun s =>
      (s.adding false, s.loop.call false, s.queue.deleted)) = some (some (.handed ⟨1, 0⟩), .idle, [0]) := by
    decide +kernel
  obtain ⟨s, hs, h⟩ := Option.map_eq_some_iff.mp hrun
  rw [Prod.mk.injEq, Prod.mk.injEq] at h
  obtain ⟨hadd, hcall, hdel⟩ := h
  have hreach := reachable_of_exec hs
  refine ⟨s, hreach, ((addTimer_ids hreach).2 false _ hadd hcall).1.mpr ?_⟩
  rw [hdel]
  exact List.mem_singleton_self _

end MyLearning.TimerThreads
