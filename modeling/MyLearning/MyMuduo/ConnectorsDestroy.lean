import MyLearning.MyMuduo.ConnectorsLive

/-!
# The channels of connectors are destroyed

A connector leaves the channel it has removed to one functor in the queue of the loop. It queues no second one for
the channel, so once the loop has run all that was queued the channel is gone.
-/

namespace MyLearning.Connectors

variable {T κ F C : Type} [DecidableEq κ] {threadId : T} {k : κ} [DecidableEq T] [DecidableEq C] {flags : EventFlags}
  {fd : Ready (Chan κ C) → Int}

def Act.isPoll : Act T κ F C → Bool
  | .plain a => a.isPoll
  | _ => false

theorem run_sys {s t : State T κ F C} {tr : List (Act T κ F C)} (hr : (lts threadId flags fd).Run s tr t) :
    ∃ tr', (Dispatch.lts threadId flags fd).Run s.sys tr' t.sys ∧
      tr.countP Act.isPoll ≤ tr'.countP Dispatch.Act.isPoll := by
  induction hr with
  | nil s => exact ⟨[], .nil _, Nat.le_refl _⟩
  | @cons s a t tr u hs _ ih =>
    obtain ⟨tr', hr', hn⟩ := ih
    rcases step_cases hs with ⟨b, rfl, -, hb, -⟩ | ⟨k, b, first, c, hp, -, hr, -⟩
    · refine ⟨b :: tr', .cons hb hr', ?_⟩
      rw [List.countP_cons, List.countP_cons]
      exact Nat.add_le_add_right hn _
    · refine ⟨_, hr.append hr', ?_⟩
      have hpoll : Act.isPoll a = false := by
        cases a with
        | plain => cases hp
        | _ => rfl
      rw [List.countP_cons, hpoll, List.countP_append]
      simp only [Bool.false_eq_true, if_false]
      omega

/-! ## What is queued -/

omit [DecidableEq C] in
theorem pushedOf_plain {s : State T κ F C} {b : EventLoop.Act T (Functor κ F) (Chan κ C)}
    {l : EventLoop.State T (Functor κ F) (Chan κ C)} (hp : plain s (.loop b) = true)
    (h : EventLoop.Effect threadId s.sys.loop b l) (k : κ) : pushedOf k l = pushedOf k s.sys.loop := by
  cases h with
  | @queueInLoop th cb _ | @runInLoop th cb _ _ =>
    cases cb with
    | connector => cases hp
    | other f => simp [pushedOf, EventLoop.setCall, EventLoop.push, ofConnector]
  | @endQueueInLoop th _ =>
    obtain ⟨n, -, hw⟩ := EventLoop.wakeupAfterPush_eq threadId s.sys.loop th
    rw [hw]
    rfl
  | @endQuit th _ =>
    obtain ⟨n, -, hw⟩ := EventLoop.wakeupAfterQuit_eq threadId s.sys.loop th
    rw [hw]
    rfl
  | _ => rfl

theorem Inv.pushed_plain {s : State T κ F C} {a : LoopAct T κ F C} {d : Loop T κ F C} (g : Inv threadId flags fd s)
    (hp : plain s a = true) (h : (Dispatch.lts threadId flags fd).step s.sys a d) (k : κ) :
    pushedOf k d.loop = pushedOf k s.sys.loop := by
  cases Dispatch.step_effect g.paced.snapshot h with
  | loop _ hl => exact pushedOf_plain hp (EventLoop.step_effect hl) k
  | poll hl => exact pushedOf_plain rfl (EventLoop.step_effect hl) k
  | handleEvent _ hl => exact pushedOf_plain rfl (EventLoop.step_effect hl) k
  | channel => rfl

def resets (k : κ) (l : EventLoop.State T (Functor κ F) (Chan κ C)) : Nat := (pushedOf k l).count .resetChannel

theorem Inv.resets_eq {s : State T κ F C} (g : Inv threadId flags fd s) {n : Nat}
    (hc : (s.conn k).channel = some ⟨n, false⟩) :
    resets k s.sys.loop = (s.sys.loop.executed.filterMap (ofConnector k)).count .resetChannel + 1 := by
  have o : _ = s.sys.loop.pushed := Dispatch.inOrder_of_reachable g.sys
  have hreset := (Connector.shape_of_reachable (g.conn k)).reset
  rw [g.queue k, hc] at hreset
  simp only [queueOf, List.filterMap_append, List.count_append] at hreset
  rw [resets, pushedOf, ← o]
  simp only [List.filterMap_append, List.count_append]
  simp at hreset
  omega

/-- The channel `n` of `k` is destroyed, or it waits and no channel of `k` was removed since `m` were. -/
structure Waits (k : κ) (n m : Nat) (s : State T κ F C) : Prop where
  made : n < (s.conn k).created
  waits : ∀ r, (s.conn k).channel = some ⟨n, r⟩ → r = false ∧ resets k s.sys.loop = m

theorem Waits.step {s t : State T κ F C} {a : Act T κ F C} {n m : Nat} (w : Waits k n m s)
    (g : Inv threadId flags fd s) (ho : Opens threadId fd s a) (h : (lts threadId flags fd).step s a t) :
    Waits k n m t := by
  obtain ⟨d, conn⟩ := t
  rcases step_cases h with ⟨b, -, hp, hb, rfl⟩ | ⟨j, b, first, c, hp, hc, hr, rfl⟩
  · refine ⟨w.made, fun r hc => ?_⟩
    rw [resets, g.pushed_plain hp hb k]
    exact w.waits r hc
  · obtain ⟨e, hr', -, q, hq, hpushed⟩ := g.part_step hp hc (ho j b first c hp hc)
    cases run_unique hr hr'
    by_cases hj : k = j
    · subst hj
      have he := Connector.step_effect hc
      refine ⟨?_, fun r hcr => ?_⟩
      · simp only [Function.update_self]
        exact Nat.lt_of_lt_of_le w.made he.created_le
      · simp only [Function.update_self] at hcr
        have hm := he.move (Connector.shape_of_reachable (g.conn k))
        obtain ⟨hsame, hno⟩ := hm.no_reset hq hcr w.made fun r h => (w.waits r h).1
        obtain ⟨hr, hresets⟩ := w.waits r hsame
        refine ⟨hr, ?_⟩
        rw [resets, hpushed, if_pos rfl, List.count_append, hno, Nat.add_zero]
        exact hresets
    · refine ⟨?_, fun r hcr => ?_⟩
      · simp only [Function.update_of_ne hj]
        exact w.made
      · simp only [Function.update_of_ne hj] at hcr
        rw [resets, hpushed, if_neg hj, List.append_nil]
        exact w.waits r hcr

/-- **The channels of connectors are destroyed**: a channel that is removed is gone once the poller has returned
twice, and where the loop had still to swap its functors, by the next while test. -/
theorem channel_destroyed {s t : State T κ F C} {tr : List (Act T κ F C)} {n : Nat}
    (h : ((lts threadId flags fd).restrict (Opens threadId fd)).Reachable s)
    (hc : (s.conn k).channel = some ⟨n, false⟩)
    (hr : ((lts threadId flags fd).restrict (Opens threadId fd)).Run s tr t)
    (hend : 2 ≤ tr.countP Act.isPoll ∨
      s.sys.loop.phase.WillSwap ∧ (t.sys.loop.phase = .test ∨ t.sys.loop.phase = .exited)) :
    ∀ r, (t.conn k).channel ≠ some ⟨n, r⟩ := by
  intro r hct
  have g := inv_of_reachable h
  have w : Waits k n (resets k s.sys.loop) s := by
    refine ⟨Connector.made_of_reachable (g.conn k) n false hc, fun r hcr => ⟨?_, rfl⟩⟩
    rw [hc] at hcr
    cases hcr
    rfl
  have inv : Inv threadId flags fd t ∧ Waits k n (resets k s.sys.loop) t := by
    refine hr.invariant (I := fun u => Inv threadId flags fd u ∧ Waits k n (resets k s.sys.loop) u) ?_ ⟨g, w⟩
    rintro u a v ⟨gu, wu⟩ hs
    exact ⟨gu.step hs.1 hs.2, wu.step gu hs.1 hs.2⟩
  obtain ⟨gt, wt⟩ := inv
  obtain ⟨rfl, hresets⟩ := wt.waits r hct
  obtain ⟨tr', hr', hn⟩ := run_sys hr.of_restrict
  obtain ⟨tr'', hr'', hn'⟩ := Dispatch.run_loop hr' g.paced.snapshot
  have o := Dispatch.inOrder_of_reachable g.sys
  have hran : s.sys.loop.pushed <+: t.sys.loop.executed := by
    rcases hend with hpolls | ⟨hw, ht⟩
    · exact EventLoop.run_pushed hr'' o (by omega)
    · exact EventLoop.run_starts hr'' o hw ht
  have hle : resets k s.sys.loop ≤ (t.sys.loop.executed.filterMap (ofConnector k)).count .resetChannel :=
    (hran.sublist.filterMap (ofConnector k)).count_le _
  have hwaits := gt.resets_eq hct
  omega

open EpollPoller (pollFlags)

theorem channel_destroyed_failed : ∃ s t : State Bool Bool Nat Empty, (s.conn false).channel = some ⟨0, false⟩ ∧
    t.sys.loop.phase = .test ∧ ∀ r, (t.conn false).channel ≠ some ⟨0, r⟩ := by
  have hrun : ((next true pollFlags reusedFd started (.restart false .EINPROGRESS)).bind fun s =>
      (Lts.exec (quietly true pollFlags reusedFd) s
          [.plain (.loop .loop), .plain (.loop .clearQuit), .plain (.loop .test), .plain (.poll [4]),
            .handleEvent [.write], .callback true false]).bind fun t =>
        (Lts.exec (quietly true pollFlags reusedFd) t
            [.plain (.loop (.endQueueInLoop true)), .plain (.loop .endHandle), .plain (.loop .doPendingFunctors),
              .plain (.loop .swap)]).bind fun u =>
          (next true pollFlags reusedFd u (.runFunctor .zero)).bind fun v =>
            (Lts.exec (quietly true pollFlags reusedFd) v [.plain (.loop .endFunctor), .plain (.loop .endRound)]).map
              fun w => (decide (∀ j, ∀ n < (u.conn j).created, n ∈ (u.conn j).closed ++ (u.conn j).passed),
                (t.conn false).channel, t.sys.loop.phase.beforeSwap, decide (w.sys.loop.phase = .test))) =
      some (true, some ⟨0, false⟩, true, true) := by decide +kernel
  obtain ⟨s, hs, h⟩ := Option.bind_eq_some_iff.mp hrun
  obtain ⟨t, ht, h⟩ := Option.bind_eq_some_iff.mp h
  obtain ⟨u, hu, h⟩ := Option.bind_eq_some_iff.mp h
  obtain ⟨v, hv, h⟩ := Option.bind_eq_some_iff.mp h
  obtain ⟨w, hw, h⟩ := Option.map_eq_some_iff.mp h
  simp only [Prod.mk.injEq, decide_eq_true_eq] at h
  obtain ⟨hclosed, hremoved, hswap, htest⟩ := h
  have h₀ : ((lts true pollFlags reusedFd).restrict (Opens true reusedFd)).Reachable started := .init init_started
  have h₁ := h₀.step ⟨opens_reused (fun j n hn => absurd hn (Nat.not_lt_zero n)), next_eq_some hs⟩
  have h₂ := h₁.run (Lts.run_of_exec (fun _ _ _ h => quietly_eq_some h) ht)
  have hr := (Lts.run_of_exec (fun _ _ _ h => quietly_eq_some h) hu).append
    (.cons ⟨opens_reused hclosed, next_eq_some hv⟩ (Lts.run_of_exec (fun _ _ _ h => quietly_eq_some h) hw))
  exact ⟨t, w, hremoved, htest, channel_destroyed h₂ hremoved hr (.inr ⟨.inr hswap, .inl htest⟩)⟩

end MyLearning.Connectors
