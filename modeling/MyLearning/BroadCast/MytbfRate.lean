import Mathlib.Tactic.Ring
import MyLearning.BroadCast.MytbfEffect
import MyLearning.Lib.TokenBucket

/-!
# The rate limit

The bucket at `p`, made with a rate and a burst that are not negative and asked for at
least one token and given back no less than none, is a token bucket: what the ticks and
the threads do to it is a run of `TokenBucket.bucket`.
-/

namespace MyLearning.Mytbf

variable {T : Type} {s t : State T} {p : Addr}

/-- The calls on the bucket at `p` that the rate limit is about. -/
def Proper (p : Addr) (_ : State T) (l : Act T × Option Event) : Prop :=
  match l.1 with
  | .init _ cps brust me => me = p → 0 ≤ cps ∧ 0 ≤ brust
  | .fetchtocken _ me size => me = p → 1 ≤ size
  | .returntoken _ me size => me = p → 0 ≤ size
  | _ => True

/-! ## The bucket in the abstract -/

def Event.project (p : Addr) (cps : Int) : Event → List (TokenBucket.Event Int)
  | .ticked me => if me = p then [.add cps] else []
  | .fetched me n => if me = p then [.take n] else []
  | .returned me size => if me = p then [.add size] else []

def project (p : Addr) (cps : Int) (l : Act T × Option Event) : List (TokenBucket.Event Int) :=
  match l.2 with
  | none => []
  | some e => e.project p cps

theorem Event.project_of_ne {e : Event} {cps : Int} (h : e.about ≠ p) : e.project p cps = [] := by
  cases e <;> exact if_neg h

theorem project_of_ne {l : Act T × Option Event} {cps : Int} (h : ∀ e, l.2 = some e → e.about ≠ p) :
    project p cps l = [] := by
  unfold project
  split
  · rfl
  · rename_i e he
    exact Event.project_of_ne (h e he)

/-! ## What a trace adds and takes -/

def removed (p : Addr) : List (Act T × Option Event) → Int
  | [] => 0
  | (_, some (.fetched me n)) :: tr => (if me = p then n else 0) + removed p tr
  | _ :: tr => removed p tr

def givenBack (p : Addr) : List (Act T × Option Event) → Int
  | [] => 0
  | (_, some (.returned me size)) :: tr => (if me = p then size else 0) + givenBack p tr
  | _ :: tr => givenBack p tr

def ticks (p : Addr) (tr : List (Act T × Option Event)) : Nat := tr.countP fun l => l.2 = some (.ticked p)

theorem removed_cons (cps : Int) (l : Act T × Option Event) (tr : List (Act T × Option Event)) :
    removed p (l :: tr) = TokenBucket.taken (project p cps l) + removed p tr := by
  obtain ⟨a, e⟩ := l
  cases e with
  | none => simp [project, removed, TokenBucket.taken]
  | some e =>
    cases e with
    | ticked me | fetched me n | returned me size =>
      by_cases h : me = p <;> simp [project, Event.project, removed, TokenBucket.taken, h]

theorem put_in_cons (cps : Int) (l : Act T × Option Event) (tr : List (Act T × Option Event)) :
    ticks p (l :: tr) * cps + givenBack p (l :: tr) =
      TokenBucket.added (project p cps l) + (ticks p tr * cps + givenBack p tr) := by
  obtain ⟨a, e⟩ := l
  cases e with
  | none => simp [project, TokenBucket.added, ticks, givenBack]
  | some e =>
    cases e with
    | ticked me | returned me size =>
      by_cases h : me = p
      · simp [project, Event.project, TokenBucket.added, ticks, givenBack, h]
        ring
      · simp [project, Event.project, TokenBucket.added, ticks, givenBack, h]
    | fetched me n => by_cases h : me = p <;> simp [project, Event.project, TokenBucket.added, ticks, givenBack, h]

theorem taken_project (cps : Int) (tr : List (Act T × Option Event)) :
    TokenBucket.taken (tr.flatMap (project p cps)) = removed p tr := by
  induction tr with
  | nil => rfl
  | cons l tr ih => rw [List.flatMap_cons, TokenBucket.taken_append, ih, removed_cons cps]

theorem added_project (cps : Int) (tr : List (Act T × Option Event)) :
    TokenBucket.added (tr.flatMap (project p cps)) = ticks p tr * cps + givenBack p tr := by
  induction tr with
  | nil => simp [TokenBucket.added, ticks, givenBack]
  | cons l tr ih => rw [List.flatMap_cons, TokenBucket.added_append, ih, put_in_cons]

/-! ## The level -/

/-- The bucket at `p` and what is asked of it stay within bounds. -/
structure Level (p : Addr) (s : State T) : Prop where
  cps : ∀ st, s.heap p = some st → 0 ≤ st.cps
  token : ∀ st, s.heap p = some st → TokenBucket.Level st.brust st.token
  wants : ∀ u size, (s.pc u).wants p = some size → 1 ≤ size

theorem level_initial : Level p (initial : State T) := by
  refine ⟨?_, ?_, ?_⟩
  · intro st hst
    cases hst
  · intro st hst
    cases hst
  · intro u size hu
    cases hu

structure Moves (p : Addr) (l : Act T × Option Event) (st st' : MytbfSt) : Prop where
  cps : st'.cps = st.cps
  brust : st'.brust = st.brust
  run : (TokenBucket.bucket st.brust).Run st.token (project p st.cps l) st'.token

variable [DecidableEq T]

theorem step_moves {l : Act T × Option Event} (h : Level p s) (hp : Proper p s l) (hs : lts.step s l t)
    {st' : MytbfSt} (ht' : t.heap p = some st') :
    (∃ u cps brust, l.1 = .init u cps brust p ∧ st' = ⟨cps, brust, 0, 0⟩) ∨
      ∃ st, s.heap p = some st ∧ Moves p l st st' := by
  obtain ⟨a, e⟩ := l
  cases step_effect (p := p) hs with
  | same ht hne =>
    refine .inr ⟨st', ht.symm.trans ht', rfl, rfl, ?_⟩
    rw [project_of_ne hne]
    exact .nil _
  | made ha ht =>
    cases ht.symm.trans ht'
    exact .inl ⟨_, _, _, ha, rfl⟩
  | placed hst ht =>
    cases ht.symm.trans ht'
    exact .inr ⟨_, hst, rfl, rfl, .nil _⟩
  | freed ht => cases ht.symm.trans ht'
  | ticked hst ht =>
    cases ht.symm.trans ht'
    refine .inr ⟨_, hst, rfl, rfl, ?_⟩
    simp only [project, Event.project, if_true]
    exact .single (.add (h.cps _ hst))
  | returned ha hst ht =>
    cases ht.symm.trans ht'
    refine .inr ⟨_, hst, rfl, rfl, ?_⟩
    simp only [project, Event.project, if_true]
    subst ha
    exact .single (.add (hp rfl))
  | fetched hu hst htoken ht =>
    cases ht.symm.trans ht'
    refine .inr ⟨_, hst, rfl, rfl, ?_⟩
    simp only [project, Event.project, if_true]
    refine .single (.take ?_ (min_le_left ..))
    have hsize := h.wants _ _ hu
    omega

theorem Level.step {l : Act T × Option Event} (h : Level p s) (hp : Proper p s l) (hs : lts.step s l t) : Level p t := by
  refine ⟨?_, ?_, ?_⟩
  · intro st' ht'
    obtain ⟨u, cps, brust, ha, rfl⟩ | ⟨st, hst, hm⟩ := step_moves h hp hs ht'
    · rw [Proper, ha] at hp
      exact (hp rfl).1
    · rw [hm.cps]
      exact h.cps st hst
  · intro st' ht'
    obtain ⟨u, cps, brust, ha, rfl⟩ | ⟨st, hst, hm⟩ := step_moves h hp hs ht'
    · rw [Proper, ha] at hp
      exact ⟨le_rfl, (hp rfl).2⟩
    · rw [hm.brust]
      exact TokenBucket.run_level hm.run (h.token st hst)
  · intro u size hu
    obtain hu | ha := step_wants hs hu
    · exact h.wants u size hu
    · rw [Proper, ha] at hp
      exact hp rfl

theorem level_of_run {tr : List (Act T × Option Event)} (h : (lts.restrict (Proper p)).Run initial tr s) : Level p s := by
  refine h.invariant ?_ level_initial
  intro s l t hl hs
  exact hl.step hs.1 hs.2

/-! ## The window -/

theorem project_of_freed {l : Act T × Option Event} {cps : Int} (hs : lts.step s l t) (ht : t.heap p = none) :
    project p cps l = [] := by
  obtain ⟨a, e⟩ := l
  cases step_effect (p := p) hs with
  | same _ hne => exact project_of_ne hne
  | made _ ht' | placed _ ht' | ticked _ ht' | returned _ _ ht' | fetched _ _ _ ht' =>
    rw [ht] at ht'
    cases ht'
  | freed _ => rfl

/-- The bucket at `p`, as long as there is one, has this rate, burst and level. -/
def Tracks (p : Addr) (cps brust : Int) (s : State T) (level : Int) : Prop :=
  Level p s ∧ ∀ st, s.heap p = some st → st.cps = cps ∧ st.brust = brust ∧ st.token = level

/-- The calls on the bucket that is at `p`, which do not make another one there. -/
def Within (p : Addr) (s : State T) (l : Act T × Option Event) : Prop :=
  Proper p s l ∧ ∀ u cps brust, l.1 ≠ .init u cps brust p

theorem tracks_step {cps brust : Int} (s : State T) (l : Act T × Option Event) (t : State T) (level : Int)
    (h : Tracks p cps brust s level) (hs : (lts.restrict (Within p)).step s l t) :
    ∃ level', (TokenBucket.bucket brust).Run level (project p cps l) level' ∧ Tracks p cps brust t level' := by
  obtain ⟨hl, htracks⟩ := h
  obtain ⟨⟨hp, hne⟩, hs⟩ := hs
  have hl' := hl.step hp hs
  cases ht : t.heap p with
  | none =>
    refine ⟨level, ?_, hl', ?_⟩
    · rw [project_of_freed hs ht]
      exact .nil level
    · intro st hst
      rw [ht] at hst
      cases hst
  | some st' =>
    obtain ⟨u, cps', brust', ha, -⟩ | ⟨st, hst, hm⟩ := step_moves hl hp hs ht
    · exact absurd ha (hne u cps' brust')
    · obtain ⟨rfl, rfl, rfl⟩ := htracks st hst
      refine ⟨st'.token, hm.run, hl', ?_⟩
      intro st'' hst''
      rw [ht] at hst''
      cases hst''
      exact ⟨hm.cps, hm.brust, rfl⟩

theorem window {st : MytbfSt} {tr : List (Act T × Option Event)} (hl : Level p s) (hst : s.heap p = some st)
    (hr : (lts.restrict (Within p)).Run s tr t) : removed p tr ≤ st.token + ticks p tr * st.cps + givenBack p tr := by
  have htracks : Tracks p st.cps st.brust s st.token := by
    refine ⟨hl, ?_⟩
    intro st' hst'
    cases hst.symm.trans hst'
    exact ⟨rfl, rfl, rfl⟩
  obtain ⟨level, hrun, -⟩ := hr.tracks tracks_step st.token htracks
  have htaken := TokenBucket.taken_le hrun (hl.token st hst)
  rw [taken_project, added_project, ← add_assoc] at htaken
  exact htaken

theorem fetched_token {a : Act T} {n : Int} (hs : lts.step s (a, some (.fetched p n)) t) :
    ∃ st, s.heap p = some st ∧ 0 < st.token ∧ n ≤ st.token := by
  cases step_effect (p := p) hs with
  | same _ hne => exact absurd rfl (hne _ rfl)
  | fetched _ hst htoken _ => exact ⟨_, hst, htoken, min_le_left ..⟩

/-- The rate limit of the bucket at `p`, whatever the other threads and buckets do. -/
theorem rate_limit (p : Addr) (tr₀ : List (Act T × Option Event)) (s : State T)
    (h₀ : (lts.restrict (Proper p)).Run initial tr₀ s) :
    (∀ st, s.heap p = some st → 0 ≤ st.token ∧ st.token ≤ st.brust) ∧
    (∀ a n t, lts.step s (a, some (.fetched p n)) t → ∃ st, s.heap p = some st ∧ 0 < st.token ∧ n ≤ st.token) ∧
    ∀ st tr t, s.heap p = some st → (lts.restrict (Within p)).Run s tr t →
      removed p tr ≤ st.token + ticks p tr * st.cps + givenBack p tr ∧
      removed p tr ≤ st.brust + ticks p tr * st.cps + givenBack p tr := by
  have hl := level_of_run h₀
  refine ⟨hl.token, ?_, ?_⟩
  · intro a n t hs
    exact fetched_token hs
  · intro st tr t hst hr
    have hwindow := window hl hst hr
    have hbrust := (hl.token st hst).2
    exact ⟨hwindow, by omega⟩

theorem rate_limit_first_tick : ∃ tr : List (Act Bool × Option Event), removed 0 tr = 2 ∧ ticks 0 tr = 1 ∧
    removed 0 tr ≤ 0 + ticks 0 tr * 3 + givenBack 0 tr := by
  let st₁ : State Bool := init initial true 3 5 0
  let st₂ : State Bool := { st₁ with heap := st₁.heap.write 0 ⟨3, 5, 0, 0⟩, job := Function.update st₁.job 0 (some 0) }.setPc true .idle
  have hplace : place st₁ true 0 = .ok st₂ := by
    unfold place
    rw [getFreePosUnlocked_zero rfl]
    rfl
  have hexec : exec st₁ (.place true 0) = .ok (st₂, none) := by
    rw [exec, hplace]
    rfl
  have before : (lts.restrict (Proper 0)).Run initial
      [(.init true 3 5 0, none), (.place true 0, none), (.alarmLock, none)] { st₂ with alarm := some 0 } :=
    .cons ⟨fun _ => ⟨by decide, by decide⟩, ⟨rfl, rfl⟩, rfl⟩
      (.cons ⟨trivial, ⟨rfl, rfl⟩, hexec⟩ (.single ⟨trivial, ⟨rfl, rfl⟩, rfl⟩))
  have during : ∃ t, (lts.restrict (Within 0)).Run { st₂ with alarm := some 0 } [(.alarmTurn 0, some (.ticked 0)),
      (.fetchtocken false 0 2, none), (.lock false 0 2, some (.fetched 0 2))] t :=
    ⟨_, .cons ⟨⟨trivial, by simp⟩, ⟨rfl, by decide⟩, rfl⟩ (.cons ⟨⟨fun _ => by decide, by simp⟩, rfl, rfl⟩
      (.single ⟨⟨trivial, by simp⟩, rfl, rfl⟩))⟩
  obtain ⟨t, during⟩ := during
  exact ⟨_, rfl, rfl, ((rate_limit 0 _ _ before).2.2 ⟨3, 5, 0, 0⟩ _ t rfl during).1⟩

end MyLearning.Mytbf
