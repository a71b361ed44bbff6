import Mathlib.Data.List.Basic
import Mathlib.Data.List.Infix
import Mathlib.Tactic.Basic

/-!
# Labelled transition systems

An `Lts` is a set of initial states and a labelled step relation. `Run` is a
finite sequence of steps, `Reachable` the states some run from an initial state
ends in. An invariant is proved once from its base case and its step lemma;
`restrict` keeps the steps that meet a condition on the state before them, so
"every run whose steps all meet the condition" is a run of the restricted
system. A `Simulation` carries runs of one system to runs of another.
-/

namespace MyLearning

structure Lts (σ : Type*) (α : Type*) where
  init : σ → Prop
  step : σ → α → σ → Prop

namespace Lts

variable {σ α τ β : Type*}

/-- `L.Run s tr t`: the labels `tr`, taken in order, lead from `s` to `t`. -/
inductive Run (L : Lts σ α) : σ → List α → σ → Prop
  | nil (s : σ) : Run L s [] s
  | cons {s a t tr u} : L.step s a t → Run L t tr u → Run L s (a :: tr) u

def Reachable (L : Lts σ α) (s : σ) : Prop := ∃ s₀ tr, L.init s₀ ∧ L.Run s₀ tr s

variable {L : Lts σ α}

/-! ## Runs -/

theorem Run.single {s t : σ} {a : α} (h : L.step s a t) : L.Run s [a] t := .cons h (.nil t)

theorem Run.append {s t u : σ} {tr tr' : List α} (h : L.Run s tr t) (h' : L.Run t tr' u) :
    L.Run s (tr ++ tr') u := by
  induction h with
  | nil _ => exact h'
  | cons hs _ ih => exact .cons hs (ih h')

theorem Run.snoc {s t u : σ} {a : α} {tr : List α} (h : L.Run s tr t) (h' : L.step t a u) :
    L.Run s (tr ++ [a]) u := h.append (.single h')

theorem Run.split : ∀ {tr : List α} {s u : σ} {tr' : List α}, L.Run s (tr ++ tr') u →
    ∃ t, L.Run s tr t ∧ L.Run t tr' u
  | [], s, _, _, h => ⟨s, .nil s, h⟩
  | a :: tr, s, u, tr', h => by
    cases h with
    | cons hs hr =>
      obtain ⟨t, h₁, h₂⟩ := Run.split hr
      exact ⟨t, .cons hs h₁, h₂⟩

theorem Run.last {s u : σ} {a : α} {tr : List α} (h : L.Run s (tr ++ [a]) u) :
    ∃ t, L.Run s tr t ∧ L.step t a u := by
  obtain ⟨t, h₁, h₂⟩ := Run.split h
  cases h₂ with
  | cons hs hn => cases hn; exact ⟨t, h₁, hs⟩

theorem Reachable.init {s : σ} (h : L.init s) : L.Reachable s := ⟨s, [], h, .nil s⟩

theorem Reachable.step {s t : σ} {a : α} (h : L.Reachable s) (hs : L.step s a t) : L.Reachable t := by
  obtain ⟨s₀, tr, h₀, hr⟩ := h
  exact ⟨s₀, tr ++ [a], h₀, hr.snoc hs⟩

theorem Reachable.run {s t : σ} {tr : List α} (h : L.Reachable s) (hr : L.Run s tr t) : L.Reachable t := by
  obtain ⟨s₀, tr₀, h₀, hr₀⟩ := h
  exact ⟨s₀, tr₀ ++ tr, h₀, hr₀.append hr⟩

theorem Run.leaves {P : σ → Prop} {s t : σ} {tr : List α} (hr : L.Run s tr t) (hs : P s) (ht : ¬ P t) :
    ∃ tr₁ a tr₂ u v, tr = tr₁ ++ a :: tr₂ ∧ L.Run s tr₁ u ∧ P u ∧ L.step u a v ∧ ¬ P v := by
  induction hr with
  | nil _ => exact absurd hs ht
  | @cons s a v tr t hstep hr ih =>
    by_cases hv : P v
    · obtain ⟨tr₁, b, tr₂, x, y, rfl, hx, hpx, hxy, hy⟩ := ih hv ht
      exact ⟨a :: tr₁, b, tr₂, x, y, rfl, .cons hstep hx, hpx, hxy, hy⟩
    · exact ⟨[], a, tr, s, v, rfl, .nil s, hs, hstep, hv⟩

/-! ## Invariants -/

theorem Run.invariant {I : σ → Prop} (hstep : ∀ s a t, I s → L.step s a t → I t) {s t : σ}
    {tr : List α} (hr : L.Run s tr t) (h : I s) : I t := by
  induction hr with
  | nil _ => exact h
  | cons hs _ ih => exact ih (hstep _ _ _ h hs)

theorem Run.invariant_labels {I : List α → σ → Prop} (hstep : ∀ tr s a t, I tr s → L.step s a t → I (tr ++ [a]) t)
    {s t : σ} {tr : List α} (hr : L.Run s tr t) : ∀ tr₀, I tr₀ s → I (tr₀ ++ tr) t := by
  induction hr with
  | nil _ => intro tr₀ h; rwa [List.append_nil]
  | cons hs _ ih =>
    intro tr₀ h
    have := ih (tr₀ ++ [_]) (hstep tr₀ _ _ _ h hs)
    rwa [List.append_assoc] at this

theorem Reachable.invariant {I : σ → Prop} (h₀ : ∀ s, L.init s → I s)
    (hstep : ∀ s a t, I s → L.step s a t → I t) {s : σ} (h : L.Reachable s) : I s := by
  obtain ⟨s₀, tr, hi, hr⟩ := h
  exact hr.invariant hstep (h₀ s₀ hi)

theorem Reachable.invariant_from {I : σ → Prop} {s₀ s : σ} (h : L.Reachable s) (h₀ : I s₀)
    (hstep : ∀ s a t, I s → L.step s a t → I t) (hinit : ∀ s, L.init s → s = s₀) : I s := by
  refine h.invariant ?_ hstep
  intro s hs
  rw [hinit s hs]
  exact h₀

theorem Reachable.invariant_of {I J : σ → Prop} (hI : ∀ s, L.Reachable s → I s) (h₀ : ∀ s, L.init s → J s)
    (hstep : ∀ s a t, I s → J s → L.step s a t → J t) {s : σ} (h : L.Reachable s) : J s := by
  have : L.Reachable s ∧ J s := by
    refine Reachable.invariant (I := fun s => L.Reachable s ∧ J s) (fun s hs => ⟨.init hs, h₀ s hs⟩) ?_ h
    intro s a t ⟨hr, hj⟩ hs
    exact ⟨hr.step hs, hstep s a t (hI s hr) hj hs⟩
  exact this.2

/-! ## Runs whose steps all meet a condition -/

def restrict (L : Lts σ α) (C : σ → α → Prop) : Lts σ α where
  init := L.init
  step s a t := C s a ∧ L.step s a t

variable {C : σ → α → Prop}

theorem Run.of_restrict {s t : σ} {tr : List α} (h : (L.restrict C).Run s tr t) : L.Run s tr t := by
  induction h with
  | nil s => exact .nil s
  | cons hs _ ih => exact .cons hs.2 ih

theorem Reachable.of_restrict {s : σ} (h : (L.restrict C).Reachable s) : L.Reachable s := by
  obtain ⟨s₀, tr, h₀, hr⟩ := h
  exact ⟨s₀, tr, h₀, hr.of_restrict⟩

/-- Along a run from a state with `I` and `P`: if a step from such a state keeps
`P` exactly where it meets `C`, and then keeps `I` too, then `P` holds at every state
of the run if and only if every step of it meets `C`. -/
theorem Run.always_iff {I P : σ → Prop} (hP : ∀ s a t, I s → P s → L.step s a t → (P t ↔ C s a))
    (hI : ∀ s a t, I s → P s → C s a → L.step s a t → I t) {s₀ : σ} (h₀ : I s₀ ∧ P s₀) (tr : List α) :
    (∀ tr' s, tr' <+: tr → L.Run s₀ tr' s → P s) ↔
      ∀ tr' s a t, tr' ++ [a] <+: tr → L.Run s₀ tr' s → L.step s a t → C s a := by
  have both : ∀ {D : List α → Prop}, (∀ tr' s a t, D (tr' ++ [a]) → I s → P s → L.Run s₀ tr' s →
      L.step s a t → C s a) → (∀ tr' a, D (tr' ++ [a]) → D tr') →
      ∀ tr' s, D tr' → L.Run s₀ tr' s → I s ∧ P s := by
    intro D hC hD tr'
    induction tr' using List.reverseRecOn with
    | nil => intro s _ hr; cases hr; exact h₀
    | append_singleton tr' a ih =>
      intro t hd hr
      obtain ⟨s, hr, hs⟩ := hr.last
      obtain ⟨hi, hp⟩ := ih s (hD _ _ hd) hr
      have hc := hC tr' s a t hd hi hp hr hs
      exact ⟨hI s a t hi hp hc hs, (hP s a t hi hp hs).mpr hc⟩
  have shorter : ∀ (tr' : List α) a, tr' ++ [a] <+: tr → tr' <+: tr :=
    fun tr' a h => (List.prefix_append tr' [a]).trans h
  constructor
  · intro h tr' s a t hpre hr hs
    have hC : ∀ tr' s a t, tr' ++ [a] <+: tr → I s → P s → L.Run s₀ tr' s → L.step s a t → C s a :=
      fun tr' s a t hpre hi hp hr hs => (hP s a t hi hp hs).mp (h _ _ hpre (hr.snoc hs))
    obtain ⟨hi, hp⟩ := both (D := (· <+: tr)) hC shorter tr' s (shorter tr' a hpre) hr
    exact hC tr' s a t hpre hi hp hr hs
  · intro h tr' s hpre hr
    exact (both (D := (· <+: tr)) (fun tr' s a t hpre _ _ hr hs => h tr' s a t hpre hr hs) shorter tr' s hpre hr).2

/-! ## Logs -/

/-- `L` with a log, to which a step adds what `obs` sees of it. -/
def observe {ω : Type*} (L : Lts σ α) (obs : σ → α → List ω) : Lts (σ × List ω) α where
  init s := L.init s.1 ∧ s.2 = []
  step s a t := L.step s.1 a t.1 ∧ t.2 = s.2 ++ obs s.1 a

theorem pairwise_snoc {ω : Type*} {R : ω → ω → Prop} {l : List ω} {x : ω} (h : l.Pairwise R) (hx : ∀ y ∈ l, R y x) :
    (l ++ [x]).Pairwise R := by
  refine List.pairwise_append.mpr ⟨h, List.pairwise_singleton R x, ?_⟩
  intro y hy z hz
  rw [List.mem_singleton.mp hz]
  exact hx y hy

/-! ## Families -/

/-- A system whose state holds a list of components, the `i`-th of which goes by `M i`: a step takes one
step of one of them, or adds one that has taken its first step, or leaves all as they are. -/
structure Family (L : Lts σ α) (M : Nat → Lts τ β) (parts : σ → List τ) : Prop where
  init : ∀ s, L.init s → parts s = []
  step : ∀ s a t, L.step s a t → parts t = parts s ∨
    (∃ i x b y, (parts s)[i]? = some x ∧ (M i).step x b y ∧ parts t = (parts s).set i y) ∨
    ∃ x b y, (M (parts s).length).init x ∧ (M (parts s).length).step x b y ∧ parts t = parts s ++ [y]

theorem getElem?_set_cases {l : List τ} {i j : Nat} {x y : τ} (h : (l.set i y)[j]? = some x) :
    (j = i ∧ x = y ∧ i < l.length) ∨ (j ≠ i ∧ l[j]? = some x) := by
  by_cases hj : j = i
  · subst hj
    have hlt : j < l.length := by
      by_contra hge
      rw [List.getElem?_eq_none (by rw [List.length_set]; omega)] at h
      cases h
    rw [List.getElem?_set_self hlt] at h
    exact .inl ⟨rfl, (Option.some.inj h).symm, hlt⟩
  · rw [List.getElem?_set_ne (Ne.symm hj)] at h
    exact .inr ⟨hj, h⟩

theorem getElem?_concat_cases {l : List τ} {j : Nat} {x y : τ} (h : (l ++ [y])[j]? = some x) :
    (j = l.length ∧ x = y) ∨ (j < l.length ∧ l[j]? = some x) := by
  rcases Nat.lt_trichotomy j l.length with hlt | rfl | hgt
  · rw [List.getElem?_append_left hlt] at h
    exact .inr ⟨hlt, h⟩
  · rw [List.getElem?_concat_length] at h
    exact .inl ⟨rfl, (Option.some.inj h).symm⟩
  · rw [List.getElem?_eq_none (by rw [List.length_append, List.length_singleton]; omega)] at h
    cases h

theorem Family.reachable {M : Nat → Lts τ β} {parts : σ → List τ} (F : Family L M parts) {s : σ} (h : L.Reachable s) :
    ∀ i x, (parts s)[i]? = some x → (M i).Reachable x := by
  refine h.invariant (I := fun s => ∀ i x, (parts s)[i]? = some x → (M i).Reachable x) ?_ ?_
  · intro s hs i x hx
    rw [F.init s hs] at hx
    cases hx
  · intro s a t ih hs i x hx
    rcases F.step s a t hs with he | ⟨j, y, b, z, hy, hz, he⟩ | ⟨y, b, z, hy, hz, he⟩
    · exact ih i x (he ▸ hx)
    · rw [he] at hx
      rcases getElem?_set_cases hx with ⟨rfl, rfl, -⟩ | ⟨-, hx⟩
      · exact (ih i y hy).step hz
      · exact ih i x hx
    · rw [he] at hx
      rcases getElem?_concat_cases hx with ⟨rfl, rfl⟩ | ⟨-, hx⟩
      · exact (Reachable.init hy).step hz
      · exact ih i x hx

/-! ## Simulations -/

/-- `R` relates initial states to initial states, and every step of `L` to some
run of `M`, possibly the empty one. -/
structure Simulation (L : Lts σ α) (M : Lts τ β) (R : σ → τ → Prop) : Prop where
  init : ∀ s, L.init s → ∃ x, M.init x ∧ R s x
  step : ∀ s a t x, R s x → L.step s a t → ∃ tr y, M.Run x tr y ∧ R t y

theorem Simulation.run {M : Lts τ β} {R : σ → τ → Prop} (S : Simulation L M R) {s t : σ} {tr : List α}
    (hr : L.Run s tr t) : ∀ x, R s x → ∃ tr' y, M.Run x tr' y ∧ R t y := by
  induction hr with
  | nil _ => intro x hx; exact ⟨[], x, .nil x, hx⟩
  | cons hs _ ih =>
    intro x hx
    obtain ⟨tr₁, y, h₁, hy⟩ := S.step _ _ _ x hx hs
    obtain ⟨tr₂, z, h₂, hz⟩ := ih y hy
    exact ⟨tr₁ ++ tr₂, z, h₁.append h₂, hz⟩

theorem Simulation.reachable {M : Lts τ β} {R : σ → τ → Prop} (S : Simulation L M R) {s : σ}
    (h : L.Reachable s) : ∃ x, M.Reachable x ∧ R s x := by
  obtain ⟨s₀, tr, h₀, hr⟩ := h
  obtain ⟨x₀, hx₀, hR⟩ := S.init s₀ h₀
  obtain ⟨tr', x, hx, hxR⟩ := S.run hr x₀ hR
  exact ⟨x, ⟨x₀, tr', hx₀, hx⟩, hxR⟩

/-- Every step of `L` with the label `a` is a run of `M` with the labels `f a`. -/
theorem Run.tracks {M : Lts τ β} {R : σ → τ → Prop} {f : α → List β}
    (hstep : ∀ s a t x, R s x → L.step s a t → ∃ y, M.Run x (f a) y ∧ R t y) {s t : σ} {tr : List α}
    (hr : L.Run s tr t) : ∀ x, R s x → ∃ y, M.Run x (tr.flatMap f) y ∧ R t y := by
  induction hr with
  | nil _ => intro x hx; exact ⟨x, .nil x, hx⟩
  | cons hs _ ih =>
    intro x hx
    obtain ⟨y, h₁, hy⟩ := hstep _ _ _ x hx hs
    obtain ⟨z, h₂, hz⟩ := ih y hy
    exact ⟨z, h₁.append h₂, hz⟩

/-! ## Runs of a step function -/

def exec (f : σ → α → Option σ) : σ → List α → Option σ
  | s, [] => some s
  | s, a :: tr => (f s a).bind fun t => exec f t tr

theorem run_of_exec {f : σ → α → Option σ} (hf : ∀ s a t, f s a = some t → L.step s a t) :
    ∀ {tr : List α} {s t : σ}, exec f s tr = some t → L.Run s tr t
  | [], s, t, h => by
    simp only [exec, Option.some.injEq] at h
    subst h; exact .nil s
  | a :: tr, s, t, h => by
    simp only [exec, Option.bind_eq_some_iff] at h
    obtain ⟨u, hu, ht⟩ := h
    exact .cons (hf _ _ _ hu) (run_of_exec hf ht)

end Lts

end MyLearning
