import Mathlib.Data.List.Nodup
import Mathlib.Data.List.Pairwise
import Mathlib.Data.List.Perm.Basic
import Mathlib.Data.Set.Finite.Lattice

/-!
# Walks that list what comes next

A walk visits a node and then, one after the other, the nodes that are listed there. It
visits the elements of a set once each where the listings of that set name every element
but the first one exactly once, and nothing else.
-/

namespace MyLearning.Walk

variable {α : Type*} (next : α → List α)

/-! ## Walks -/

def walk : Nat → α → List α
  | 0, _ => []
  | n + 1, a => a :: (next a).flatMap (walk n)

def Complete : Nat → α → Prop
  | 0, _ => False
  | n + 1, a => ∀ b ∈ next a, Complete n b

variable {next}

theorem complete_mono {n m : Nat} (hnm : n ≤ m) {a : α} (h : Complete next n a) : Complete next m a := by
  induction n generalizing m a with
  | zero => exact h.elim
  | succ n ih =>
    obtain ⟨m, rfl⟩ := Nat.exists_eq_add_of_le' (Nat.le_of_add_left_le hnm)
    intro b hb
    exact ih (Nat.le_of_succ_le_succ hnm) (h b hb)

theorem walk_mono {n m : Nat} (hnm : n ≤ m) {a : α} (h : Complete next n a) : walk next m a = walk next n a := by
  induction n generalizing m a with
  | zero => exact h.elim
  | succ n ih =>
    obtain ⟨m, rfl⟩ := Nat.exists_eq_add_of_le' (Nat.le_of_add_left_le hnm)
    simp only [walk, List.flatMap]
    rw [List.map_congr_left fun b hb => ih (Nat.le_of_succ_le_succ hnm) (h b hb)]

/-- What is visited is the first node and all that is listed at visited nodes. -/
theorem walk_perm {n : Nat} {a : α} (h : Complete next n a) :
    (walk next n a).Perm (a :: (walk next n a).flatMap next) := by
  induction n generalizing a with
  | zero => exact h.elim
  | succ n ih =>
    -- below the first node, the walks from what it lists
    have hstep : ((next a).flatMap (walk next n)).Perm
        (next a ++ (next a).flatMap fun b => (walk next n b).flatMap next) := by
      refine (List.Perm.flatMap_left _ fun b hb => ih (h b hb)).trans ?_
      simpa using (List.map_append_flatMap_perm (next a) id fun b => (walk next n b).flatMap next).symm
    simp only [walk, List.flatMap_cons, List.flatMap_assoc]
    exact hstep.cons a

theorem mem_walk_iff {n : Nat} {a b : α} (h : Complete next n a) :
    b ∈ walk next n a ↔ b = a ∨ ∃ c ∈ walk next n a, b ∈ next c := by
  rw [(walk_perm h).mem_iff, List.mem_cons, List.mem_flatMap]

theorem walk_subset {T : Set α} (hT : ∀ b ∈ T, ∀ c ∈ next b, c ∈ T) {n : Nat} {a : α} (ha : a ∈ T) :
    ∀ b ∈ walk next n a, b ∈ T := by
  induction n generalizing a with
  | zero => simp [walk]
  | succ n ih =>
    intro b hb
    rcases List.mem_cons.mp hb with rfl | hb
    · exact ha
    · obtain ⟨c, hc, hb⟩ := List.mem_flatMap.mp hb
      exact ih (hT a ha c hc) b hb

/-! ## Ranks -/

variable {rank : α → Nat}

theorem complete_of_rank {T : Set α} {m : Nat} (hT : ∀ b ∈ T, ∀ c ∈ next b, c ∈ T) (hm : ∀ b ∈ T, rank b < m)
    (hrank : ∀ b, ∀ c ∈ next b, rank b < rank c) {n : Nat} {a : α} (ha : a ∈ T) (hn : m ≤ rank a + n) :
    Complete next n a := by
  induction n generalizing a with
  | zero => exact absurd (hm a ha) (Nat.not_lt.mpr hn)
  | succ n ih =>
    intro b hb
    have hlt := hrank a b hb
    exact ih (hT a ha b hb) (by omega)

theorem count_flatMap_le [DecidableEq α] {c b : α} (hb : (next b).Nodup) :
    ∀ {l : List α}, (∀ d ∈ l, c ∈ next d → d = b) → (l.flatMap next).count c ≤ l.count b
  | [], _ => by simp
  | d :: l, h => by
    have ih := count_flatMap_le hb fun d' hd' => h d' (List.mem_cons_of_mem _ hd')
    rw [List.flatMap_cons, List.count_append, List.count_cons]
    by_cases hc : c ∈ next d
    · have hd : d = b := h d (List.mem_cons_self ..) hc
      subst hd
      have hone := List.nodup_iff_count_le_one.mp hb c
      simp only [beq_self_eq_true, if_true]
      omega
    · rw [List.count_eq_zero_of_not_mem hc]
      omega

/-! ## Every element once -/

/-- The walk from `a` ends, and visits the elements of `T` once each. -/
def Covers (next : α → List α) (T : Set α) (a : α) : Prop :=
  ∃ n, Complete next n a ∧ (walk next n a).Nodup ∧ ∀ b, b ∈ walk next n a ↔ b ∈ T

/-- Every element of `T` but `a` is listed at exactly one other, and nothing outside of `T` is. -/
structure ListsOnce (next : α → List α) (T : Set α) (a : α) : Prop where
  inside : ∀ b ∈ T, ∀ c ∈ next b, c ∈ T
  once : ∀ c ∈ T, c ≠ a → ∃! b, b ∈ T ∧ c ∈ next b

theorem Covers.listsOnce {T : Set α} {a : α} (h : Covers next T a) : ListsOnce next T a := by
  obtain ⟨n, hc, hnodup, hmem⟩ := h
  have hnodup' := ((walk_perm hc).nodup_iff.mp hnodup).of_cons
  have hpair := (List.nodup_flatMap.mp hnodup').2
  constructor
  · intro b hb c hcb
    rw [← hmem] at hb ⊢
    exact (mem_walk_iff hc).mpr (.inr ⟨b, hb, hcb⟩)
  · intro c hcT hca
    rw [← hmem, mem_walk_iff hc] at hcT
    obtain ⟨b, hb, hcb⟩ := hcT.resolve_left hca
    refine ⟨b, ⟨(hmem b).mp hb, hcb⟩, ?_⟩
    intro b' hb'
    by_contra hne
    have hsymm : Std.Symm (Function.onFun List.Disjoint next) := ⟨fun _ _ hdisj => hdisj.symm⟩
    have hdisj := hpair.forall ((hmem b').mpr hb'.1) hb hne
    exact hdisj hb'.2 hcb

theorem count_flatMap_of_notMem [DecidableEq α] {c : α} {l : List α} (h : ∀ b ∈ l, c ∉ next b) :
    (l.flatMap next).count c = 0 := by
  rw [List.count_eq_zero, List.mem_flatMap]
  intro hmem
  obtain ⟨b, hb, hcb⟩ := hmem
  exact h b hb hcb

section Listed

variable {T : Set α} {a : α} {n : Nat}

theorem ListsOnce.mem_walk (h : ListsOnce next T a) (hrank : ∀ b, ∀ c ∈ next b, rank b < rank c)
    (hc : Complete next n a) {c : α} (hcT : c ∈ T) : c ∈ walk next n a := by
  -- by the rank: what lists `c` is of a lower one
  induction hr : rank c using Nat.strong_induction_on generalizing c with
  | h r ih =>
    subst hr
    by_cases hca : c = a
    · exact (mem_walk_iff hc).mpr (.inl hca)
    · obtain ⟨b, ⟨hb, hcb⟩, -⟩ := h.once c hcT hca
      exact (mem_walk_iff hc).mpr (.inr ⟨b, ih (rank b) (hrank b c hcb) hb rfl, hcb⟩)

theorem ListsOnce.count_walk [DecidableEq α] (h : ListsOnce next T a) (ha : a ∈ T) (hnodup : ∀ b, (next b).Nodup)
    (hrank : ∀ b, ∀ c ∈ next b, rank b < rank c) (hroot : ∀ b ∈ T, rank a ≤ rank b) (hc : Complete next n a)
    (c : α) : (walk next n a).count c ≤ 1 := by
  have hsub := walk_subset h.inside (n := n) ha
  induction hr : rank c using Nat.strong_induction_on generalizing c with
  | h r ih =>
    subst hr
    rw [(walk_perm hc).count_eq, List.count_cons]
    by_cases hca : c = a
    · subst hca
      have hzero := count_flatMap_of_notMem (l := walk next n c) fun b hb hcb =>
        Nat.not_lt.mpr (hroot b (hsub b hb)) (hrank b c hcb)
      simp [hzero]
    · have hne : (a == c) = false := by simpa using Ne.symm hca
      rw [hne]
      by_cases hcT : c ∈ T
      · obtain ⟨b, ⟨hb, hcb⟩, huniq⟩ := h.once c hcT hca
        have hle := count_flatMap_le (hnodup b) (l := walk next n a)
          fun d hd hcd => huniq d ⟨hsub d hd, hcd⟩
        have hone := ih (rank b) (hrank b c hcb) b rfl
        simp only [Bool.false_eq_true, if_false]
        omega
      · have hzero := count_flatMap_of_notMem (l := walk next n a) fun b hb hcb =>
          hcT (h.inside b (hsub b hb) c hcb)
        simp [hzero]

theorem ListsOnce.covers (h : ListsOnce next T a) (hfin : T.Finite) (ha : a ∈ T)
    (hnodup : ∀ b, (next b).Nodup) (hrank : ∀ b, ∀ c ∈ next b, rank b < rank c)
    (hroot : ∀ b ∈ T, rank a ≤ rank b) : Covers next T a := by
  classical
  obtain ⟨m, hm⟩ := (hfin.image rank).bddAbove
  have hm : ∀ b ∈ T, rank b < m + 1 := fun b hb => Nat.lt_succ_of_le (hm (Set.mem_image_of_mem rank hb))
  have hc : Complete next (m + 1) a := complete_of_rank h.inside hm hrank ha (Nat.le_add_left ..)
  refine ⟨m + 1, hc, ?_, ?_⟩
  · rw [List.nodup_iff_count_le_one]
    exact h.count_walk ha hnodup hrank hroot hc
  · intro c
    exact ⟨walk_subset h.inside ha c, h.mem_walk hrank hc⟩

end Listed

end MyLearning.Walk
