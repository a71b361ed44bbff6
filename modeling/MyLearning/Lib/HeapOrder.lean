import Mathlib.Algebra.BigOperators.Group.Finset.Basic
import Mathlib.Algebra.Order.BigOperators.Group.Finset
import Mathlib.Data.Nat.Log
import Mathlib.Logic.Equiv.Basic
import Mathlib.Order.Defs.LinearOrder
import Mathlib.Order.Lattice

/-!
# Heaps in a row of cells

The cells of a binary tree numbered level by level. Sifting a cell down repairs the
only edges that can be out of order, those that leave it; a heap of `n` cells in front of
a sorted rest gives up its first cell to the rest.
-/

namespace MyLearning.HeapOrder

def IsChild (p c : ℕ) : Prop := c = 2 * p + 1 ∨ c = 2 * p + 2

theorem IsChild.lt {p c : ℕ} (h : IsChild p c) : p < c := by
  unfold IsChild at h; omega

theorem IsChild.parent_eq {p q c : ℕ} (h : IsChild p c) (h' : IsChild q c) : p = q := by
  unfold IsChild at h h'; omega

theorem exists_parent {c : ℕ} (h : 0 < c) : ∃ p, IsChild p c := ⟨(c - 1) / 2, by unfold IsChild; omega⟩

section
variable {α : Type*}

/-! ## Rearranging the first cells -/

def Rearranged (n : ℕ) (f g : ℕ → α) : Prop := ∃ σ : Equiv.Perm ℕ, (∀ j, n ≤ j → σ j = j) ∧ g = f ∘ σ

def RearrangedOn (S : ℕ → Prop) (f g : ℕ → α) : Prop := ∃ σ : Equiv.Perm ℕ, (∀ j, ¬ S j → σ j = j) ∧ g = f ∘ σ

section
variable {S : ℕ → Prop} {n : ℕ} {f g h : ℕ → α}

theorem RearrangedOn.refl (S : ℕ → Prop) (f : ℕ → α) : RearrangedOn S f f := ⟨Equiv.refl ℕ, fun _ _ => rfl, rfl⟩

theorem RearrangedOn.trans (hfg : RearrangedOn S f g) (hgh : RearrangedOn S g h) : RearrangedOn S f h := by
  obtain ⟨σ, hσ, rfl⟩ := hfg
  obtain ⟨τ, hτ, rfl⟩ := hgh
  refine ⟨τ.trans σ, ?_, rfl⟩
  intro j hj
  rw [Equiv.trans_apply, hτ j hj, hσ j hj]

theorem RearrangedOn.swap {i j : ℕ} (f : ℕ → α) (hi : S i) (hj : S j) : RearrangedOn S f (f ∘ Equiv.swap i j) := by
  refine ⟨Equiv.swap i j, ?_, rfl⟩
  intro k hk
  have hki : k ≠ i := fun h => hk (h ▸ hi)
  have hkj : k ≠ j := fun h => hk (h ▸ hj)
  exact Equiv.swap_apply_of_ne_of_ne hki hkj

theorem RearrangedOn.frame (h : RearrangedOn S f g) {j : ℕ} (hj : ¬ S j) : g j = f j := by
  obtain ⟨σ, hσ, rfl⟩ := h
  rw [Function.comp_apply, hσ j hj]

theorem RearrangedOn.rearranged (h : RearrangedOn S f g) (hS : ∀ j, S j → j < n) : Rearranged n f g := by
  obtain ⟨σ, hσ, rfl⟩ := h
  refine ⟨σ, ?_, rfl⟩
  intro j hj
  exact hσ j fun hs => Nat.not_lt.mpr hj (hS j hs)

theorem Rearranged.on (h : Rearranged n f g) : RearrangedOn (· < n) f g := by
  obtain ⟨σ, hσ, rfl⟩ := h
  exact ⟨σ, fun j hj => hσ j (Nat.not_lt.mp hj), rfl⟩

theorem Rearranged.refl (n : ℕ) (f : ℕ → α) : Rearranged n f f := (RearrangedOn.refl (· < n) f).rearranged fun _ => id

theorem Rearranged.trans (hfg : Rearranged n f g) (hgh : Rearranged n g h) : Rearranged n f h :=
  (hfg.on.trans hgh.on).rearranged fun _ => id

theorem Rearranged.swap {i j : ℕ} (f : ℕ → α) (hi : i < n) (hj : j < n) : Rearranged n f (f ∘ Equiv.swap i j) :=
  (RearrangedOn.swap (S := (· < n)) f hi hj).rearranged fun _ => id

end

theorem fixed_lt {n : ℕ} {σ : Equiv.Perm ℕ} (hσ : ∀ j, n ≤ j → σ j = j) {i : ℕ} (hi : i < n) : σ i < n := by
  by_contra h
  have := σ.injective (hσ (σ i) (by omega))
  omega

variable [LinearOrder α]

/-! ## Order along the edges -/

/-- The edges of the tree of `n` cells that leave a cell in `S` are in order. -/
def HeapOn (f : ℕ → α) (S : ℕ → Prop) (n : ℕ) : Prop := ∀ p c, S p → IsChild p c → c < n → f c ≤ f p

/-- As `HeapOn`, but for the edges that leave `i`. -/
structure SiftingOn (f : ℕ → α) (S : ℕ → Prop) (n i : ℕ) : Prop where
  off : ∀ p c, S p → p ≠ i → IsChild p c → c < n → f c ≤ f p
  grand : ∀ p c, S p → IsChild p i → IsChild i c → c < n → f c ≤ f p

def HeapFrom (f : ℕ → α) (k n : ℕ) : Prop := ∀ p c, k ≤ p → IsChild p c → c < n → f c ≤ f p

structure Sifting (f : ℕ → α) (k n i : ℕ) : Prop where
  off : ∀ p c, k ≤ p → p ≠ i → IsChild p c → c < n → f c ≤ f p
  grand : ∀ p c, k ≤ p → IsChild p i → IsChild i c → c < n → f c ≤ f p

structure Largest (f : ℕ → α) (n i g : ℕ) : Prop where
  choice : g = i ∨ IsChild i g ∧ g < n
  self : f i ≤ f g
  child : ∀ c, IsChild i c → c < n → f c ≤ f g

variable {f : ℕ → α}

theorem HeapFrom.root {n : ℕ} (h : HeapFrom f 0 n) (i : ℕ) (hi : i < n) : f i ≤ f 0 := by
  induction i using Nat.strongRecOn with
  | ind i ih =>
    by_cases h0 : i = 0
    · rw [h0]
    · obtain ⟨p, hp⟩ := exists_parent (Nat.pos_of_ne_zero h0)
      have hlt := hp.lt
      exact (h p i (Nat.zero_le p) hp hi).trans (ih p hlt (by omega))

theorem HeapFrom.parent {n : ℕ} (h : HeapFrom f 0 n) {i : ℕ} (hi : 0 < i) (hn : i < n) : f i ≤ f ((i - 1) / 2) := by
  refine h _ i (Nat.zero_le _) ?_ hn
  unfold IsChild
  omega

theorem HeapFrom.of_leaves {k n : ℕ} (h : n ≤ 2 * k + 1) : HeapFrom f k n := by
  intro p c hp hc hn
  unfold IsChild at hc
  omega

theorem HeapFrom.sifting {k n : ℕ} (h : HeapFrom f (k + 1) n) : Sifting f k n k := by
  constructor
  · intro p c hp hne hc hn
    exact h p c (by omega) hc hn
  · intro p c hp hpk
    have := hpk.lt
    omega

theorem HeapFrom.swap {n : ℕ} (h : HeapFrom f 0 (n + 1)) : Sifting (f ∘ Equiv.swap 0 n) 0 n 0 := by
  constructor
  · intro p c _ hp hc hn
    have hlt := hc.lt
    simp only [Function.comp_apply]
    rw [Equiv.swap_apply_of_ne_of_ne (by omega) (by omega), Equiv.swap_apply_of_ne_of_ne (by omega) (by omega)]
    exact h p c (Nat.zero_le p) hc (by omega)
  · intro p c _ hp
    have := hp.lt
    omega

theorem Sifting.on {k n i : ℕ} (h : Sifting f k n i) : SiftingOn f (k ≤ ·) n i := ⟨h.off, h.grand⟩

theorem SiftingOn.finish {S : ℕ → Prop} {n i : ℕ} (h : SiftingOn f S n i) (hi : Largest f n i i) : HeapOn f S n := by
  intro p c hp hc hn
  by_cases hpi : p = i
  · subst hpi; exact hi.child c hc hn
  · exact h.off p c hp hpi hc hn

theorem SiftingOn.move {S : ℕ → Prop} {n i g : ℕ} (h : SiftingOn f S n i) (hi : S i) (hgS : S g)
    (hg : Largest f n i g) (hne : g ≠ i) : SiftingOn (f ∘ Equiv.swap i g) S n g := by
  obtain ⟨hig, hgn⟩ := hg.choice.resolve_left hne
  have hlt := hig.lt
  constructor
  · intro p c hp hpg hc hn
    have hpc := hc.lt
    simp only [Function.comp_apply]
    by_cases hpi : p = i
    · subst hpi
      rw [Equiv.swap_apply_left]
      by_cases hcg : c = g
      · rw [hcg, Equiv.swap_apply_right]; exact hg.self
      · rw [Equiv.swap_apply_of_ne_of_ne (by omega) hcg]; exact hg.child c hc hn
    · rw [Equiv.swap_apply_of_ne_of_ne hpi hpg]
      by_cases hci : c = i
      · subst hci
        rw [Equiv.swap_apply_left]; exact h.grand p g hp hc hig hgn
      · have hcg : c ≠ g := by
          intro hcg
          subst hcg
          exact hpi (hc.parent_eq hig)
        rw [Equiv.swap_apply_of_ne_of_ne hci hcg]; exact h.off p c hp hpi hc hn
  · intro p c hp hpg hgc hn
    have hpi := hpg.parent_eq hig
    have hlt' := hgc.lt
    subst hpi
    simp only [Function.comp_apply]
    rw [Equiv.swap_apply_left, Equiv.swap_apply_of_ne_of_ne (by omega) (by omega)]
    exact h.off g c hgS hne hgc hn

/-! ## Subtrees -/

def Subtree (i : ℕ) : ℕ → Prop := Relation.ReflTransGen IsChild i

def Descendant (i : ℕ) : ℕ → Prop := Relation.TransGen IsChild i

theorem Subtree.child {i p c : ℕ} (hp : Subtree i p) (hc : IsChild p c) : Subtree i c := hp.tail hc

theorem Subtree.le {i j : ℕ} (h : Subtree i j) : i ≤ j := by
  induction h with
  | refl => exact le_refl i
  | tail _ hc ih => exact ih.trans hc.lt.le

theorem Descendant.lt {i j : ℕ} (h : Descendant i j) : i < j := by
  induction h with
  | single hc => exact hc.lt
  | tail _ hc ih => exact ih.trans hc.lt

theorem Subtree.descendant {i j : ℕ} (h : Subtree i j) (hne : j ≠ i) : Descendant i j :=
  (Relation.reflTransGen_iff_eq_or_transGen.mp h).resolve_left hne

theorem HeapOn.sifting {n i : ℕ} (h : HeapOn f (Descendant i) n) : SiftingOn f (Subtree i) n i := by
  constructor
  · intro p c hp hne hc hn
    exact h p c (hp.descendant hne) hc hn
  · intro p c hp hpi
    have hle := hp.le
    have hlt := hpi.lt
    omega

/-! ## A sorted rest -/

structure Rest (f : ℕ → α) (n len : ℕ) : Prop where
  sorted : ∀ i j, n ≤ i → i ≤ j → j < len → f i ≤ f j
  above : ∀ i j, i < n → n ≤ j → j < len → f i ≤ f j

theorem Rest.all (f : ℕ → α) (n : ℕ) : Rest f n n := by
  constructor
  · intro i j hi hij hj; omega
  · intro i j _ hj hj'; omega

theorem Rest.rearranged {g : ℕ → α} {n len : ℕ} (h : Rest f n len) (hr : Rearranged n f g) : Rest g n len := by
  obtain ⟨σ, hσ, rfl⟩ := hr
  constructor
  · intro i j hi hij hj
    simp only [Function.comp_apply]
    rw [hσ i hi, hσ j (by omega)]; exact h.sorted i j hi hij hj
  · intro i j hi hj hjl
    simp only [Function.comp_apply]
    rw [hσ j hj]; exact h.above (σ i) j (fixed_lt hσ hi) hj hjl

theorem Rest.extract {n len : ℕ} (h : Rest f (n + 1) len) (hf : HeapFrom f 0 (n + 1)) :
    Rest (f ∘ Equiv.swap 0 n) n len := by
  have late : ∀ j, n < j → Equiv.swap 0 n j = j := fun j hj =>
    Equiv.swap_apply_of_ne_of_ne (by omega) (by omega)
  have hσ : ∀ j, n + 1 ≤ j → Equiv.swap 0 n j = j := fun j hj => late j (by omega)
  constructor
  · intro i j hi hij hj
    simp only [Function.comp_apply]
    by_cases hjn : j = n
    · have hin : i = n := by omega
      rw [hin, hjn]
    · rw [late j (by omega)]
      by_cases hin : i = n
      · rw [hin, Equiv.swap_apply_right]; exact h.above 0 j (by omega) (by omega) hj
      · rw [late i (by omega)]; exact h.sorted i j (by omega) hij hj
  · intro i j hi hj hjl
    simp only [Function.comp_apply]
    have hs := fixed_lt hσ (show i < n + 1 by omega)
    by_cases hjn : j = n
    · rw [hjn, Equiv.swap_apply_right]; exact hf.root _ hs
    · rw [late j (by omega)]; exact h.above _ j hs (by omega) hjl

end

/-! ## Heights -/

/-- How many levels of a heap of `n` cells are below the one of `i`. -/
def height (n i : ℕ) : ℕ := Nat.log 2 (n / (i + 1))

theorem height_half {n i : ℕ} (h : 2 * (i + 1) ≤ n) : height n i = height (n / 2) i + 1 := by
  unfold height
  rw [Nat.log_of_one_lt_of_le Nat.one_lt_two ((Nat.le_div_iff_mul_le (Nat.succ_pos i)).mpr h), Nat.div_right_comm]

theorem height_leaf {n i : ℕ} (h : n < 2 * (i + 1)) : height n i = 0 :=
  Nat.log_of_lt ((Nat.div_lt_iff_lt_mul (Nat.succ_pos i)).mpr h)

theorem height_child {n p c : ℕ} (hc : IsChild p c) (hn : c < n) : height n c + 1 ≤ height n p := by
  have hle : 2 * (p + 1) ≤ c + 1 := by
    unfold IsChild at hc
    omega
  rw [height_half (show 2 * (p + 1) ≤ n by omega)]
  refine Nat.succ_le_succ (Nat.log_mono_right ?_)
  calc n / (c + 1) ≤ n / (2 * (p + 1)) := Nat.div_le_div_left hle (by omega)
    _ = n / 2 / (p + 1) := (Nat.div_div_eq_div_mul ..).symm

theorem sum_height_le (n : ℕ) : ∑ i ∈ Finset.range n, height n i ≤ n := by
  induction n using Nat.strongRecOn with
  | ind n ih =>
    rcases Nat.eq_zero_or_pos n with rfl | hn
    · simp
    · -- the parents are a heap of half the size, with each cell one level lower
      have hleaves : ∑ i ∈ Finset.range (n / 2), height n i = ∑ i ∈ Finset.range n, height n i := by
        refine Finset.sum_subset (Finset.range_subset_range.mpr (Nat.div_le_self n 2)) ?_
        intro i _ hi
        rw [Finset.mem_range] at hi
        exact height_leaf (by omega)
      have hparents : ∑ i ∈ Finset.range (n / 2), height n i = ∑ i ∈ Finset.range (n / 2), (height (n / 2) i + 1) := by
        refine Finset.sum_congr rfl ?_
        intro i hi
        rw [Finset.mem_range] at hi
        exact height_half (by omega)
      have hhalf := ih (n / 2) (by omega)
      rw [← hleaves, hparents, Finset.sum_add_distrib, ← Finset.card_eq_sum_ones, Finset.card_range]
      omega

end MyLearning.HeapOrder
