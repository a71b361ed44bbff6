import MyLearning.Alog.Heap
import MyLearning.Lib.HeapOrder

/-!
# What heapSort does

`maxHeapfiy` sifts a cell down in the part of the vector that is still a heap; `init` makes
a heap from the last parent to the first; the loop of `heapSort` keeps a heap in front of a
sorted rest. No index leaves its type or the vector.
-/

namespace MyLearning.HeapSort

open HeapOrder

def view (vec : Array Int) (i : ℕ) : Int := vec.getD i 0

/-- `w` is `vec` with some of the first `n` cells exchanged. -/
structure Moved (n : ℕ) (vec w : Array Int) : Prop where
  cells : Rearranged n (view vec) (view w)
  perm : Array.Perm w vec

theorem Moved.refl (n : ℕ) (vec : Array Int) : Moved n vec vec := ⟨.refl n _, .refl vec⟩

theorem Moved.trans {n : ℕ} {vec w x : Array Int} (h : Moved n vec w) (h' : Moved n w x) : Moved n vec x :=
  ⟨h.cells.trans h'.cells, h'.perm.trans h.perm⟩

theorem Moved.size {n : ℕ} {vec w : Array Int} (h : Moved n vec w) : w.size = vec.size := h.perm.size_eq

/-! ## Accesses -/

theorem get_eq {vec : Array Int} {i : ℕ} (hi : i < vec.size) : get vec i = .ok (view vec i) := by
  unfold get view
  rw [dif_pos ⟨by omega, by omega⟩]
  simp [Array.getD, hi]

theorem view_swap {vec : Array Int} {i j : ℕ} (hi : i < vec.size) (hj : j < vec.size) :
    view (vec.swap i j) = view vec ∘ Equiv.swap i j := by
  funext k
  simp only [view, Function.comp_apply, Equiv.swap_apply_def]
  by_cases hk : k < vec.size
  · simp only [Array.getD, Array.size_swap, hk, dif_pos]
    split <;> [skip; split] <;> simp [*]
  · have hki : k ≠ i := by omega
    have hkj : k ≠ j := by omega
    simp [Array.getD, hk, hki, hkj]

theorem swap_eq {vec : Array Int} {i j n : ℕ} (hi : i < n) (hj : j < n) (hn : n ≤ vec.size) :
    ∃ w, swap vec i j = .ok w ∧ view w = view vec ∘ Equiv.swap i j ∧ Moved n vec w := by
  have hi' : i < vec.size := by omega
  have hj' : j < vec.size := by omega
  refine ⟨vec.swap i j, ?_, view_swap hi' hj', ?_, Array.swap_perm hi' hj'⟩
  · unfold swap
    rw [dif_pos ⟨⟨by omega, by omega⟩, by omega, by omega⟩]
    rfl
  · rw [view_swap hi' hj']; exact .swap _ hi hj

theorem left_eq {i : ℕ} (hi : i < 2 ^ 30) : left i = .ok (2 * i + 1 : ℕ) := by
  unfold left
  rw [int32_eq_ok.mpr ⟨⟨by omega, by omega⟩, rfl⟩, ok_bind, int32_eq_ok]
  push_cast
  omega

theorem right_eq {i : ℕ} (hi : i + 1 < 2 ^ 30) : right i = .ok (2 * i + 2 : ℕ) := by
  unfold right
  rw [int32_eq_ok.mpr ⟨⟨by omega, by omega⟩, rfl⟩, ok_bind, int32_eq_ok]
  push_cast
  omega

theorem size_eq {vec : Array Int} (h : vec.size < 2 ^ 30) : size vec = vec.size := by
  unfold size
  apply Int.bmod_eq_of_le <;> omega

/-! ## maxHeapfiy -/

theorem larger_spec {vec : Array Int} {n g c : ℕ} (hg : g < vec.size) (hn : n ≤ vec.size) :
    ∃ g' : ℕ, larger vec n g c = .ok g' ∧ (g' = g ∨ g' = c ∧ c < n) ∧ view vec g ≤ view vec g' ∧
      (c < n → view vec c ≤ view vec g') := by
  unfold larger
  by_cases hc : c < n
  · rw [if_pos (by omega), get_eq (by omega), get_eq hg, ok_bind, ok_bind]
    by_cases hlt : view vec c > view vec g
    · rw [if_pos hlt]
      exact ⟨c, rfl, .inr ⟨rfl, hc⟩, le_of_lt hlt, fun _ => le_refl _⟩
    · rw [if_neg hlt]
      exact ⟨g, rfl, .inl rfl, le_refl _, fun _ => not_lt.mp hlt⟩
  · rw [if_neg (by omega)]
    exact ⟨g, rfl, .inl rfl, le_refl _, fun h => absurd h hc⟩

theorem largest_spec {vec : Array Int} {i n : ℕ} (hi : i < vec.size) (hn : n ≤ vec.size)
    (hs : vec.size < 2 ^ 30) : ∃ g : ℕ, largest vec i n = .ok g ∧ Largest (view vec) n i g := by
  unfold largest
  rw [left_eq (by omega), right_eq (by omega), ok_bind, ok_bind]
  obtain ⟨l, hl, hlc, hil, hll⟩ := larger_spec (c := 2 * i + 1) hi hn
  obtain ⟨g, hg, hgc, hlg, hgg⟩ := larger_spec (g := l) (c := 2 * i + 2) (by omega) hn
  rw [hl, ok_bind]
  refine ⟨g, hg, ?_, hil.trans hlg, ?_⟩
  · unfold IsChild
    omega
  · intro c hc hcn
    rcases hc with rfl | rfl
    · exact (hll hcn).trans hlg
    · exact hgg hcn

theorem maxHeapfiy_on {n : ℕ} {S : ℕ → Prop} (hchild : ∀ p c, S p → IsChild p c → S c) :
    ∀ {vec : Array Int} {i : ℕ}, S i → i < vec.size → n ≤ vec.size → vec.size < 2 ^ 30 →
    SiftingOn (view vec) S n i →
    ∃ w, maxHeapfiy vec i n = .ok w ∧ HeapOn (view w) S n ∧
      RearrangedOn (fun j => S j ∧ j < n) (view vec) (view w) ∧ Array.Perm w vec := by
  intro vec i hS hi hn hs hf
  obtain ⟨g, hg, hgl⟩ := largest_spec hi hn hs
  rw [maxHeapfiy]
  split
  · rename_i h
    rw [hg] at h
    cases h
  · rename_i g' h
    rw [hg] at h
    cases h
    by_cases hgi : g = i
    · subst hgi
      rw [dif_neg (by simp)]
      exact ⟨vec, rfl, hf.finish hgl, .refl _ _, .refl vec⟩
    · rw [dif_pos (by omega)]
      obtain ⟨hig, hgn⟩ := hgl.choice.resolve_left hgi
      have hlt := hig.lt
      have hgS := hchild i g hS hig
      obtain ⟨w, hw, hview, hm⟩ := swap_eq (show i < n by omega) hgn hn
      have hsize := hm.size
      have hf' := hf.move hS hgS hgl hgi
      rw [← hview] at hf'
      rw [hw, ok_bind]
      obtain ⟨x, hx, hxf, hxr, hxp⟩ :=
        maxHeapfiy_on hchild hgS (show g < w.size by omega) (by omega) (by omega) hf'
      have hswap := RearrangedOn.swap (S := fun j => S j ∧ j < n) (view vec) ⟨hS, by omega⟩ ⟨hgS, hgn⟩
      rw [← hview] at hswap
      exact ⟨x, hx, hxf, hswap.trans hxr, hxp.trans hm.perm⟩
termination_by _ i => n - i

theorem maxHeapfiy_spec {n k : ℕ} {vec : Array Int} {i : ℕ} (hi : i < vec.size) (hn : n ≤ vec.size)
    (hs : vec.size < 2 ^ 30) (hk : k ≤ i) (hf : Sifting (view vec) k n i) :
    ∃ w, maxHeapfiy vec i n = .ok w ∧ HeapFrom (view w) k n ∧ Moved n vec w := by
  have hchild : ∀ p c, k ≤ p → IsChild p c → k ≤ c := fun _ _ hp hc => hp.trans hc.lt.le
  obtain ⟨w, hw, hwf, hwr, hwp⟩ := maxHeapfiy_on hchild hk hi hn hs hf.on
  exact ⟨w, hw, hwf, hwr.rearranged fun _ hj => hj.2, hwp⟩

/-! ## init -/

theorem initFrom_spec {k : ℕ} : ∀ {vec : Array Int}, k ≤ vec.size → vec.size < 2 ^ 30 →
    HeapFrom (view vec) k vec.size →
    ∃ w, initFrom vec (k - 1) vec.size = .ok w ∧ HeapFrom (view w) 0 vec.size ∧ Moved vec.size vec w := by
  induction k with
  | zero =>
    intro vec _ _ hf
    rw [initFrom, if_neg (by omega)]
    exact ⟨vec, rfl, hf, .refl _ vec⟩
  | succ k ih =>
    intro vec hk hs hf
    obtain ⟨w, hw, hwf, hwm⟩ := maxHeapfiy_spec (show k < vec.size by omega) (le_refl _) hs (le_refl k) hf.sifting
    have hsize := hwm.size
    rw [← hsize] at hwf
    obtain ⟨x, hx, hxf, hxm⟩ := ih (by omega) (by omega) hwf
    rw [hsize] at hx hxf hxm
    have hi : ((k + 1 : ℕ) : Int) - 1 = k := by omega
    rw [hi, initFrom, if_pos (by omega), hw, ok_bind]
    exact ⟨x, hx, hxf, hwm.trans hxm⟩

theorem init_spec {vec : Array Int} (hs : vec.size < 2 ^ 30) :
    ∃ w, init vec = .ok w ∧ HeapFrom (view w) 0 vec.size ∧ Moved vec.size vec w := by
  unfold init
  rw [size_eq hs]
  have hhalf : (vec.size : Int).tdiv 2 - 1 = ((vec.size / 2 : ℕ) : Int) - 1 := by
    rw [Int.tdiv_eq_ediv_of_nonneg (by omega)]
    omega
  rw [hhalf]
  exact initFrom_spec (by omega) hs (.of_leaves (by omega))

/-! ## The loop of heapSort -/

theorem sortFrom_spec {n : ℕ} : ∀ {vec : Array Int}, n ≤ vec.size → vec.size < 2 ^ 30 →
    HeapFrom (view vec) 0 n → Rest (view vec) n vec.size →
    ∃ w, sortFrom vec n n = .ok w ∧ Rest (view w) 0 vec.size ∧ Array.Perm w vec := by
  induction n with
  | zero =>
    intro vec _ _ _ hr
    rw [sortFrom, if_neg (by omega)]
    exact ⟨vec, rfl, hr, .refl vec⟩
  | succ n ih =>
    intro vec hn hs hf hr
    have hi : ((n + 1 : ℕ) : Int) - 1 = n := by omega
    obtain ⟨w, hw, hview, hm⟩ := swap_eq (show 0 < n + 1 by omega) (show n < n + 1 by omega) hn
    have hsize := hm.size
    have hwf := hf.swap
    have hwr := hr.extract hf
    rw [← hview] at hwf hwr
    obtain ⟨x, hx, hxf, hxm⟩ := maxHeapfiy_spec (show 0 < w.size by omega) (by omega) (by omega)
      (le_refl 0) hwf
    have hsize' := hxm.size
    have hxr := hwr.rearranged hxm.cells
    rw [← hsize, ← hsize'] at hxr
    obtain ⟨y, hy, hyr, hyp⟩ := ih (by omega) (by omega) hxf hxr
    rw [hsize', hsize] at hyr
    rw [sortFrom, if_pos (by omega), hi]
    simp only [Nat.cast_zero] at hw hx
    rw [hw, ok_bind, hx, ok_bind]
    exact ⟨y, hy, hyr, hyp.trans (hxm.perm.trans hm.perm)⟩

theorem rest_pairwise {vec : Array Int} (h : Rest (view vec) 0 vec.size) : vec.toList.Pairwise (· ≤ ·) := by
  rw [List.pairwise_iff_getElem]
  intro i j hi hj hij
  rw [Array.length_toList] at hi hj
  have := h.sorted i j (Nat.zero_le i) (by omega) hj
  simpa [view, Array.getD, hi, hj] using this

theorem heapSort_sorts (vec : Array Int) (h : vec.size < 2 ^ 30) :
    ∃ w, heapSort vec = .ok w ∧ w.toList.Pairwise (· ≤ ·) ∧ w.toList.Perm vec.toList := by
  obtain ⟨w, hw, hwf, hwm⟩ := init_spec h
  have hsize := hwm.size
  rw [← hsize] at hwf
  obtain ⟨x, hx, hxr, hxp⟩ := sortFrom_spec (le_refl w.size) (by omega) hwf (.all _ _)
  rw [← hxp.size_eq] at hxr
  refine ⟨x, ?_, rest_pairwise hxr, ?_⟩
  · unfold heapSort
    rw [hw, ok_bind, size_eq (by omega)]
    exact hx
  · exact Array.perm_iff_toList_perm.mp (hxp.trans hwm.perm)

theorem heapSort_sorts_source :
    ∃ w, heapSort #[3, 8, 5, 6, 2, 9, 7, 1, 4] = .ok w ∧ w.toList.Pairwise (· ≤ ·) ∧
      w.toList.Perm [3, 8, 5, 6, 2, 9, 7, 1, 4] :=
  heapSort_sorts #[3, 8, 5, 6, 2, 9, 7, 1, 4] (by decide)

end MyLearning.HeapSort
