import MyLearning.Alog.HeapSort

/-!
# What heapSort costs

The functions of the heap with a count of the exchanges that they make. A sift goes one level down with each
of them, so `init`, which sifts most of the cells a short way, makes no more of them than there are cells.
-/

namespace MyLearning.HeapSort

open HeapOrder

/-! ## The functions with a count -/

def countedMaxHeapfiy (vec : Array Int) (index heapsize : Int) : Except Fault (Array Int × ℕ) :=
  match _ : largest vec index heapsize with
  | .error e => .error e
  | .ok g =>
    if _ : g ≠ index then do
      let vec' ← swap vec index g
      let r ← countedMaxHeapfiy vec' g heapsize
      return (r.1, r.2 + 1)
    else .ok (vec, 0)
termination_by (heapsize - index).toNat
decreasing_by
  have := largest_eq_ok ‹largest vec index heapsize = .ok g›
  omega

def countedInitFrom (vec : Array Int) (i len : Int) : Except Fault (Array Int × ℕ) :=
  if 0 ≤ i then do
    let r ← countedMaxHeapfiy vec i len
    let rest ← countedInitFrom r.1 (i - 1) len
    return (rest.1, r.2 + rest.2)
  else .ok (vec, 0)
termination_by (i + 1).toNat

def countedInit (vec : Array Int) : Except Fault (Array Int × ℕ) :=
  countedInitFrom vec ((size vec).tdiv 2 - 1) (size vec)

def countedSortFrom (vec : Array Int) (i heapsize : Int) : Except Fault (Array Int × ℕ) :=
  if 0 < i then do
    let vec ← swap vec 0 (i - 1)
    let r ← countedMaxHeapfiy vec 0 (heapsize - 1)
    let rest ← countedSortFrom r.1 (i - 1) (heapsize - 1)
    return (rest.1, 1 + r.2 + rest.2)
  else .ok (vec, 0)
termination_by i.toNat

def countedHeapSort (vec : Array Int) : Except Fault (Array Int × ℕ) := do
  let r ← countedInit vec
  let rest ← countedSortFrom r.1 (size r.1) (size r.1)
  return (rest.1, r.2 + rest.2)

/-! ## Without the count -/

theorem map_fst_bind {α β : Type} {x : Except Fault α} {f : α → Except Fault (β × ℕ)} :
    (x >>= f).map Prod.fst = x >>= fun a => (f a).map Prod.fst := by
  cases x with
  | error e => rfl
  | ok a => rfl

theorem bind_fst {β : Type} {x : Except Fault (Array Int × ℕ)} {f : Array Int → Except Fault β} :
    (x >>= fun r => f r.1) = x.map Prod.fst >>= f := by
  cases x with
  | error e => rfl
  | ok r => rfl

theorem map_pure_fst {x : Except Fault (Array Int × ℕ)} {c : ℕ → ℕ} :
    (x >>= fun r => pure (r.1, c r.2)).map Prod.fst = x.map Prod.fst := by
  cases x with
  | error e => rfl
  | ok r => rfl

theorem countedMaxHeapfiy_fst (vec : Array Int) (index heapsize : Int) :
    (countedMaxHeapfiy vec index heapsize).map Prod.fst = maxHeapfiy vec index heapsize := by
  fun_induction maxHeapfiy vec index heapsize with
  | case1 vec index e h =>
    rw [countedMaxHeapfiy]
    split
    · rename_i e' h'
      rw [h] at h'
      cases h'
      rfl
    · rename_i g h'
      rw [h] at h'
      cases h'
  | case2 vec index g h hne ih =>
    rw [countedMaxHeapfiy]
    split
    · rename_i e' h'
      rw [h] at h'
      cases h'
    · rename_i g' h'
      rw [h] at h'
      cases h'
      rw [dif_pos hne, map_fst_bind]
      congr 1
      funext vec'
      exact (map_pure_fst (c := fun n => n + 1)).trans (ih vec')
  | case3 vec index g h hne =>
    rw [countedMaxHeapfiy]
    split
    · rename_i e' h'
      rw [h] at h'
      cases h'
    · rename_i g' h'
      rw [h] at h'
      cases h'
      rw [dif_neg hne]
      rfl

theorem countedInitFrom_fst (vec : Array Int) (i len : Int) :
    (countedInitFrom vec i len).map Prod.fst = initFrom vec i len := by
  fun_induction initFrom vec i len with
  | case1 vec i hi ih =>
    rw [countedInitFrom, if_pos hi, map_fst_bind, ← countedMaxHeapfiy_fst, ← bind_fst]
    congr 1
    funext r
    exact (map_pure_fst (c := fun n => r.2 + n)).trans (ih r.1)
  | case2 vec i hi =>
    rw [countedInitFrom, if_neg hi]
    rfl

theorem countedSortFrom_fst (vec : Array Int) (i heapsize : Int) :
    (countedSortFrom vec i heapsize).map Prod.fst = sortFrom vec i heapsize := by
  fun_induction sortFrom vec i heapsize with
  | case1 vec i heapsize hi ih =>
    rw [countedSortFrom, if_pos hi, map_fst_bind]
    congr 1
    funext vec'
    rw [map_fst_bind, ← countedMaxHeapfiy_fst, ← bind_fst]
    congr 1
    funext r
    exact (map_pure_fst (c := fun n => 1 + r.2 + n)).trans (ih r.1)
  | case2 vec i heapsize hi =>
    rw [countedSortFrom, if_neg hi]
    rfl

theorem countedHeapSort_fst (vec : Array Int) : (countedHeapSort vec).map Prod.fst = heapSort vec := by
  rw [countedHeapSort, heapSort, map_fst_bind, init, ← countedInitFrom_fst, ← bind_fst]
  congr 1
  funext r
  exact (map_pure_fst (c := fun n => r.2 + n)).trans (countedSortFrom_fst ..)

/-! ## The counts -/

theorem countedMaxHeapfiy_le {n : ℕ} : ∀ {vec : Array Int} {i : ℕ}, i < vec.size → n ≤ vec.size → vec.size < 2 ^ 30 →
    ∃ w k, countedMaxHeapfiy vec i n = .ok (w, k) ∧ w.size = vec.size ∧ k ≤ height n i := by
  intro vec i hi hn hs
  obtain ⟨g, hg, hgl⟩ := largest_spec hi hn hs
  rw [countedMaxHeapfiy]
  split
  · rename_i h
    rw [hg] at h
    cases h
  · rename_i g' h
    rw [hg] at h
    cases h
    by_cases hgi : g = i
    · subst hgi
      rw [dif_neg (by simp)]
      exact ⟨vec, 0, rfl, rfl, Nat.zero_le _⟩
    · rw [dif_pos (by omega)]
      obtain ⟨hig, hgn⟩ := hgl.choice.resolve_left hgi
      have hlt := hig.lt
      obtain ⟨w, hw, -, hm⟩ := swap_eq (show i < n by omega) hgn hn
      have hsize := hm.size
      obtain ⟨x, k, hx, hxs, hk⟩ := countedMaxHeapfiy_le (n := n) (show g < w.size by omega) (by omega) (by omega)
      have hheight := height_child hig hgn
      rw [hw, ok_bind, hx]
      exact ⟨x, k + 1, rfl, hxs.trans hsize, by omega⟩
termination_by _ i => n - i

theorem countedInitFrom_le {k : ℕ} : ∀ {vec : Array Int}, k ≤ vec.size → vec.size < 2 ^ 30 →
    ∃ w c, countedInitFrom vec (k - 1) vec.size = .ok (w, c) ∧ w.size = vec.size ∧
      c ≤ ∑ i ∈ Finset.range k, height vec.size i := by
  induction k with
  | zero =>
    intro vec _ _
    rw [countedInitFrom, if_neg (by omega)]
    exact ⟨vec, 0, rfl, rfl, Nat.zero_le _⟩
  | succ k ih =>
    intro vec hk hs
    obtain ⟨w, c, hw, hsize, hc⟩ := countedMaxHeapfiy_le (show k < vec.size by omega) (le_refl _) hs
    obtain ⟨x, d, hx, hxs, hd⟩ := ih (show k ≤ w.size by omega) (by omega)
    rw [hsize] at hx hxs hd
    have hi : ((k + 1 : ℕ) : Int) - 1 = k := by omega
    rw [hi, countedInitFrom, if_pos (by omega), hw, ok_bind, hx]
    refine ⟨x, c + d, rfl, hxs, ?_⟩
    rw [Finset.sum_range_succ]
    omega

theorem countedInit_le {vec : Array Int} (hs : vec.size < 2 ^ 30) :
    ∃ w c, countedInit vec = .ok (w, c) ∧ w.size = vec.size ∧ c ≤ vec.size := by
  have hhalf : (vec.size : Int).tdiv 2 - 1 = ((vec.size / 2 : ℕ) : Int) - 1 := by
    rw [Int.tdiv_eq_ediv_of_nonneg (by omega)]
    omega
  obtain ⟨w, c, hw, hsize, hc⟩ := countedInitFrom_le (show vec.size / 2 ≤ vec.size by omega) hs
  refine ⟨w, c, ?_, hsize, ?_⟩
  · rw [countedInit, size_eq hs, hhalf]
    exact hw
  · calc c ≤ ∑ i ∈ Finset.range (vec.size / 2), height vec.size i := hc
      _ ≤ ∑ i ∈ Finset.range vec.size, height vec.size i :=
        Finset.sum_le_sum_of_subset (Finset.range_subset_range.mpr (by omega))
      _ ≤ vec.size := sum_height_le vec.size

/-- Each turn exchanges the first cell with the last and sifts what came to the front. -/
theorem countedSortFrom_le {n : ℕ} : ∀ {vec : Array Int}, n ≤ vec.size → vec.size < 2 ^ 30 →
    ∃ w c, countedSortFrom vec n n = .ok (w, c) ∧ c ≤ n * (Nat.log 2 vec.size + 1) := by
  induction n with
  | zero =>
    intro vec _ _
    rw [countedSortFrom, if_neg (by omega)]
    exact ⟨vec, 0, rfl, Nat.zero_le _⟩
  | succ n ih =>
    intro vec hn hs
    have hi : ((n + 1 : ℕ) : Int) - 1 = n := by omega
    obtain ⟨w, hw, -, hm⟩ := swap_eq (show 0 < n + 1 by omega) (show n < n + 1 by omega) hn
    have hsize := hm.size
    obtain ⟨x, k, hx, hxs, hk⟩ := countedMaxHeapfiy_le (show 0 < w.size by omega) (show n ≤ w.size by omega) (by omega)
    obtain ⟨y, c, hy, hc⟩ := ih (show n ≤ x.size by omega) (by omega)
    rw [countedSortFrom, if_pos (by omega), hi]
    simp only [Nat.cast_zero] at hw hx
    rw [hw, ok_bind, hx, ok_bind, hy]
    refine ⟨y, 1 + k + c, rfl, ?_⟩
    -- the heap that is left has no more levels than the whole vector
    have hlog : k ≤ Nat.log 2 vec.size := by
      refine hk.trans (Nat.log_mono_right ?_)
      rw [Nat.zero_add, Nat.div_one]
      omega
    rw [hxs, hsize] at hc
    rw [Nat.add_one_mul]
    omega

/-- **The cost of heapSort.** A sift makes no more exchanges than there are levels below its cell, `init` no
more than there are cells, and all of `heapSort` at most two for each cell and one for each cell and level.
The functions with the count are the functions of the source but for the count. -/
theorem heapSort_cost (vec : Array Int) (hs : vec.size < 2 ^ 30) :
    (∀ index heapsize : ℕ, index < heapsize → heapsize ≤ vec.size → ∃ w k, maxHeapfiy vec index heapsize = .ok w ∧
      countedMaxHeapfiy vec index heapsize = .ok (w, k) ∧ (index + 1) * 2 ^ k ≤ heapsize) ∧
    (∃ w k, init vec = .ok w ∧ countedInit vec = .ok (w, k) ∧ k ≤ vec.size) ∧
    ∃ w k, heapSort vec = .ok w ∧ countedHeapSort vec = .ok (w, k) ∧ k ≤ vec.size * (Nat.log 2 vec.size + 2) := by
  have fst : ∀ {x : Except Fault (Array Int × ℕ)} {y : Except Fault (Array Int)} {r : Array Int × ℕ},
      x.map Prod.fst = y → x = .ok r → y = .ok r.1 := by
    intro x y r hy hx
    rw [← hy, hx]
    rfl
  obtain ⟨w, c, hw, hsize, hc⟩ := countedInit_le hs
  refine ⟨?_, ⟨w, c, fst (countedInitFrom_fst ..) hw, hw, hc⟩, ?_⟩
  · intro index heapsize hi hn
    obtain ⟨w, k, hw, -, hk⟩ := countedMaxHeapfiy_le (show index < vec.size by omega) hn hs
    refine ⟨w, k, fst (countedMaxHeapfiy_fst ..) hw, hw, ?_⟩
    have hpos : heapsize / (index + 1) ≠ 0 := Nat.ne_of_gt (Nat.div_pos hi (Nat.succ_pos _))
    calc (index + 1) * 2 ^ k ≤ (index + 1) * (heapsize / (index + 1)) :=
        Nat.mul_le_mul_left _ (Nat.pow_le_of_le_log hpos hk)
      _ ≤ heapsize := Nat.mul_div_le ..
  · obtain ⟨x, d, hx, hd⟩ := countedSortFrom_le (le_refl w.size) (by omega)
    have hcounted : countedHeapSort vec = .ok (x, c + d) := by
      rw [countedHeapSort, hw, ok_bind, size_eq (show w.size < 2 ^ 30 by omega), hx]
      rfl
    refine ⟨x, c + d, fst (countedHeapSort_fst vec) hcounted, hcounted, ?_⟩
    rw [hsize] at hd
    rw [show Nat.log 2 vec.size + 2 = Nat.log 2 vec.size + 1 + 1 from rfl, Nat.mul_add_one]
    omega

theorem heapSort_cost_source : ∃ w k, heapSort #[3, 8, 5, 6, 2, 9, 7, 1, 4] = .ok w ∧
    countedHeapSort #[3, 8, 5, 6, 2, 9, 7, 1, 4] = .ok (w, k) ∧ k ≤ 45 := by
  obtain ⟨w, k, hw, hc, hk⟩ := (heapSort_cost #[3, 8, 5, 6, 2, 9, 7, 1, 4] (by decide)).2.2
  exact ⟨w, k, hw, hc, hk.trans (by decide)⟩

end MyLearning.HeapSort
