import MyLearning.Alog.HeapSort

/-!
# The range of the heap's indices

`maxHeapfiy` computes `right(index)` before it compares it with `heapsize`, at leaves too. The
same algorithm on natural numbers tells which cells it sifts through; `heapSort` does what that
one does as long as none of them is in the upper half of the range of `int`, and
overflows otherwise. From `2 ^ 30` cells on there are vectors with such a cell.
-/

namespace MyLearning.HeapSort

/-! ## The algorithm without a bound on its indices -/

def bigger (vec : Array Int) (n g c : ℕ) : ℕ := if c < n ∧ view vec c > view vec g then c else g

def biggest (vec : Array Int) (i n : ℕ) : ℕ := bigger vec n (bigger vec n i (2 * i + 1)) (2 * i + 2)

theorem biggest_choice (vec : Array Int) (i n : ℕ) : biggest vec i n = i ∨ i < biggest vec i n ∧ biggest vec i n < n := by
  unfold biggest bigger
  split <;> split <;> omega

/-- The cells through which `maxHeapfiy` sifts, and the vector it leaves. -/
def sift (vec : Array Int) (i n : ℕ) : List ℕ × Array Int :=
  if _ : biggest vec i n = i then ([i], vec)
  else
    let r := sift (vec.swapIfInBounds i (biggest vec i n)) (biggest vec i n) n
    (i :: r.1, r.2)
termination_by n - i
decreasing_by
  have := biggest_choice vec i n
  omega

/-- `init` from the cell before `k` down. -/
def build (vec : Array Int) (n : ℕ) : ℕ → List ℕ × Array Int
  | 0 => ([], vec)
  | k + 1 =>
    let r := sift vec k n
    let q := build r.2 n k
    (r.1 ++ q.1, q.2)

/-- The loop of `heapSort` with `k` cells left in the heap. -/
def extract (vec : Array Int) : ℕ → List ℕ × Array Int
  | 0 => ([], vec)
  | k + 1 =>
    let r := sift (vec.swapIfInBounds 0 k) 0 k
    let q := extract r.2 k
    (r.1 ++ q.1, q.2)

def sorting (vec : Array Int) : List ℕ × Array Int :=
  let r := build vec vec.size (vec.size / 2)
  let q := extract r.2 vec.size
  (r.1 ++ q.1, q.2)

/-- The cells that some call of `maxHeapfiy` looks at. -/
def cells (vec : Array Int) : List ℕ := (sorting vec).1

/-- Both children of the cell have an index in the range of `int`. -/
def Low (i : ℕ) : Prop := i + 1 < 2 ^ 30

instance (i : ℕ) : Decidable (Low i) := inferInstanceAs (Decidable (_ < _))

def inRange (r : List ℕ × Array Int) : Except Fault (Array Int) :=
  if ∀ i ∈ r.1, Low i then .ok r.2 else .error .overflow

theorem sift_stay {vec : Array Int} {i n : ℕ} (h : biggest vec i n = i) : sift vec i n = ([i], vec) := by
  rw [sift, dif_pos h]

theorem sift_move {vec : Array Int} {i n : ℕ} (h : biggest vec i n ≠ i) :
    sift vec i n = (i :: (sift (vec.swapIfInBounds i (biggest vec i n)) (biggest vec i n) n).1,
      (sift (vec.swapIfInBounds i (biggest vec i n)) (biggest vec i n) n).2) := by
  rw [sift, dif_neg h]

/-! ## Sizes -/

theorem size_sift (vec : Array Int) (i n : ℕ) : (sift vec i n).2.size = vec.size := by
  by_cases h : biggest vec i n = i
  · rw [sift_stay h]
  · have hchoice := biggest_choice vec i n
    rw [sift_move h]
    simp only
    rw [size_sift, Array.size_swapIfInBounds]
termination_by n - i

/-! ## One sift -/

theorem larger_eq {vec : Array Int} {n g c : ℕ} (hg : g < vec.size) (hn : n ≤ vec.size) :
    larger vec n g c = .ok (bigger vec n g c : ℕ) := by
  unfold larger bigger
  by_cases hc : c < n
  · rw [if_pos (by omega), get_eq (by omega), get_eq hg, ok_bind, ok_bind]
    by_cases hlt : view vec c > view vec g
    · rw [if_pos hlt, if_pos ⟨hc, hlt⟩]
    · rw [if_neg hlt, if_neg (fun h => hlt h.2)]
  · rw [if_neg (by omega), if_neg (fun h => hc h.1)]

theorem right_overflows {i : ℕ} (hi : i < 2 ^ 31) (h : ¬ Low i) : right i = .error .overflow := by
  unfold Low at h
  unfold right
  by_cases hdouble : i < 2 ^ 30
  · rw [int32_eq_ok.mpr ⟨⟨by omega, by omega⟩, rfl⟩, ok_bind, int32, if_neg (by omega)]
  · rw [int32, if_neg (by omega)]
    rfl

theorem left_or_overflows (i : ℕ) : (∃ l, left i = .ok l) ∨ left i = .error .overflow := by
  unfold left
  cases hdouble : int32 ((i : Int) * 2) with
  | error f => exact .inr (by rw [int32_error hdouble]; rfl)
  | ok d =>
    cases hsum : int32 (d + 1) with
    | error f => exact .inr (by rw [← int32_error hsum, ← hsum]; rfl)
    | ok l => exact .inl ⟨l, hsum⟩

theorem largest_eq {vec : Array Int} {i n : ℕ} (hi : i < vec.size) (hn : n ≤ vec.size) (hs : vec.size < 2 ^ 31) :
    largest vec i n = if Low i then .ok (biggest vec i n : ℕ) else .error .overflow := by
  unfold largest
  by_cases hlow : Low i
  · have hg : bigger vec n i (2 * i + 1) < vec.size := by
      unfold bigger
      split <;> omega
    have hlt : i + 1 < 2 ^ 30 := hlow
    rw [if_pos hlow, left_eq (by omega), right_eq hlt, ok_bind, ok_bind, larger_eq hi hn, ok_bind, larger_eq hg hn]
    rfl
  · rw [if_neg hlow, right_overflows (by omega) hlow]
    rcases left_or_overflows i with ⟨l, hl⟩ | hl
    · rw [hl]; rfl
    · rw [hl]; rfl

theorem swap_eq_swapIfInBounds {vec : Array Int} {i j : ℕ} (hi : i < vec.size) (hj : j < vec.size) :
    swap vec i j = .ok (vec.swapIfInBounds i j) := by
  unfold swap Array.swapIfInBounds
  rw [dif_pos ⟨⟨by omega, by omega⟩, by omega, by omega⟩, dif_pos hi, dif_pos hj]
  rfl

theorem mem_sift (vec : Array Int) (i n : ℕ) : i ∈ (sift vec i n).1 := by
  by_cases h : biggest vec i n = i
  · rw [sift_stay h]
    exact List.mem_singleton_self i
  · rw [sift_move h]
    exact List.mem_cons_self ..

theorem maxHeapfiy_eq {vec : Array Int} {i n : ℕ} (hi : i < vec.size) (hn : n ≤ vec.size) (hs : vec.size < 2 ^ 31) :
    maxHeapfiy vec i n = inRange (sift vec i n) := by
  have hlargest := largest_eq hi hn hs
  rw [maxHeapfiy]
  by_cases hlow : Low i
  · rw [if_pos hlow] at hlargest
    split
    · rename_i h
      rw [hlargest] at h
      cases h
    · rename_i g h
      rw [hlargest] at h
      cases h
      by_cases hg : biggest vec i n = i
      · rw [dif_neg (by simp [hg]), sift_stay hg]
        simp [inRange, hlow]
      · have hchoice := (biggest_choice vec i n).resolve_left hg
        have hsize : (vec.swapIfInBounds i (biggest vec i n)).size = vec.size := Array.size_swapIfInBounds
        rw [dif_pos (by omega), swap_eq_swapIfInBounds hi (by omega), ok_bind,
          maxHeapfiy_eq (by omega) (by omega) (by omega), sift_move hg]
        simp [inRange, hlow]
  · rw [if_neg hlow] at hlargest
    have hout : ¬ ∀ j ∈ (sift vec i n).1, Low j := fun h => hlow (h i (mem_sift vec i n))
    unfold inRange
    rw [if_neg hout]
    split
    · rename_i h
      rw [hlargest] at h
      cases h
      rfl
    · rename_i h
      rw [hlargest] at h
      cases h
termination_by n - i

/-! ## The loops -/

theorem inRange_bind {r q : List ℕ × Array Int} {g : Array Int → Except Fault (Array Int)} (h : g r.2 = inRange q) :
    (inRange r >>= g) = inRange (r.1 ++ q.1, q.2) := by
  by_cases hr : ∀ i ∈ r.1, Low i
  · have hok : inRange r = .ok r.2 := if_pos hr
    rw [hok, ok_bind, h]
    unfold inRange
    simp only [List.forall_mem_append, and_iff_right hr]
  · have herror : inRange r = .error .overflow := if_neg hr
    have happend : ¬ ∀ i ∈ r.1 ++ q.1, Low i := fun hall => hr (List.forall_mem_append.mp hall).1
    rw [herror, inRange, if_neg happend]
    rfl

theorem initFrom_eq {n k : ℕ} : ∀ {vec : Array Int}, n = vec.size → k ≤ n → n < 2 ^ 31 →
    initFrom vec (k - 1) n = inRange (build vec n k) := by
  induction k with
  | zero =>
    intro vec _ _ _
    rw [initFrom, if_neg (by omega)]
    simp [inRange, build]
  | succ k ih =>
    intro vec hv hk hs
    have hi : ((k + 1 : ℕ) : Int) - 1 = k := by omega
    have hsize := size_sift vec k n
    rw [hi, initFrom, if_pos (by omega), maxHeapfiy_eq (by omega) (by omega) (by omega)]
    exact inRange_bind (ih (by omega) (by omega) hs)

theorem sortFrom_eq {k : ℕ} : ∀ {vec : Array Int}, k ≤ vec.size → vec.size < 2 ^ 31 →
    sortFrom vec k k = inRange (extract vec k) := by
  induction k with
  | zero =>
    intro vec _ _
    rw [sortFrom, if_neg (by omega)]
    simp [inRange, extract]
  | succ k ih =>
    intro vec hk hs
    have hi : ((k + 1 : ℕ) : Int) - 1 = k := by omega
    have hswap : (vec.swapIfInBounds 0 k).size = vec.size := Array.size_swapIfInBounds
    have hsize := size_sift (vec.swapIfInBounds 0 k) 0 k
    have hfirst : swap vec 0 k = .ok (vec.swapIfInBounds 0 k) := swap_eq_swapIfInBounds (i := 0) (by omega) (by omega)
    have hsift : maxHeapfiy (vec.swapIfInBounds 0 k) 0 k = inRange (sift (vec.swapIfInBounds 0 k) 0 k) :=
      maxHeapfiy_eq (i := 0) (by omega) (by omega) (by omega)
    rw [sortFrom, if_pos (by omega), hi, hfirst, ok_bind, hsift]
    exact inRange_bind (ih (by omega) (by omega))

theorem size_build (vec : Array Int) (n k : ℕ) : (build vec n k).2.size = vec.size := by
  induction k generalizing vec with
  | zero => rfl
  | succ k ih =>
    rw [build]
    simp only
    rw [ih, size_sift]

theorem size_eq_of_lt {vec : Array Int} (h : vec.size < 2 ^ 31) : size vec = vec.size := by
  unfold size
  apply Int.bmod_eq_of_le <;> omega

/-- `heapSort` is the algorithm on natural numbers, until a cell is too far back. -/
theorem heapSort_eq {vec : Array Int} (hs : vec.size < 2 ^ 31) : heapSort vec = inRange (sorting vec) := by
  have hhalf : (vec.size : Int).tdiv 2 - 1 = ((vec.size / 2 : ℕ) : Int) - 1 := by
    rw [Int.tdiv_eq_ediv_of_nonneg (by omega)]
    omega
  have hbuilt := size_build vec vec.size (vec.size / 2)
  unfold heapSort init
  rw [size_eq_of_lt hs, hhalf, initFrom_eq rfl (by omega) hs]
  refine inRange_bind ?_
  rw [size_eq_of_lt (by omega), hbuilt]
  exact sortFrom_eq (by omega) (by omega)

/-! ## Which cells are reached -/

theorem mem_sift_lt {vec : Array Int} {i n j : ℕ} (h : j ∈ (sift vec i n).1) : j = i ∨ j < n := by
  by_cases hg : biggest vec i n = i
  · rw [sift_stay hg] at h
    exact .inl (List.mem_singleton.mp h)
  · have hchoice := (biggest_choice vec i n).resolve_left hg
    rw [sift_move hg] at h
    rcases List.mem_cons.mp h with rfl | h
    · exact .inl rfl
    · rcases mem_sift_lt h with hj | hj
      · omega
      · exact .inr hj
termination_by n - i

theorem mem_build_lt {n k j : ℕ} : ∀ {vec : Array Int}, k ≤ n → j ∈ (build vec n k).1 → j < n := by
  induction k with
  | zero =>
    intro vec _ h
    cases h
  | succ k ih =>
    intro vec hk h
    rcases List.mem_append.mp h with h | h
    · rcases mem_sift_lt h with hj | hj <;> omega
    · exact ih (by omega) h

theorem mem_extract_lt {k j : ℕ} : ∀ {vec : Array Int}, j ∈ (extract vec k).1 → j < k := by
  induction k with
  | zero =>
    intro vec h
    cases h
  | succ k ih =>
    intro vec h
    rcases List.mem_append.mp h with h | h
    · rcases mem_sift_lt h with hj | hj <;> omega
    · have hj := ih h
      omega

theorem mem_cells_lt {vec : Array Int} {j : ℕ} (h : j ∈ cells vec) : j < vec.size := by
  rcases List.mem_append.mp h with h | h
  · exact mem_build_lt (by omega) h
  · exact mem_extract_lt h

theorem cells_low {vec : Array Int} (h : vec.size < 2 ^ 30) : ∀ i ∈ cells vec, Low i := by
  intro i hi
  have hlt := mem_cells_lt hi
  unfold Low
  omega

def increasing (n : ℕ) : Array Int := Array.ofFn fun i : Fin n => (i : Int)

theorem size_increasing (n : ℕ) : (increasing n).size = n := Array.size_ofFn

theorem view_increasing {n i : ℕ} (h : i < n) : view (increasing n) i = i := by
  simp [view, increasing, Array.getD, h]

theorem biggest_increasing {n : ℕ} (h : 2 ≤ n) : biggest (increasing n) (n / 2 - 1) n = n - 1 := by
  have hview : ∀ i j : ℕ, i < n → j < n → (view (increasing n) j > view (increasing n) i ↔ i < j) := by
    intro i j hi hj
    rw [view_increasing hi, view_increasing hj]
    omega
  have hleft : bigger (increasing n) n (n / 2 - 1) (2 * (n / 2 - 1) + 1) = 2 * (n / 2 - 1) + 1 := by
    unfold bigger
    rw [if_pos ⟨by omega, (hview _ _ (by omega) (by omega)).mpr (by omega)⟩]
  unfold biggest
  rw [hleft]
  unfold bigger
  by_cases hright : 2 * (n / 2 - 1) + 2 < n
  · rw [if_pos ⟨hright, (hview _ _ (by omega) hright).mpr (by omega)⟩]
    omega
  · rw [if_neg (fun h => hright h.1)]
    omega

theorem last_mem_cells {n : ℕ} (h : 2 ≤ n) : n - 1 ∈ cells (increasing n) := by
  obtain ⟨k, hk⟩ : ∃ k, n / 2 = k + 1 := ⟨n / 2 - 1, by omega⟩
  have hbiggest : biggest (increasing n) k n = n - 1 := by
    have hlast := biggest_increasing h
    rwa [hk, Nat.add_sub_cancel] at hlast
  have hsift : n - 1 ∈ (sift (increasing n) k n).1 := by
    rw [sift_move (by omega), hbiggest]
    exact List.mem_cons_of_mem _ (mem_sift ..)
  unfold cells sorting
  rw [size_increasing, hk, build]
  exact List.mem_append_left _ (List.mem_append_left _ hsift)

theorem increasing_overflows {n : ℕ} (hn : 2 ^ 30 ≤ n) (hs : n < 2 ^ 31) : heapSort (increasing n) = .error .overflow := by
  have hsize := size_increasing n
  rw [heapSort_eq (by omega)]
  refine if_neg ?_
  intro hall
  have hlow : n - 1 + 1 < 2 ^ 30 := hall (n - 1) (last_mem_cells (by omega))
  omega

/-- **The range of the indices.** No index leaves the range of `int` while `heapSort` sorts a vector if
and only if no cell that it sifts through is in the upper half of the range; it fails in no other
way. Every vector of a length is sorted if and only if the length is less than `2 ^ 30`. -/
theorem indices_in_range_iff (vec : Array Int) (hs : vec.size < 2 ^ 31) :
    ((∃ w, heapSort vec = .ok w) ↔ ∀ i ∈ cells vec, Low i) ∧
    (∀ f, heapSort vec = .error f → f = .overflow) ∧
    ((∀ vec' : Array Int, vec'.size = vec.size → ∃ w, heapSort vec' = .ok w) ↔ vec.size < 2 ^ 30) := by
  have hsort : ∀ vec' : Array Int, vec'.size < 2 ^ 31 → ((∃ w, heapSort vec' = .ok w) ↔ ∀ i ∈ cells vec', Low i) := by
    intro vec' hs'
    rw [heapSort_eq hs']
    by_cases hlow : ∀ i ∈ cells vec', Low i
    · exact iff_of_true ⟨_, if_pos hlow⟩ hlow
    · have herror : inRange (sorting vec') = .error .overflow := if_neg hlow
      rw [herror]
      refine iff_of_false ?_ hlow
      intro hw
      obtain ⟨w, hw⟩ := hw
      cases hw
  refine ⟨hsort vec hs, ?_, ?_⟩
  · intro f hf
    rw [heapSort_eq hs, inRange] at hf
    split at hf
    · cases hf
    · cases hf
      rfl
  · constructor
    · intro hall
      by_contra hn
      obtain ⟨w, hw⟩ := hall (increasing vec.size) (size_increasing _)
      rw [increasing_overflows (not_lt.mp hn) hs] at hw
      cases hw
    · intro hn vec' hsize
      exact (hsort vec' (by omega)).mpr (cells_low (by omega))

theorem indices_in_range_three : ∃ w, heapSort #[3, 1, 2] = .ok w := by
  have hs : (#[3, 1, 2] : Array Int).size < 2 ^ 31 := by simp
  exact (indices_in_range_iff #[3, 1, 2] hs).1.mpr (cells_low (by simp))

/-- The first sift goes to the last of `2 ^ 30` cells. -/
theorem right_of_last_overflows : ∃ vec : Array Int, vec.size = 2 ^ 30 ∧ heapSort vec = .error .overflow :=
  ⟨increasing (2 ^ 30), size_increasing _, increasing_overflows le_rfl (by simp)⟩

end MyLearning.HeapSort
