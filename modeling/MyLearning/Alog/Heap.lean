import MyLearning.Lib.Checked
import Mathlib.Data.Int.Init

/-!
# Heap

`Heap` and `heapSort` of Alog over a `std::vector<int>`. Indices and sizes are `int`: each
operation on them is checked for its range, and each access to the vector for its bounds.
-/

namespace MyLearning.HeapSort

/-! ## The vector -/

/-- `vec[i]` -/
def get (vec : Array Int) (i : Int) : Except Fault Int :=
  if h : 0 ≤ i ∧ i < vec.size then
    have hi : i.toNat < vec.size := by omega
    .ok vec[i.toNat]
  else .error .bounds

/-- `std::swap(vec[i], vec[j])` -/
def swap (vec : Array Int) (i j : Int) : Except Fault (Array Int) :=
  if h : (0 ≤ i ∧ i < vec.size) ∧ 0 ≤ j ∧ j < vec.size then
    .ok (vec.swap i.toNat j.toNat (by omega) (by omega))
  else .error .bounds

/-- `int n = vec.size()`: the size modulo `2 ^ 32`. -/
def size (vec : Array Int) : Int := Int.bmod vec.size (2 ^ 32)

/-! ## The heap -/

def left (i : Int) : Except Fault Int := do
  int32 ((← int32 (i * 2)) + 1)

def right (i : Int) : Except Fault Int := do
  int32 ((← int32 (i * 2)) + 2)

/-- One of the two tests of `maxHeapfiy`: `c < heapsize && vec[c] > vec[largest]` makes `c`
the largest. -/
def larger (vec : Array Int) (heapsize largest c : Int) : Except Fault Int :=
  if c < heapsize then do
    let x ← get vec c
    let y ← get vec largest
    .ok (if x > y then c else largest)
  else .ok largest

def largest (vec : Array Int) (index heapsize : Int) : Except Fault Int := do
  let l ← left index
  let r ← right index
  let g ← larger vec heapsize index l
  larger vec heapsize g r

theorem larger_eq_ok {vec : Array Int} {heapsize largest c g : Int} (h : larger vec heapsize largest c = .ok g) :
    g = largest ∨ g = c ∧ c < heapsize ∧ 0 ≤ largest := by
  unfold larger at h
  split at h
  · rename_i hc
    obtain ⟨x, -, h⟩ := bind_eq_ok.mp h
    obtain ⟨y, hy, h⟩ := bind_eq_ok.mp h
    simp only [Except.ok.injEq] at h
    unfold get at hy
    split at hy
    · split at h
      · rename_i hb _
        exact .inr ⟨h.symm, hc, hb.1⟩
      · exact .inl h.symm
    · cases hy
  · cases h; exact .inl rfl

theorem largest_eq_ok {vec : Array Int} {index heapsize g : Int} (h : largest vec index heapsize = .ok g) :
    g = index ∨ index < g ∧ g < heapsize := by
  unfold largest left right at h
  simp only [bind_eq_ok, int32_eq_ok] at h
  obtain ⟨l, ⟨_, ⟨-, rfl⟩, -, rfl⟩, r, ⟨_, ⟨-, rfl⟩, -, rfl⟩, g', hl, hr⟩ := h
  rcases larger_eq_ok hl with rfl | ⟨rfl, _, _⟩ <;> rcases larger_eq_ok hr with rfl | ⟨rfl, _, _⟩ <;> omega

def maxHeapfiy (vec : Array Int) (index heapsize : Int) : Except Fault (Array Int) :=
  match _ : largest vec index heapsize with
  | .error e => .error e
  | .ok g =>
    if _ : g ≠ index then do
      let vec' ← swap vec index g
      maxHeapfiy vec' g heapsize
    else .ok vec
termination_by (heapsize - index).toNat
decreasing_by
  have := largest_eq_ok ‹largest vec index heapsize = .ok g›
  omega

/-- The loop of `init`, from `i` down to `0`. -/
def initFrom (vec : Array Int) (i len : Int) : Except Fault (Array Int) :=
  if 0 ≤ i then do
    let vec ← maxHeapfiy vec i len
    initFrom vec (i - 1) len
  else .ok vec
termination_by (i + 1).toNat

def init (vec : Array Int) : Except Fault (Array Int) :=
  initFrom vec ((size vec).tdiv 2 - 1) (size vec)

/-- The loop of `heapSort`, from `i` down to `1`. -/
def sortFrom (vec : Array Int) (i heapsize : Int) : Except Fault (Array Int) :=
  if 0 < i then do
    let vec ← swap vec 0 (i - 1)
    let vec ← maxHeapfiy vec 0 (heapsize - 1)
    sortFrom vec (i - 1) (heapsize - 1)
  else .ok vec
termination_by i.toNat

def heapSort (vec : Array Int) : Except Fault (Array Int) := do
  let vec ← init vec
  sortFrom vec (size vec) (size vec)

end MyLearning.HeapSort
