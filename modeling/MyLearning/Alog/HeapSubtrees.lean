import MyLearning.Alog.HeapSort

/-!
# One sift and its subtree

Where the heap order holds below `index`, `maxHeapfiy` extends it to `index` itself. It
exchanges cells of the subtree of `index` that are in front of `heapsize` and no others, so
the subtrees that `init` has been through stay heaps.
-/

namespace MyLearning.HeapSort

open HeapOrder

structure Sifted (vec w : Array Int) (index heapsize : ℕ) : Prop where
  order : HeapOn (view w) (Subtree index) heapsize
  cells : RearrangedOn (fun j => Subtree index j ∧ j < heapsize) (view vec) (view w)
  size : w.size = vec.size

theorem Sifted.frame {vec w : Array Int} {index heapsize : ℕ} (h : Sifted vec w index heapsize) {j : ℕ}
    (hj : ¬ Subtree index j ∨ heapsize ≤ j) : view w j = view vec j := by
  apply h.cells.frame
  intro hin
  rcases hj with hj | hj
  · exact hj hin.1
  · exact Nat.not_lt.mpr hj hin.2

theorem maxHeapfiy_sifted {vec : Array Int} {index heapsize : ℕ} (hs : vec.size < 2 ^ 30)
    (hn : heapsize ≤ vec.size) (hi : index < heapsize) (hf : HeapOn (view vec) (Descendant index) heapsize) :
    ∃ w, maxHeapfiy vec index heapsize = .ok w ∧ Sifted vec w index heapsize := by
  have hchild : ∀ p c, Subtree index p → IsChild p c → Subtree index c := fun _ _ => Subtree.child
  obtain ⟨w, hw, hwf, hwr, hwp⟩ := maxHeapfiy_on hchild .refl (by omega) hn hs hf.sifting
  exact ⟨w, hw, hwf, hwr, hwp.size_eq⟩

/-- **Sifting down.** `maxHeapfiy` makes a heap of the subtree of `index` if it is one below `index`, by a
permutation of the cells of that subtree, and leaves every other cell and those from `heapsize` on as they
are. So `init` makes every vector a heap. -/
theorem maxHeapfiy_restores (vec : Array Int) (hs : vec.size < 2 ^ 30) :
    (∀ index heapsize : ℕ, heapsize ≤ vec.size → index < heapsize → HeapOn (view vec) (Descendant index) heapsize →
      ∃ w, maxHeapfiy vec index heapsize = .ok w ∧ Sifted vec w index heapsize ∧
        ∀ j, ¬ Subtree index j ∨ heapsize ≤ j → view w j = view vec j) ∧
    ∃ w, init vec = .ok w ∧ w.toList.Perm vec.toList ∧
      ∀ i, 0 < i → i < w.size → view w i ≤ view w ((i - 1) / 2) := by
  constructor
  · intro index heapsize hn hi hf
    obtain ⟨w, hw, hsifted⟩ := maxHeapfiy_sifted hs hn hi hf
    exact ⟨w, hw, hsifted, fun j hj => hsifted.frame hj⟩
  · obtain ⟨w, hw, hwf, hwm⟩ := init_spec hs
    refine ⟨w, hw, Array.perm_iff_toList_perm.mp hwm.perm, ?_⟩
    intro i hi hlt
    rw [hwm.size] at hlt
    exact hwf.parent hi hlt

theorem maxHeapfiy_restores_root : ∃ w, maxHeapfiy #[1, 5, 4] (0 : ℕ) (3 : ℕ) = .ok w ∧ Sifted #[1, 5, 4] w 0 3 := by
  have hleaves : HeapOn (view #[1, 5, 4]) (Descendant 0) 3 := by
    intro p c hp hc hn
    have hlt := hp.lt
    unfold IsChild at hc
    omega
  obtain ⟨w, hw, hsifted, -⟩ := (maxHeapfiy_restores #[1, 5, 4] (by decide)).1 0 3 (by decide) (by decide) hleaves
  exact ⟨w, hw, hsifted⟩

end MyLearning.HeapSort
