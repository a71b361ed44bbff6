import Mathlib.Data.List.Rotate

/-!
# Taking turns

The elements of a list one after the other, and from the first one again behind the last.
As many turns as there are elements give a rotation of the list, wherever they start.
-/

namespace MyLearning.Rotation

variable {α : Type*} {l : List α}

def turn (l : List α) (h : l ≠ []) (i : ℕ) : α := l.get ⟨i % l.length, Nat.mod_lt i (List.length_pos_of_ne_nil h)⟩

def turns (l : List α) (h : l ≠ []) (i : ℕ) : ℕ → List α
  | 0 => []
  | k + 1 => turn l h i :: turns l h (i + 1) k

theorem mem_turns {h : l ≠ []} {a : α} {k : ℕ} : ∀ {i}, a ∈ turns l h i k → a ∈ l := by
  induction k with
  | zero => intro i ha; cases ha
  | succ k ih =>
    intro i ha
    rcases List.mem_cons.mp ha with rfl | ha
    · exact List.get_mem ..
    · exact ih ha

theorem length_turns (h : l ≠ []) (k : ℕ) : ∀ i, (turns l h i k).length = k := by
  induction k with
  | zero => intro i; rfl
  | succ k ih => intro i; rw [turns, List.length_cons, ih]

theorem getElem_turns {h : l ≠ []} {k : ℕ} : ∀ {i j} (hj : j < (turns l h i k).length), (turns l h i k)[j] = turn l h (i + j) := by
  induction k with
  | zero => intro i j hj; cases hj
  | succ k ih =>
    intro i j hj
    cases j with
    | zero => rfl
    | succ j =>
      simp only [turns, List.getElem_cons_succ]
      rw [ih, Nat.add_right_comm, Nat.add_assoc]

theorem turns_eq_rotate (h : l ≠ []) (i : ℕ) : turns l h i l.length = l.rotate i := by
  apply List.ext_getElem
  · rw [length_turns, List.length_rotate]
  · intro j hj hj'
    rw [getElem_turns, List.getElem_rotate, Nat.add_comm]
    rfl

theorem turns_perm (h : l ≠ []) (i : ℕ) : (turns l h i l.length).Perm l := by
  rw [turns_eq_rotate]
  exact List.rotate_perm l i

end MyLearning.Rotation
