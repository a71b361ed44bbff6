import Mathlib.Order.Basic
import Mathlib.Order.Lattice
import Mathlib.Data.List.Basic
import Mathlib.Data.List.TakeWhile
import Mathlib.Tactic.Basic

/-!
# Ordered sets

A finite set over a linear order kept as its strictly increasing list of
elements, with the operations of an ordered set container: `insert` reports
whether the element was new, `erase` how many elements it removed, and `below`
and `eraseBelow` split the set at the lower bound of an element.
-/

namespace MyLearning

structure OrdSet (α : Type*) [LinearOrder α] where
  toList : List α
  sorted : toList.Pairwise (· < ·)
  deriving DecidableEq

namespace OrdSet

variable {α : Type*} [LinearOrder α]

instance : Membership α (OrdSet α) := ⟨fun s a => a ∈ s.toList⟩

instance (a : α) (s : OrdSet α) : Decidable (a ∈ s) := inferInstanceAs (Decidable (a ∈ s.toList))

theorem mem_def {a : α} {s : OrdSet α} : a ∈ s ↔ a ∈ s.toList := Iff.rfl

def empty : OrdSet α := ⟨[], .nil⟩

@[simp] theorem not_mem_empty (a : α) : a ∉ (empty : OrdSet α) := by simp [mem_def, empty]

def size (s : OrdSet α) : Nat := s.toList.length

def begin? (s : OrdSet α) : Option α := s.toList.head?

theorem nodup (s : OrdSet α) : s.toList.Nodup := s.sorted.imp fun h => ne_of_lt h

/-! ## The least element -/

theorem begin?_eq_none {s : OrdSet α} : s.begin? = none ↔ ∀ a, a ∉ s := by
  simp only [begin?, List.head?_eq_none_iff, mem_def]
  exact List.eq_nil_iff_forall_not_mem

theorem begin?_mem {s : OrdSet α} {a : α} (h : s.begin? = some a) : a ∈ s := List.mem_of_mem_head? h

theorem begin?_le {s : OrdSet α} {a b : α} (h : s.begin? = some a) (hb : b ∈ s) : a ≤ b := by
  obtain ⟨l, hs⟩ := s
  cases l with
  | nil => cases h
  | cons c l =>
    simp only [begin?, List.head?_cons, Option.some.injEq] at h
    subst h
    simp only [mem_def, List.mem_cons] at hb
    rcases hb with rfl | hb
    · exact le_refl _
    · exact le_of_lt ((List.pairwise_cons.mp hs).1 _ hb)

/-! ## Insertion -/

def insertList (a : α) : List α → List α
  | [] => [a]
  | b :: l => if a < b then a :: b :: l else if b < a then b :: insertList a l else b :: l

theorem mem_insertList {a c : α} : ∀ {l : List α}, c ∈ insertList a l ↔ c = a ∨ c ∈ l
  | [] => by simp [insertList]
  | b :: l => by
    unfold insertList
    split
    · simp
    · split
      · rw [List.mem_cons, mem_insertList, List.mem_cons]; exact or_left_comm
      · rename_i h₁ h₂
        have : a = b := le_antisymm (not_lt.mp h₂) (not_lt.mp h₁)
        subst this; simp

theorem sorted_insertList {a : α} : ∀ {l : List α}, l.Pairwise (· < ·) → (insertList a l).Pairwise (· < ·)
  | [], _ => List.pairwise_singleton _ _
  | b :: l, h => by
    obtain ⟨hb, hl⟩ := List.pairwise_cons.mp h
    unfold insertList
    split
    · rename_i hab
      refine List.pairwise_cons.mpr ⟨?_, h⟩
      intro c hc
      rcases List.mem_cons.mp hc with rfl | hc
      · exact hab
      · exact lt_trans hab (hb c hc)
    · split
      · rename_i hba
        refine List.pairwise_cons.mpr ⟨?_, sorted_insertList hl⟩
        intro c hc
        rcases mem_insertList.mp hc with rfl | hc
        · exact hba
        · exact hb c hc
      · exact h

theorem insertList_perm {a : α} : ∀ {l : List α}, a ∉ l → (insertList a l).Perm (a :: l)
  | [], _ => .refl _
  | b :: l, h => by
    have hab : a ≠ b := fun e => h (by simp [e])
    have hl : a ∉ l := fun e => h (List.mem_cons_of_mem _ e)
    unfold insertList
    split
    · exact .refl _
    · split
      · exact ((insertList_perm hl).cons b).trans (.swap a b l)
      · rename_i h₁ h₂
        exact absurd (le_antisymm (not_lt.mp h₂) (not_lt.mp h₁)) hab

def insert (s : OrdSet α) (a : α) : OrdSet α × Bool :=
  (⟨insertList a s.toList, sorted_insertList s.sorted⟩, decide (a ∉ s))

@[simp] theorem mem_insert {s : OrdSet α} {a b : α} : b ∈ (s.insert a).1 ↔ b = a ∨ b ∈ s := mem_insertList

@[simp] theorem insert_snd {s : OrdSet α} {a : α} : (s.insert a).2 = true ↔ a ∉ s := by simp [insert]

theorem size_insert {s : OrdSet α} {a : α} (h : a ∉ s) : (s.insert a).1.size = s.size + 1 :=
  (insertList_perm h).length_eq

/-! ## Erasure -/

def erase (s : OrdSet α) (a : α) : OrdSet α × Nat :=
  (⟨s.toList.erase a, s.sorted.sublist List.erase_sublist⟩, if a ∈ s then 1 else 0)

@[simp] theorem mem_erase {s : OrdSet α} {a b : α} : b ∈ (s.erase a).1 ↔ b ≠ a ∧ b ∈ s :=
  s.nodup.mem_erase_iff

@[simp] theorem erase_snd {s : OrdSet α} {a : α} : (s.erase a).2 = 1 ↔ a ∈ s := by
  unfold erase; split <;> simp_all

theorem size_erase {s : OrdSet α} {a : α} (h : a ∈ s) : (s.erase a).1.size + 1 = s.size := by
  have hp : s.toList ≠ [] := List.ne_nil_of_mem h
  have := List.length_erase_of_mem h
  have hl := List.length_pos_iff.mpr hp
  simp only [size, erase]
  omega

/-! ## Splitting at a lower bound -/

/-- The elements before `lower_bound a`, in order. -/
def below (s : OrdSet α) (a : α) : List α := s.toList.takeWhile fun b => decide (b < a)

/-- The elements from `lower_bound a` on. -/
def eraseBelow (s : OrdSet α) (a : α) : OrdSet α :=
  ⟨s.toList.dropWhile fun b => decide (b < a), s.sorted.sublist (List.dropWhile_sublist _)⟩

theorem below_append (s : OrdSet α) (a : α) : s.below a ++ (s.eraseBelow a).toList = s.toList :=
  List.takeWhile_append_dropWhile

theorem below_sorted (s : OrdSet α) (a : α) : (s.below a).Pairwise (· < ·) :=
  s.sorted.sublist (List.takeWhile_sublist _)

theorem size_split (s : OrdSet α) (a : α) : (s.below a).length + (s.eraseBelow a).size = s.size := by
  rw [size, size, ← below_append s a, List.length_append]

theorem lt_of_mem_below {s : OrdSet α} {a b : α} (h : b ∈ s.below a) : b < a := by
  simpa using List.mem_takeWhile_imp h

theorem le_of_mem_eraseBelow {s : OrdSet α} {a b : α} (h : b ∈ s.eraseBelow a) : a ≤ b := by
  cases hb : (s.eraseBelow a).begin? with
  | none => exact absurd h (begin?_eq_none.mp hb b)
  | some c =>
    refine le_trans ?_ (begin?_le hb h)
    have : decide (c < a) = false := by
      have := List.head?_dropWhile_not (fun b => decide (b < a)) s.toList
      simp only [begin?, eraseBelow] at hb
      rw [hb] at this
      simpa using this
    simpa using this

@[simp] theorem mem_below {s : OrdSet α} {a b : α} : b ∈ s.below a ↔ b ∈ s ∧ b < a := by
  constructor
  · intro h
    exact ⟨List.takeWhile_subset _ h, lt_of_mem_below h⟩
  · intro ⟨hs, hlt⟩
    rw [mem_def, ← below_append s a, List.mem_append] at hs
    cases hs with
    | inl hs => exact hs
    | inr hs => exact absurd hlt (not_lt.mpr (le_of_mem_eraseBelow hs))

@[simp] theorem mem_eraseBelow {s : OrdSet α} {a b : α} : b ∈ s.eraseBelow a ↔ b ∈ s ∧ a ≤ b := by
  constructor
  · intro h
    exact ⟨(List.dropWhile_sublist _).subset h, le_of_mem_eraseBelow h⟩
  · intro ⟨hs, hle⟩
    rw [mem_def, ← below_append s a, List.mem_append] at hs
    cases hs with
    | inl hs => exact absurd (lt_of_mem_below hs) (not_lt.mpr hle)
    | inr hs => exact hs

end OrdSet

end MyLearning
