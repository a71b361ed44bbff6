import Mathlib.Algebra.Order.Group.Defs
import Mathlib.Order.MinMax
import MyLearning.Lib.Lts

/-!
# Token buckets

A level between zero and a capacity. Filling stops at the capacity; what is taken out
is never more than there is. In every run the amounts taken out are covered by the level
at its start and the amounts put in.
-/

namespace MyLearning.TokenBucket

variable {G : Type*} [AddCommGroup G]

inductive Event (G : Type*) where
  | add (x : G)
  | take (n : G)

def added : List (Event G) → G
  | [] => 0
  | .add x :: tr => x + added tr
  | .take _ :: tr => added tr

def taken : List (Event G) → G
  | [] => 0
  | .add _ :: tr => taken tr
  | .take n :: tr => n + taken tr

theorem added_append : ∀ tr tr' : List (Event G), added (tr ++ tr') = added tr + added tr'
  | [], tr' => (zero_add _).symm
  | .add x :: tr, tr' => by
    simp only [List.cons_append, added]
    rw [added_append tr, add_assoc]
  | .take _ :: tr, tr' => added_append tr tr'

theorem taken_append : ∀ tr tr' : List (Event G), taken (tr ++ tr') = taken tr + taken tr'
  | [], tr' => (zero_add _).symm
  | .add _ :: tr, tr' => taken_append tr tr'
  | .take n :: tr, tr' => by
    simp only [List.cons_append, taken]
    rw [taken_append tr, add_assoc]

variable [LinearOrder G]

inductive Step (cap : G) : G → Event G → G → Prop
  | add {x level : G} : 0 ≤ x → Step cap level (.add x) (min cap (level + x))
  | take {n level : G} : 0 ≤ n → n ≤ level → Step cap level (.take n) (level - n)

def bucket (cap : G) : Lts G (Event G) where
  init level := level = 0
  step := Step cap

def Level (cap level : G) : Prop := 0 ≤ level ∧ level ≤ cap

variable [IsOrderedAddMonoid G]

theorem Step.level {cap level level' : G} {e : Event G} (h : Step cap level e level') (hl : Level cap level) :
    Level cap level' := by
  cases h with
  | add hx => exact ⟨le_min (hl.1.trans hl.2) (add_nonneg hl.1 hx), min_le_left ..⟩
  | take hn hle => exact ⟨sub_nonneg.mpr hle, (sub_le_self level hn).trans hl.2⟩

theorem taken_add_level {cap level level' : G} {tr : List (Event G)} (h : (bucket cap).Run level tr level') :
    taken tr + level' ≤ level + added tr := by
  induction h with
  | nil level => simp [taken, added]
  | @cons level e level₁ tr level' hs _ ih =>
    cases hs with
    | @add x _ hx =>
      calc taken tr + level' ≤ min cap (level + x) + added tr := ih
        _ ≤ level + x + added tr := add_le_add (min_le_right ..) le_rfl
        _ = level + (x + added tr) := add_assoc ..
    | @take n _ hn hle =>
      calc n + taken tr + level' = n + (taken tr + level') := add_assoc ..
        _ ≤ n + (level - n + added tr) := add_le_add le_rfl ih
        _ = level + added tr := by rw [← add_assoc, add_sub_cancel]

theorem run_level {cap level level' : G} {tr : List (Event G)} (h : (bucket cap).Run level tr level')
    (hl : Level cap level) : Level cap level' := by
  refine h.invariant ?_ hl
  intro _ _ _ hl hs
  exact Step.level hs hl

theorem taken_le {cap level level' : G} {tr : List (Event G)} (h : (bucket cap).Run level tr level')
    (hl : Level cap level) : taken tr ≤ level + added tr :=
  (le_add_of_nonneg_right (run_level h hl).1).trans (taken_add_level h)

end MyLearning.TokenBucket
