import Mathlib.Data.Nat.Digits.Lemmas

/-!
# Positional numerals

The numeral of `n` in base `b`, most significant digit first: its digits are less than
`b`, it has no leading zero, and its value is `n`. `lsd` is the same from the least
significant digit on, as a loop that divides by `b` finds it.
-/

namespace MyLearning.Numeral

/-- The digits of `n` as `do { n % b; n /= b } while (n != 0)` produces them. -/
def lsd (b n : Nat) : List Nat := if n = 0 then [0] else b.digits n

def numeral (b n : Nat) : List Nat := (lsd b n).reverse

def value (b : Nat) (ds : List Nat) : Nat := ds.foldl (fun v d => b * v + d) 0

structure Canonical (b : Nat) (ds : List Nat) : Prop where
  digits : ∀ d ∈ ds, d < b
  ne_nil : ds ≠ []
  head : 1 < ds.length → ds.head? ≠ some 0

variable {b : Nat}

theorem lsd_eq (hb : 1 < b) (n : Nat) : lsd b n = n % b :: if n / b = 0 then [] else lsd b (n / b) := by
  unfold lsd
  by_cases hn : n = 0
  · simp [hn]
  · rw [if_neg hn, Nat.digits_def' hb (Nat.pos_of_ne_zero hn)]
    by_cases hd : n / b = 0
    · simp [hd]
    · simp [hd]

theorem value_reverse (l : List Nat) : value b l.reverse = Nat.ofDigits b l := by
  rw [value, List.foldl_reverse, Nat.ofDigits_eq_foldr]
  congr 1
  funext d v
  rw [Nat.cast_id, Nat.add_comm]

theorem value_numeral (b n : Nat) : value b (numeral b n) = n := by
  rw [numeral, value_reverse, lsd]
  split
  · rename_i hn
    simp [hn]
  · exact Nat.ofDigits_digits b n

theorem canonical_numeral (hb : 1 < b) (n : Nat) : Canonical b (numeral b n) := by
  unfold numeral lsd
  by_cases hn : n = 0
  · rw [if_pos hn]
    exact ⟨by simp; omega, by simp, by simp⟩
  · rw [if_neg hn]
    refine ⟨?_, ?_, ?_⟩
    · intro d hd
      exact Nat.digits_lt_base hb (List.mem_reverse.mp hd)
    · simpa using Nat.digits_ne_nil_iff_ne_zero.mpr hn
    · intro _ hhead
      rw [List.head?_reverse, List.getLast?_eq_some_getLast (Nat.digits_ne_nil_iff_ne_zero.mpr hn)] at hhead
      exact Nat.getLast_digit_ne_zero b hn (Option.some.inj hhead)

theorem length_numeral (b n : Nat) : (numeral b n).length = (lsd b n).length := List.length_reverse

theorem length_numeral_le (hb : 1 < b) {n k : Nat} (hk : 0 < k) (hn : n < b ^ k) : (numeral b n).length ≤ k := by
  rw [length_numeral, lsd]
  split
  · exact hk
  · exact (Nat.digits_length_le_iff hb n).mpr hn

end MyLearning.Numeral
