import Mathlib.Data.Nat.Prime.Basic

/-!
# Trial division

A number without a divisor in front of its square root is a prime or the square of one.
-/

namespace MyLearning.TrialDivision

/-- No number from `i` on whose square is less than `n` divides `n`. -/
def Undivided (n i : ℕ) : Prop := ∀ j, i ≤ j → j * j < n → ¬ j ∣ n

def PrimeSquare (n : ℕ) : Prop := ∃ p, p.Prime ∧ n = p * p

theorem Undivided.step {n i : ℕ} (hi : ¬ i ∣ n) : Undivided n i ↔ Undivided n (i + 1) := by
  constructor
  · intro h j hj
    exact h j (by omega)
  · intro h j hj
    by_cases hij : j = i
    · subst hij
      exact fun _ => hi
    · exact h j (by omega)

theorem Undivided.of_le {n i : ℕ} (h : n ≤ i * i) : Undivided n i := by
  intro j hj hlt
  have := Nat.mul_le_mul hj hj
  omega

theorem PrimeSquare.not_prime {n : ℕ} (h : PrimeSquare n) : ¬ n.Prime := by
  obtain ⟨p, hp, rfl⟩ := h
  exact Nat.not_prime_mul hp.ne_one hp.ne_one

theorem undivided_iff {n : ℕ} (hn : 2 ≤ n) : Undivided n 2 ↔ n.Prime ∨ PrimeSquare n := by
  constructor
  · intro h
    by_cases hp : n.Prime
    · exact .inl hp
    · have hfac := Nat.minFac_prime (show n ≠ 1 by omega)
      have hle := Nat.minFac_sq_le_self (by omega) hp
      rw [pow_two] at hle
      have hnot : ¬ n.minFac * n.minFac < n := fun hlt => h n.minFac hfac.two_le hlt (Nat.minFac_dvd n)
      exact .inr ⟨n.minFac, hfac, by omega⟩
  · intro h j hj hlt hdvd
    rcases h with hp | ⟨p, hp, rfl⟩
    · rcases hp.eq_one_or_self_of_dvd j hdvd with rfl | rfl
      · omega
      · have := Nat.mul_le_mul_left j hj
        omega
    · have hjp : j < p := Nat.mul_self_lt_mul_self_iff.mp hlt
      -- a divisor of `p * p` that is less than `p` is prime to it
      have hcop : Nat.Coprime j p := (Nat.coprime_of_lt_prime (by omega) hjp hp).symm
      have hone := (hcop.mul_right hcop).eq_one_of_dvd hdvd
      omega

end MyLearning.TrialDivision
