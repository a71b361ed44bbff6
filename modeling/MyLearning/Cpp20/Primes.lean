import Mathlib.Analysis.Real.Sqrt
import Mathlib.Data.Finset.Interval
import Mathlib.Order.Interval.Finset.Nat
import MyLearning.Lib.Checked
import MyLearning.Lib.TrialDivision

/-!
# Two tests for primes

`count_prime` tests a number for divisors in front of its square root, and `isprime` for divisors up to the number
itself. The first takes the square of a prime for a prime, the second takes no number for
one.

`std::sqrt` is exact here, and no loop reaches the end of its type below `2 ^ 31`. The duration that
`count_prime` measures and `end` of `isprime`, which nothing reads, are left out.
-/

namespace MyLearning.Primes

open TrialDivision

/-! ## The functions of the source -/

/-- The loop of `isPrime` from `i` on, as long as `i<std::sqrt(n)`. -/
def isPrimeFrom (n i : Nat) : Bool :=
  if i * i < n then
    if n % i = 0 then false else isPrimeFrom n (i + 1)
  else true
termination_by n - i
decreasing_by
  have := Nat.le_mul_self i
  omega

def isPrime (n : Nat) : Bool := isPrimeFrom n 2

def countFrom (count i max : Nat) : Nat :=
  if i ≤ max then countFrom (if isPrime i then (count + 1) % 2 ^ 64 else count) (i + 1) max else count
termination_by max + 1 - i

/-- `ret.count` has no initializer: `count` is what is there before. -/
def countPrime (count max : Nat) : Nat := countFrom count 2 max

def isprimeFrom (num i : Int) : Except Fault (Option Int) :=
  if i ≤ num then
    if num.tmod i = 0 then .ok none
    else do
      let _ ← int32 (i + 1)
      isprimeFrom num (i + 1)
  else .ok (some num)
termination_by (num + 1 - i).toNat

def isprime (num : Int) : Except Fault (Option Int) := isprimeFrom num 2

/-! ## isPrime -/

theorem lt_sqrt_iff {n i : Nat} : (i : ℝ) < Real.sqrt n ↔ i * i < n := by
  rw [Real.lt_sqrt (Nat.cast_nonneg i), pow_two]
  exact_mod_cast Iff.rfl

/-- The loop with its condition as it stands in the source. -/
theorem isPrimeFrom_sqrt (n i : Nat) [Decidable ((i : ℝ) < Real.sqrt n)] : isPrimeFrom n i =
    if (i : ℝ) < Real.sqrt n then
      if n % i = 0 then false else isPrimeFrom n (i + 1)
    else true := by
  rw [isPrimeFrom, if_congr lt_sqrt_iff rfl rfl]

theorem isPrimeFrom_iff {n i : Nat} : isPrimeFrom n i = true ↔ Undivided n i := by
  rw [isPrimeFrom]
  by_cases hlt : i * i < n
  · rw [if_pos hlt]
    by_cases hdvd : i ∣ n
    · rw [if_pos (Nat.mod_eq_zero_of_dvd hdvd)]
      refine iff_of_false (by simp) ?_
      intro h
      exact h i (le_refl i) hlt hdvd
    · have hmod : n % i ≠ 0 := fun h => hdvd (Nat.dvd_of_mod_eq_zero h)
      have hle := Nat.le_mul_self i
      rw [if_neg hmod, isPrimeFrom_iff, ← Undivided.step hdvd]
  · rw [if_neg hlt]
    exact iff_of_true rfl (.of_le (Nat.not_lt.mp hlt))
termination_by n - i

theorem isPrime_iff {n : Nat} (hn : 2 ≤ n) : isPrime n = true ↔ n.Prime ∨ PrimeSquare n :=
  isPrimeFrom_iff.trans (undivided_iff hn)

/-! ## isprime -/

theorem isprimeFrom_none {num i : Int} (hi : 2 ≤ i) (hle : i ≤ num) (hnum : num < 2 ^ 31) :
    isprimeFrom num i = .ok none := by
  rw [isprimeFrom, if_pos hle]
  by_cases hmod : num.tmod i = 0
  · rw [if_pos hmod]
  · have hne : i ≠ num := by
      intro h
      subst h
      exact hmod (Int.tmod_self)
    rw [if_neg hmod, int32_eq_ok.mpr ⟨⟨by omega, by omega⟩, rfl⟩, ok_bind]
    exact isprimeFrom_none (by omega) (by omega) hnum
termination_by (num + 1 - i).toNat

/-! ## count_prime -/

def primesUpTo (max : Nat) : Finset Nat := (Finset.Icc 1 max).filter Nat.Prime

/-- The primes whose squares are not above `max`. -/
def rootsUpTo (max : Nat) : Finset Nat := (primesUpTo max).filter fun p => p * p ≤ max

theorem mem_primesUpTo {p max : Nat} : p ∈ primesUpTo max ↔ p ≤ max ∧ p.Prime := by
  rw [primesUpTo, Finset.mem_filter, Finset.mem_Icc]
  constructor
  · intro h
    exact ⟨h.1.2, h.2⟩
  · intro h
    exact ⟨⟨h.2.one_lt.le, h.1⟩, h.2⟩

theorem mem_rootsUpTo {p max : Nat} : p ∈ rootsUpTo max ↔ p * p ≤ max ∧ p.Prime := by
  rw [rootsUpTo, Finset.mem_filter, mem_primesUpTo]
  constructor
  · intro h
    exact ⟨h.2, h.1.2⟩
  · intro h
    exact ⟨⟨(Nat.le_mul_self p).trans h.1, h.2⟩, h.1⟩

theorem countFrom_eq {count i max : Nat} (hcount : count < 2 ^ 64) :
    countFrom count i max = (count + ((Finset.Icc i max).filter fun n => isPrime n = true).card) % 2 ^ 64 := by
  rw [countFrom]
  by_cases hi : i ≤ max
  · have hnext : (if isPrime i = true then (count + 1) % 2 ^ 64 else count) < 2 ^ 64 := by
      split
      · exact Nat.mod_lt _ (by omega)
      · exact hcount
    have hnot : i ∉ (Finset.Icc (i + 1) max).filter fun n => isPrime n = true := by simp
    have hIcc : Finset.Icc i max = insert i (Finset.Icc (i + 1) max) := (Finset.insert_Icc_succ_left_eq_Icc hi).symm
    rw [if_pos hi, countFrom_eq hnext, hIcc, Finset.filter_insert]
    by_cases hprime : isPrime i = true
    · rw [if_pos hprime, if_pos hprime, Finset.card_insert_of_notMem hnot]
      omega
    · rw [if_neg hprime, if_neg hprime]
  · rw [if_neg hi, Finset.Icc_eq_empty hi, Finset.filter_empty, Finset.card_empty, Nat.add_zero, Nat.mod_eq_of_lt hcount]
termination_by max + 1 - i

theorem taken_eq (max : Nat) : ((Finset.Icc 2 max).filter fun n => isPrime n = true) =
    primesUpTo max ∪ (rootsUpTo max).image fun p => p * p := by
  ext n
  rw [Finset.mem_filter, Finset.mem_Icc, Finset.mem_union, mem_primesUpTo, Finset.mem_image]
  constructor
  · intro h
    obtain ⟨⟨h2, hle⟩, htaken⟩ := h
    rcases (isPrime_iff h2).mp htaken with hp | ⟨p, hp, rfl⟩
    · exact .inl ⟨hle, hp⟩
    · exact .inr ⟨p, mem_rootsUpTo.mpr ⟨hle, hp⟩, rfl⟩
  · intro h
    rcases h with ⟨hle, hp⟩ | ⟨p, hp, rfl⟩
    · exact ⟨⟨hp.two_le, hle⟩, (isPrime_iff hp.two_le).mpr (.inl hp)⟩
    · obtain ⟨hle, hp⟩ := mem_rootsUpTo.mp hp
      have h2 : 2 ≤ p * p := hp.two_le.trans (Nat.le_mul_self p)
      exact ⟨⟨h2, hle⟩, (isPrime_iff h2).mpr (.inr ⟨p, hp, rfl⟩)⟩

theorem card_taken (max : Nat) : ((Finset.Icc 2 max).filter fun n => isPrime n = true).card =
    (primesUpTo max).card + (rootsUpTo max).card := by
  have hdisj : Disjoint (primesUpTo max) ((rootsUpTo max).image fun p => p * p) := by
    rw [Finset.disjoint_left]
    intro n hn hn'
    obtain ⟨p, hp, rfl⟩ := Finset.mem_image.mp hn'
    exact PrimeSquare.not_prime ⟨p, (mem_rootsUpTo.mp hp).2, rfl⟩ (mem_primesUpTo.mp hn).2
  have hinj : Function.Injective fun p : Nat => p * p := fun p q h => Nat.mul_self_inj.mp h
  rw [taken_eq, Finset.card_union_of_disjoint hdisj, Finset.card_image_of_injective _ hinj]

theorem card_primesUpTo_le (max : Nat) : (primesUpTo max).card ≤ max := by
  have hle := Finset.card_filter_le (Finset.Icc 1 max) Nat.Prime
  rwa [Nat.card_Icc, Nat.add_sub_cancel] at hle

theorem countPrime_iff {count max : Nat} (hcount : count < 2 ^ 64) (hmax : max < 2 ^ 31) :
    countPrime count max = (primesUpTo max).card ↔ (count + (rootsUpTo max).card) % 2 ^ 64 = 0 := by
  have hle := card_primesUpTo_le max
  rw [countPrime, countFrom_eq hcount, card_taken]
  omega

/-! ## Both tests -/

/-- Both tests say of `n` whether it is a prime. -/
def Tested (n : Nat) : Prop :=
  (isPrime n = true ↔ n.Prime) ∧ ((∃ v, isprime n = .ok (some v)) ↔ n.Prime)

theorem isPrime_right_iff {n : Nat} (hn : 2 ≤ n) : (isPrime n = true ↔ n.Prime) ↔ ¬ PrimeSquare n := by
  rw [isPrime_iff hn]
  constructor
  · intro h hs
    exact hs.not_prime (h.mp (.inr hs))
  · intro h
    exact ⟨fun ht => ht.elim id fun hs => absurd hs h, .inl⟩

theorem isprime_right_iff {n : Nat} (hn : 2 ≤ n) (hlt : n < 2 ^ 31) :
    ((∃ v, isprime n = .ok (some v)) ↔ n.Prime) ↔ ¬ n.Prime := by
  have hnone : ¬ ∃ v, isprime n = .ok (some v) := by
    intro h
    obtain ⟨v, hv⟩ := h
    rw [isprime, isprimeFrom_none (le_refl 2) (by omega) (by omega)] at hv
    cases hv
  constructor
  · intro h hp
    exact hnone (h.mpr hp)
  · intro hp
    exact iff_of_false hnone hp

theorem tested_iff {n : Nat} (hn : 2 ≤ n) (hlt : n < 2 ^ 31) : Tested n ↔ ¬ PrimeSquare n ∧ ¬ n.Prime := by
  rw [Tested, isPrime_right_iff hn, isprime_right_iff hn hlt]

/-- **Testing for primes.** Both tests are right about `n` exactly if it is neither the square of a prime nor a prime,
and the count is right exactly if what `ret.count` holds at the start makes up for the squares. -/
theorem primes_right_iff (n max count : Nat) (hn : 2 ≤ n) (hlt : n < 2 ^ 31) (hmax : max < 2 ^ 31)
    (hcount : count < 2 ^ 64) : (Tested n ↔ ¬ PrimeSquare n ∧ ¬ n.Prime) ∧
      (countPrime count max = (primesUpTo max).card ↔ (count + (rootsUpTo max).card) % 2 ^ 64 = 0) :=
  ⟨tested_iff hn hlt, countPrime_iff hcount hmax⟩

theorem primes_right_six : Tested 6 ∧ countPrime 0 3 = (primesUpTo 3).card := by
  have h := primes_right_iff 6 3 0 (by omega) (by omega) (by omega) (by omega)
  refine ⟨h.1.mpr ⟨?_, by decide⟩, h.2.mpr (by decide)⟩
  intro hs
  obtain ⟨p, hp, hsquare⟩ := hs
  have h2 := hp.two_le
  have hle : p ≤ 2 := by nlinarith
  have hp2 : p = 2 := by omega
  rw [hp2] at hsquare
  cases hsquare

/-- `isPrime` takes 4 for a prime, `isprime` does not take 7 for one, and up to 4 three primes are counted. -/
theorem primes_wrong : ¬ Tested 4 ∧ ¬ Tested 7 ∧ countPrime 0 4 ≠ (primesUpTo 4).card := by
  refine ⟨?_, ?_, ?_⟩
  · intro h
    exact ((tested_iff (by omega) (by omega)).mp h).1 ⟨2, Nat.prime_two, rfl⟩
  · intro h
    exact ((tested_iff (by omega) (by omega)).mp h).2 (by decide)
  · intro h
    have hzero := (countPrime_iff (by omega) (by omega)).mp h
    revert hzero
    decide

end MyLearning.Primes
