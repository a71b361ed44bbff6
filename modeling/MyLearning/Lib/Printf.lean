import Mathlib.Algebra.Order.Ring.Int
import Mathlib.Data.List.Basic
import Mathlib.Tactic.Positivity
import Mathlib.Tactic.Zify

/-!
# Numbers in formatted output

The text of a number under `%d`, `%wd` and `%0wd`. A number that is not negative can be read
back from its text, and `snprintf` cuts a text only where it does not fit.
-/

namespace MyLearning.Printf

def sign (i : Int) : List Char := if i < 0 then ['-'] else []

def number (i : Int) : List Char := sign i ++ Nat.toDigits 10 i.natAbs

def blankPadded (w : Nat) (i : Int) : List Char := List.replicate (w - (number i).length) ' ' ++ number i

def zeroPadded (w : Nat) (i : Int) : List Char :=
  sign i ++ (List.replicate (w - (number i).length) '0' ++ Nat.toDigits 10 i.natAbs)

/-- What is in a buffer of `size` bytes in front of its terminator. -/
def snprintf (size : Nat) (text : List Char) : List Char := text.take (size - 1)

theorem snprintf_fits {size : Nat} {text : List Char} (h : text.length < size) : snprintf size text = text :=
  List.take_of_length_le (by omega)

theorem sign_nonneg {i : Int} (h : 0 ≤ i) : sign i = [] := if_neg (not_lt.mpr h)

/-! ## Reading a number back -/

theorem ofDigitChars_number {i : Int} (h : 0 ≤ i) : Nat.ofDigitChars 10 (number i) 0 = i.natAbs := by
  rw [number, sign_nonneg h, List.nil_append, Nat.ofDigitChars_ten_toDigits]

theorem ofDigitChars_zeroPadded {w : Nat} {i : Int} (h : 0 ≤ i) : Nat.ofDigitChars 10 (zeroPadded w i) 0 = i.natAbs := by
  rw [zeroPadded, sign_nonneg h, List.nil_append, Nat.ofDigitChars_append, Nat.ofDigitChars_replicate_zero,
    Nat.mul_zero, Nat.ofDigitChars_ten_toDigits]

theorem number_inj {i j : Int} (hi : 0 ≤ i) (hj : 0 ≤ j) (h : number i = number j) : i = j := by
  have hread := congrArg (fun cs => Nat.ofDigitChars 10 cs 0) h
  simp only [ofDigitChars_number hi, ofDigitChars_number hj] at hread
  omega

theorem zeroPadded_inj {w : Nat} {i j : Int} (hi : 0 ≤ i) (hj : 0 ≤ j) (h : zeroPadded w i = zeroPadded w j) :
    i = j := by
  have hread := congrArg (fun cs => Nat.ofDigitChars 10 cs 0) h
  simp only [ofDigitChars_zeroPadded hi, ofDigitChars_zeroPadded hj] at hread
  omega

/-! ## Lengths -/

theorem length_toDigits_le {n k : Nat} (hk : 0 < k) (hn : n < 10 ^ k) : (Nat.toDigits 10 n).length ≤ k :=
  (Nat.length_toDigits_le_iff (by omega) hk).mpr hn

theorem length_number_le {i : Int} {k : Nat} (hk : 0 < k) (hi : i.natAbs < 10 ^ k) : (number i).length ≤ k + 1 := by
  have hlen := length_toDigits_le hk hi
  unfold number sign
  split <;> simp <;> omega

theorem length_zeroPadded_le {w k : Nat} {i : Int} (hk : 0 < k) (hi : i.natAbs < 10 ^ k) (hw : w ≤ k + 1) :
    (zeroPadded w i).length ≤ k + 1 := by
  have hlen := length_toDigits_le hk hi
  unfold zeroPadded number sign
  split <;> simp <;> omega

theorem length_zeroPadded {w : Nat} {i : Int} (hw : 0 < w) (h₀ : 0 ≤ i) (hi : i < 10 ^ w) :
    (zeroPadded w i).length = w := by
  have hlen := length_toDigits_le (n := i.natAbs) hw (by zify; rwa [abs_of_nonneg h₀])
  rw [zeroPadded, number, sign_nonneg h₀]
  simp
  omega

theorem blankPadded_wide {w : Nat} {i : Int} (hw : 1 < w) (hi : 10 ^ (w - 1) ≤ i) : blankPadded w i = number i := by
  have hlong : ¬ (Nat.toDigits 10 i.natAbs).length ≤ w - 1 := by
    rw [Nat.length_toDigits_le_iff (by omega) (by omega), not_lt]
    have h₀ : (0 : Int) ≤ i := le_trans (by positivity) hi
    zify
    rwa [abs_of_nonneg h₀]
  have hwidth : w - (number i).length = 0 := by
    unfold number
    rw [List.length_append]
    omega
  rw [blankPadded, hwidth]
  rfl

/-! ## Characters -/

theorem isDigit_of_mem {n : Nat} {c : Char} (h : c ∈ Nat.toDigits 10 n) : c.isDigit :=
  Nat.isDigit_of_mem_toDigits (by decide) (by decide) h

theorem notMem_number {i : Int} {c : Char} (hc : c.isDigit = false) (hm : c ≠ '-') : c ∉ number i := by
  intro h
  unfold number sign at h
  rcases List.mem_append.mp h with h | h
  · split at h
    · exact hm (List.mem_singleton.mp h)
    · cases h
  · rw [isDigit_of_mem h] at hc
    cases hc

theorem notMem_zeroPadded {w : Nat} {i : Int} {c : Char} (hc : c.isDigit = false) (hm : c ≠ '-') :
    c ∉ zeroPadded w i := by
  intro h
  unfold zeroPadded at h
  rw [← List.append_assoc, List.append_assoc, List.mem_append, List.mem_append] at h
  rcases h with h | h | h
  · exact notMem_number hc hm (List.mem_append_left _ h)
  · rw [(List.mem_replicate.mp h).2] at hc
    cases hc
  · exact notMem_number hc hm (List.mem_append_right _ h)

end MyLearning.Printf
